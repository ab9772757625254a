import Segstore.Writer.Calm

/-!
# What runs preserve

The invariant of every run, for every `Store`: a writer agrees with its
directory, and a directory stands for an image.  What else is known of ledgers
and of images comes in as a pair of relations to what has been issued.
-/

namespace Segstore

variable {Id Item Seg F : Type} [DecidableEq Id] [F64 F] (st : Store Id Item Seg)

namespace Proc

theorem run_append (p : Proc Id Item Seg F) (issued : List (Op Id Item × Bool))
    (events more : List (Event Id Item F)) : run st p issued (events ++ more) =
      run st (run st p issued events).1 (run st p issued events).2 more := by
  induction events generalizing p issued with
  | nil => rfl
  | cons e events ih => exact ih _ _

/-- An invariant of steps is one of runs. -/
theorem run_induction {I : List (Op Id Item × Bool) → Proc Id Item Seg F → Prop}
    {C : Event Id Item F → Prop}
    (hstep : ∀ issued p e, C e → I issued p → I (issued ++ (step st p e).2) (step st p e).1)
    {events : List (Event Id Item F)} (hevents : ∀ e ∈ events, C e)
    {p : Proc Id Item Seg F} {issued : List (Op Id Item × Bool)} (h : I issued p) :
    I (run st p issued events).2 (run st p issued events).1 := by
  induction events generalizing p issued with
  | nil => exact h
  | cons e events ih =>
      exact ih (fun e' he' => hevents e' (List.mem_cons_of_mem _ he'))
        (hstep issued p e (hevents e List.mem_cons_self) h)

end Proc

namespace Proc

/-- What every call keeps, a writer that is still there after calls has kept. -/
theorem calls_induction {I : SegmentedStore Id Item Seg F → Prop} {C : Cmd Id Item F → Prop}
    (hstep : ∀ s cmd fates, C cmd → I s → (cmd.exec st (armed s fates)).1 ≠ .crash →
      I (cmd.exec st (armed s fates)).2)
    {calls : List (Event Id Item F)}
    (hcalls : ∀ e ∈ calls, ∃ cmd fates, e = .call cmd fates ∧ C cmd)
    {s : SegmentedStore Id Item Seg F} (hs : I s) {issued : List (Op Id Item × Bool)} :
    ∀ u, (run st (.running s) issued calls).1 = .running u → I u := by
  refine run_induction st (I := fun _ p => ∀ u, p = .running u → I u)
    (C := fun e => ∃ cmd fates, e = .call cmd fates ∧ C cmd) ?_ hcalls ?_
  · rintro issued p e ⟨cmd, fates, rfl, hcmd⟩ hI u hu
    cases p with
    | closed d => cases hu
    | running t =>
        have hnext := hstep t cmd fates hcmd (hI t rfl)
        simp only [step] at hu
        generalize (cmd.exec st (armed t fates)).1 = r at hnext hu
        cases r with
        | ok _ =>
            cases hu
            exact hnext (by simp)
        | err e =>
            cases hu
            exact hnext (by simp)
        | crash => cases hu
  · rintro u ⟨⟩
    exact hs

theorem step_reopen (p : Proc Id Item Seg F) (opts : Options F) (keep : Nat)
    (fates : List (Call → Fate)) : step st p (.reopen opts keep fates) =
      (afterOpen (openWithOptions st opts (p.dir.settle keep fates)).1
        (openWithOptions st opts (p.dir.settle keep fates)).2, []) := by
  cases p <;> rfl

/-- A drop and an open, whatever fails: the directory stands for the same image,
and a writer that is returned is that of the image and what is left of the log. -/
theorem step_reopen_ends (p : Proc Id Item Seg F) {im : Image Id Seg}
    (hcoh : p.dir.Coherent im) (opts : Options F) (keep : Nat) (fates : List (Call → Fate)) :
    let log := (Directory.logOf p.dir.files (walPath im.epoch)).settled keep
    let q := (step st p (.reopen opts keep fates)).1
    q.dir.Coherent im ∧ q.dir.fileBacked = p.dir.fileBacked ∧
      Directory.logOf q.dir.files (walPath im.epoch) = log ∧
      ∀ s, q = .running s → Framed s im ∧ Current s im ∧ Bounded s ∧
        ∃ boot, im.boot st im.segments = .ok boot ∧ s.ledger im = {
          contents := boot.replay st opts.flushThreshold log.records
          image := im
          log := log
          published := boot.toPubState } := by
  intro log q
  have hstep : q = _ := congrArg Prod.fst (step_reopen st p opts keep fates)
  obtain ⟨hd, hback, hlog, -, hok⟩ := reopen_ends st (hcoh.settle keep fates) opts
  rw [Directory.logOf_settle] at hlog hok
  rw [hstep]
  generalize (openWithOptions st opts (p.dir.settle keep fates)).1 = r at hok
  generalize (openWithOptions st opts (p.dir.settle keep fates)).2 = d at hd hlog hok hback
  cases r with
  | ok s =>
      obtain ⟨boot, hboot, rfl⟩ := hok s rfl
      obtain ⟨hframed, hcur, hb⟩ := opened_framed st hd opts hboot log.records
      refine ⟨hd, hback, hlog, ?_⟩
      rintro s ⟨⟩
      refine ⟨hframed, hcur, hb, boot, hboot, ?_⟩
      rw [SegmentedStore.ledger]
      simp only [SegmentedStore.opened, hlog]
      rfl
  | err e => exact ⟨hd, hback, hlog, fun s hs => by cases hs⟩
  | crash => exact ⟨hd, hback, hlog, fun s hs => by cases hs⟩

end Proc

/-- How a relation `R` of ledgers to what was issued, and a relation `D` of
images with their logs, get through calls, stops and opens. -/
structure Resilient (R : List (Op Id Item × Bool) → Ledger Id Item Seg → Prop)
    (D : List (Op Id Item × Bool) → Image Id Seg → RecordLog Id Item → Prop) : Prop where
  issue : ∀ {issued l ops l'}, R issued l → Ledger.Issued st l ops l' →
    R (issued ++ flagged false ops) l'
  acknowledge : ∀ {issued l ops l'}, R issued l → Ledger.Acked st l ops l' →
    R (issued ++ flagged true ops) l'
  stop : ∀ {issued l}, R issued l → D issued l.image l.log
  settle : ∀ {issued im log} keep, D issued im log → D issued im (log.settled keep)
  start : ∀ {issued im log boot} flushThreshold keep, D issued im log →
    im.boot st im.segments = .ok boot → R issued {
      contents := boot.replay st flushThreshold (log.settled keep).records
      image := im
      log := log.settled keep
      published := boot.toPubState }

/-- A process in agreement with its directory. -/
def Proc.Agrees (fileBacked : Bool)
    (R : List (Op Id Item × Bool) → Ledger Id Item Seg → Prop)
    (D : List (Op Id Item × Bool) → Image Id Seg → RecordLog Id Item → Prop)
    (issued : List (Op Id Item × Bool)) : Proc Id Item Seg F → Prop
  | .closed d => d.fileBacked = fileBacked ∧ ∃ im, d.Coherent im ∧
      D issued im (Directory.logOf d.files (walPath im.epoch))
  | .running s => s.dir.fileBacked = fileBacked ∧ ∃ im, Framed s im ∧ Current s im ∧
      Bounded s ∧ R issued (s.ledger im)

namespace Resilient

variable {st} {fileBacked : Bool}
variable {R : List (Op Id Item × Bool) → Ledger Id Item Seg → Prop}
variable {D : List (Op Id Item × Bool) → Image Id Seg → RecordLog Id Item → Prop}

omit [F64 F] in
/-- Properties of the ledger alone. -/
theorem of_closed {P : Ledger Id Item Seg → Prop} {Q : Image Id Seg → RecordLog Id Item → Prop}
    (h : Ledger.Closed st P) (hstop : ∀ {l}, P l → Q l.image l.log)
    (hsettle : ∀ {im log} keep, Q im log → Q im (log.settled keep))
    (hstart : ∀ {im log boot} flushThreshold, Q im log → im.boot st im.segments = .ok boot → P {
      contents := boot.replay st flushThreshold log.records
      image := im
      log := log
      published := boot.toPubState }) :
    Resilient st (fun _ l => P l) (fun _ im log => Q im log) where
  issue := h.issued
  acknowledge := h.acked
  stop := hstop
  settle := hsettle
  start := fun flushThreshold keep hQ hboot => hstart flushThreshold (hsettle keep hQ) hboot

omit [F64 F] in
/-- Two invariants of runs are one. -/
theorem and {R' : List (Op Id Item × Bool) → Ledger Id Item Seg → Prop}
    {D' : List (Op Id Item × Bool) → Image Id Seg → RecordLog Id Item → Prop}
    (h : Resilient st R D) (h' : Resilient st R' D') :
    Resilient st (fun issued l => R issued l ∧ R' issued l)
      (fun issued im log => D issued im log ∧ D' issued im log) where
  issue := fun hl hissued => ⟨h.issue hl.1 hissued, h'.issue hl.2 hissued⟩
  acknowledge := fun hl hacked => ⟨h.acknowledge hl.1 hacked, h'.acknowledge hl.2 hacked⟩
  stop := fun hl => ⟨h.stop hl.1, h'.stop hl.2⟩
  settle := fun keep hD => ⟨h.settle keep hD.1, h'.settle keep hD.2⟩
  start := fun flushThreshold keep hD hboot =>
    ⟨h.start flushThreshold keep hD.1 hboot, h'.start flushThreshold keep hD.2 hboot⟩

omit [DecidableEq Id] [F64 F] in
/-- The fates of the next call are no concern of the writer's. -/
theorem armed_framed {s : SegmentedStore Id Item Seg F} {im : Image Id Seg} (h : Framed s im)
    (fates : List (Call → Fate)) :
    Framed (Proc.armed s fates) im ∧ (Proc.armed s fates).ledger im = s.ledger im :=
  ⟨⟨h.disk.congr rfl rfl, h.shape, h.next_le, h.committed, h.file, h.named, h.persisted_lt,
    h.wal⟩, rfl⟩

variable (st) in
/-- Every call on a writer in agreement with its directory, under any fates. -/
theorem armed_exec_ends {s : SegmentedStore Id Item Seg F} {im : Image Id Seg} (h : Framed s im)
    (hcur : Current s im) (hb : Bounded s) (cmd : Cmd Id Item F) (fates : List (Call → Fate)) :
    Ends (cmd.exec st) (Proc.armed s fates) (Executed st s im cmd) := by
  refine (exec_ends st (armed_framed h fates).1 hcur hb cmd).mono ?_
  rintro r t ⟨im', ht, hcur', hguar, hrest⟩
  exact ⟨im', ht, hcur',
    ⟨hguar.opts, hguar.backed, hguar.grows, hguar.image, hguar.index⟩, hrest⟩

end Resilient

/-! ### One event -/

/-- How a property of ledgers, and one of images with their logs, get through stops
and opens. -/
structure Restarts (R : Ledger Id Item Seg → Prop)
    (D : Image Id Seg → RecordLog Id Item → Prop) : Prop where
  stop : ∀ {l}, R l → D l.image l.log
  settle : ∀ {im log} keep, D im log → D im (log.settled keep)
  start : ∀ {im log boot} flushThreshold keep, D im log → im.boot st im.segments = .ok boot → R {
    contents := boot.replay st flushThreshold (log.settled keep).records
    image := im
    log := log.settled keep
    published := boot.toPubState }

variable {st} in
omit [F64 F] in
theorem Resilient.restarts {R : List (Op Id Item × Bool) → Ledger Id Item Seg → Prop}
    {D : List (Op Id Item × Bool) → Image Id Seg → RecordLog Id Item → Prop}
    (h : Resilient st R D) (issued : List (Op Id Item × Bool)) :
    Restarts st (R issued) (D issued) where
  stop := h.stop
  settle := h.settle
  start := h.start

namespace Proc

variable {st} {fileBacked : Bool} {R : Ledger Id Item Seg → Prop}
variable {D : Image Id Seg → RecordLog Id Item → Prop}

/-- Agreement as to two properties. -/
abbrev AgreesOn (fileBacked : Bool) (R : Ledger Id Item Seg → Prop)
    (D : Image Id Seg → RecordLog Id Item → Prop) (p : Proc Id Item Seg F) : Prop :=
  p.Agrees fileBacked (fun _ => R) (fun _ => D) []

omit [DecidableEq Id] [F64 F] in
theorem agrees_iff {R : List (Op Id Item × Bool) → Ledger Id Item Seg → Prop}
    {D : List (Op Id Item × Bool) → Image Id Seg → RecordLog Id Item → Prop}
    {issued : List (Op Id Item × Bool)} {p : Proc Id Item Seg F} :
    p.Agrees fileBacked R D issued ↔ p.AgreesOn fileBacked (R issued) (D issued) := by
  cases p <;> rfl

omit [F64 F] in
/-- What is left of a process. -/
theorem AgreesOn.drop {p : Proc Id Item Seg F} (hp : p.AgreesOn fileBacked R D)
    (h : Restarts st R D) :
    p.dir.fileBacked = fileBacked ∧ ∃ im, p.dir.Coherent im ∧
      D im (Directory.logOf p.dir.files (walPath im.epoch)) := by
  cases p with
  | closed d => exact hp
  | running s =>
      obtain ⟨hback, im, hframed, -, -, hR⟩ := hp
      exact ⟨hback, im, hframed.disk, h.stop hR⟩

/-- A call, from what is known before it to what is known after it, whether it has
returned or not. -/
theorem AgreesOn.call {s : SegmentedStore Id Item Seg F} (hs : (running s).AgreesOn fileBacked R D)
    (R' : Bool → Ledger Id Item Seg → Prop) (D' : Bool → Image Id Seg → RecordLog Id Item → Prop)
    (cmd : Cmd Id Item F) (fates : List (Call → Fate))
    (hissue : ∀ {l l'}, R l → Ledger.Issued st l cmd.ops l' → R' false l')
    (hack : ∀ {l l'}, R l → Ledger.Acked st l cmd.ops l' → R' true l')
    (hstop : ∀ {l}, R' false l → D' false l.image l.log) :
    (step st (running s) (.call cmd fates)).1.AgreesOn fileBacked
      (R' (acked (cmd.exec st (armed s fates)).1))
      (D' (acked (cmd.exec st (armed s fates)).1)) := by
  obtain ⟨hback, im, hframed, hcur, hb, hR⟩ := hs
  obtain ⟨im', ht, hcur', hguar, hb', hissued, hok⟩ :=
    Resilient.armed_exec_ends st hframed hcur hb cmd fates
  have hback' := hguar.backed.trans hback
  simp only [step]
  generalize (cmd.exec st (armed s fates)).1 = r at hcur' hok
  generalize (cmd.exec st (armed s fates)).2 = t at ht hcur' hback' hb' hissued hok
  cases r with
  | ok u => exact ⟨hback', im', ht, hcur' (by simp), hb', hack hR (hok rfl).2.1⟩
  | err e => exact ⟨hback', im', ht, hcur' (by simp), hb', hissue hR hissued⟩
  | crash => exact ⟨hback', im', ht.disk, hstop (hissue hR hissued)⟩

theorem AgreesOn.reopen {p : Proc Id Item Seg F} (hp : p.AgreesOn fileBacked R D)
    (h : Restarts st R D) (opts : Options F) (keep : Nat) (fates : List (Call → Fate)) :
    (step st p (.reopen opts keep fates)).1.AgreesOn fileBacked R D := by
  obtain ⟨hback, im, hcoh, hD⟩ := hp.drop h
  obtain ⟨hd, hback', hlog, hok⟩ := step_reopen_ends st p hcoh opts keep fates
  have hback'' := hback'.trans hback
  generalize (step st p (.reopen opts keep fates)).1 = q at *
  cases q with
  | running s =>
      obtain ⟨hframed, hcur, hb, boot, hboot, hledger⟩ := hok s rfl
      exact ⟨hback'', im, hframed, hcur, hb, hledger ▸ h.start opts.flushThreshold keep hD hboot⟩
  | closed d =>
      refine ⟨hback'', im, hd, ?_⟩
      exact hlog.symm ▸ h.settle keep hD

end Proc

namespace Resilient

variable {st} {fileBacked : Bool}
variable {R : List (Op Id Item × Bool) → Ledger Id Item Seg → Prop}
variable {D : List (Op Id Item × Bool) → Image Id Seg → RecordLog Id Item → Prop}

omit [F64 F] in
/-- What is left of a process. -/
theorem drop (h : Resilient st R D) {issued : List (Op Id Item × Bool)}
    {p : Proc Id Item Seg F} (hp : p.Agrees fileBacked R D issued) :
    p.dir.fileBacked = fileBacked ∧ ∃ im, p.dir.Coherent im ∧
      D issued im (Directory.logOf p.dir.files (walPath im.epoch)) :=
  (Proc.agrees_iff.mp hp).drop (h.restarts issued)

theorem call (h : Resilient st R D) {issued : List (Op Id Item × Bool)}
    {s : SegmentedStore Id Item Seg F} (hs : (Proc.running s).Agrees fileBacked R D issued)
    (cmd : Cmd Id Item F) (fates : List (Call → Fate)) :
    (Proc.step st (.running s) (.call cmd fates)).1.Agrees fileBacked R D
      (issued ++ (Proc.step st (.running s) (.call cmd fates)).2) :=
  Proc.agrees_iff.mpr ((Proc.agrees_iff.mp hs).call
    (fun acked => R (issued ++ flagged acked cmd.ops))
    (fun acked => D (issued ++ flagged acked cmd.ops)) cmd fates h.issue h.acknowledge h.stop)

theorem reopen (h : Resilient st R D) {issued : List (Op Id Item × Bool)}
    {p : Proc Id Item Seg F} (hp : p.Agrees fileBacked R D issued) (opts : Options F)
    (keep : Nat) (fates : List (Call → Fate)) :
    (Proc.step st p (.reopen opts keep fates)).1.Agrees fileBacked R D issued :=
  Proc.agrees_iff.mpr ((Proc.agrees_iff.mp hp).reopen (h.restarts issued) opts keep fates)

/-- One event. -/
theorem step (h : Resilient st R D) {issued : List (Op Id Item × Bool)}
    {p : Proc Id Item Seg F} (hp : p.Agrees fileBacked R D issued) (e : Event Id Item F) :
    (Proc.step st p e).1.Agrees fileBacked R D (issued ++ (Proc.step st p e).2) := by
  cases e with
  | call cmd fates =>
      cases p with
      | closed d => simpa [Proc.step] using hp
      | running s => exact h.call hp cmd fates
  | reopen opts keep fates =>
      rw [Proc.step_reopen, List.append_nil, ← congrArg Prod.fst (Proc.step_reopen st p _ _ _)]
      exact h.reopen hp opts keep fates

/-- Whatever fails and wherever processes stop. -/
theorem run (h : Resilient st R D) {issued : List (Op Id Item × Bool)}
    {p : Proc Id Item Seg F} (hp : p.Agrees fileBacked R D issued)
    (events : List (Event Id Item F)) :
    (Proc.run st p issued events).1.Agrees fileBacked R D (Proc.run st p issued events).2 :=
  Proc.run_induction st (I := fun issued p => p.Agrees fileBacked R D issued)
    (C := fun _ => True) (fun _ _ e _ hq => h.step hq e) (fun _ _ => trivial) hp

end Resilient

/-! ## Runs without faults -/

/-- An event in which nothing fails, on a backend that the options fit. -/
def Event.Faultless (fileBacked : Bool) : Event Id Item F → Prop
  | .call _ fates => fates = []
  | .reopen opts _ fates => fates = [] ∧ (opts.sync = .fsync → fileBacked = true)

/-- The operations an event issues. -/
def Event.ops : Event Id Item F → List (Op Id Item)
  | .call cmd _ => cmd.ops
  | .reopen _ _ _ => []

/-- A call on a healthy writer returns, and leaves the ledger of a run without
faults. -/
theorem exec_call_calm {s : SegmentedStore Id Item Seg F} {im : Image Id Seg}
    (hframed : Framed s im) (hcur : Current s im) (hb : Bounded s)
    (hhealthy : s.Healthy) (cmd : Cmd Id Item F) :
    ∃ t im', cmd.exec st (Proc.armed s []) = (.ok (), t) ∧
      Framed t im' ∧ Current t im' ∧ Bounded t ∧ t.Healthy ∧ Guar s im t im' ∧
        t.ledger im' = (s.ledger im).exec st s.opts cmd := by
  obtain ⟨im', ht, hcur', hguar, hb', -, hok⟩ :=
    Resilient.armed_exec_ends st hframed hcur hb cmd []
  have hreturns := (SegmentedStore.partwise_returns st).exec cmd (Proc.armed s []) ⟨rfl, hhealthy⟩
  obtain ⟨⟨⟨⟩, hr⟩, hcalm⟩ := hreturns
  obtain ⟨-, -, hexec⟩ := hok hr
  rw [hr] at hcur'
  exact ⟨_, im', Prod.ext hr rfl, ht, hcur' (by simp), hb', hcalm.2,
    ⟨hguar.opts, hguar.backed, hguar.grows, hguar.image, hguar.index⟩, hexec⟩

/-- It is acknowledged. -/
theorem step_call_calm {s : SegmentedStore Id Item Seg F} {im : Image Id Seg}
    (hframed : Framed s im) (hcur : Current s im) (hb : Bounded s)
    (hhealthy : s.Healthy) (cmd : Cmd Id Item F) :
    ∃ t im', Proc.step st (.running s) (.call cmd []) = (.running t, flagged true cmd.ops) ∧
      Framed t im' ∧ Current t im' ∧ Bounded t ∧ t.Healthy ∧ Guar s im t im' ∧
        t.ledger im' = (s.ledger im).exec st s.opts cmd := by
  obtain ⟨t, im', hrun, hrest⟩ := exec_call_calm st hframed hcur hb hhealthy cmd
  exact ⟨t, im', by simp only [Proc.step, hrun]; rfl, hrest⟩

/-- An image that boots is opened. -/
theorem step_reopen_calm {p : Proc Id Item Seg F} {im : Image Id Seg}
    (hcoh : p.dir.Coherent im) {opts : Options F}
    (hback : opts.sync = .fsync → p.dir.fileBacked = true) {boot : Contents Id Item Seg}
    (hboot : im.boot st im.segments = .ok boot) (keep : Nat) :
    let log := (Directory.logOf p.dir.files (walPath im.epoch)).settled keep
    ∃ t, Proc.step st p (.reopen opts keep []) = (.running t, []) ∧ Framed t im ∧
      Current t im ∧ Bounded t ∧ t.Healthy ∧ t.opts = opts ∧
      t.dir.fileBacked = p.dir.fileBacked ∧ t.ledger im = {
        contents := boot.replay st opts.flushThreshold log.records
        image := im
        log := log
        published := boot.toPubState } := by
  have hopen := open_calm st (hcoh.settle keep []) rfl opts hback hboot
  obtain ⟨hd, hbacked, hlog, -, -⟩ := reopen_ends st (hcoh.settle keep []) opts
  rw [Directory.logOf_settle] at hopen hlog
  obtain ⟨-, hr⟩ := hopen
  obtain ⟨hframed, hcur, hb⟩ := opened_framed st hd opts hboot
    ((Directory.logOf p.dir.files (walPath im.epoch)).settled keep).records
  rw [Proc.step_reopen, hr]
  refine ⟨_, rfl, hframed, hcur, hb, ⟨rfl, rfl⟩, rfl, hbacked, ?_⟩
  rw [SegmentedStore.ledger]
  simp only [SegmentedStore.opened, hlog]

/-- The writer after an event that opened one. -/
theorem step_reopen_running {p : Proc Id Item Seg F} {opts : Options F} {keep : Nat}
    {fates : List (Call → Fate)} {s : SegmentedStore Id Item Seg F}
    (hopen : (Proc.step st p (.reopen opts keep fates)).1 = .running s) :
    (openWithOptions st opts (p.dir.settle keep fates)).1 = .ok s := by
  rw [Proc.step_reopen] at hopen
  generalize openWithOptions st opts (p.dir.settle keep fates) = q at hopen
  obtain ⟨r, d⟩ := q
  cases r with
  | ok s' =>
      cases hopen
      rfl
  | err e => cases hopen
  | crash => cases hopen

/-- An open that succeeds has found a backend that fits, and an image that boots. -/
theorem step_reopen_boots {p : Proc Id Item Seg F} {im : Image Id Seg} (hcoh : p.dir.Coherent im)
    {opts : Options F} {keep : Nat} {fates : List (Call → Fate)}
    {s : SegmentedStore Id Item Seg F}
    (hopen : (Proc.step st p (.reopen opts keep fates)).1 = .running s) :
    (opts.sync = .fsync → p.dir.fileBacked = true) ∧
      ∃ boot, im.boot st im.segments = .ok boot := by
  have hr := step_reopen_running st hopen
  obtain ⟨-, -, -, -, hok⟩ := reopen_ends st (hcoh.settle keep fates) opts
  obtain ⟨boot, hboot, -⟩ := hok s hr
  exact ⟨Directory.open_backed st opts (p.dir.settle keep fates) s hr, boot, hboot⟩

/-- When nothing fails and every image boots, everything is acknowledged. -/
theorem Resilient.run_calm {fileBacked : Bool}
    {R : List (Op Id Item × Bool) → Ledger Id Item Seg → Prop}
    {D : List (Op Id Item × Bool) → Image Id Seg → RecordLog Id Item → Prop}
    (h : Resilient st R D)
    (hboots : ∀ {issued im log}, D issued im log → ∃ boot, im.boot st im.segments = .ok boot)
    {events : List (Event Id Item F)} (hevents : ∀ e ∈ events, e.Faultless fileBacked)
    {s : SegmentedStore Id Item Seg F} (ops : List (Op Id Item))
    (hs : (Proc.running s).Agrees fileBacked R D (flagged true ops))
    (hhealthy : s.Healthy) :
    ∃ t, Proc.run st (.running s) (flagged true ops) events =
        (.running t, flagged true (ops ++ events.flatMap Event.ops)) ∧
      (Proc.running t).Agrees fileBacked R D (flagged true (ops ++ events.flatMap Event.ops)) := by
  induction events generalizing s ops with
  | nil => exact ⟨s, by simp [Proc.run], by simpa using hs⟩
  | cons e events ih =>
      have hcalm := hevents e List.mem_cons_self
      have hrest := fun e' he' => hevents e' (List.mem_cons_of_mem _ he')
      have hnext := h.step hs e
      have hstep : ∃ t, Proc.step st (.running s) e = (.running t, flagged true e.ops) ∧
          t.Healthy := by
        cases e with
        | call cmd fates =>
            obtain rfl : fates = [] := hcalm
            obtain ⟨hback, im, hframed, hcur, hb, hR⟩ := hs
            obtain ⟨t, -, hstep, -, -, -, hhealthy', -⟩ :=
              step_call_calm st hframed hcur hb hhealthy cmd
            exact ⟨t, hstep, hhealthy'⟩
        | reopen opts keep fates =>
            obtain ⟨rfl, hfsync⟩ := hcalm
            obtain ⟨hback, im, hcoh, hD⟩ := h.drop hs
            obtain ⟨boot, hboot⟩ := hboots hD
            obtain ⟨t, hstep, -, -, -, hhealthy', -⟩ :=
              step_reopen_calm st hcoh (fun hsync => hback.trans (hfsync hsync)) hboot keep
            exact ⟨t, hstep, hhealthy'⟩
      obtain ⟨t, hstep, hhealthy'⟩ := hstep
      rw [hstep, ← flagged_append] at hnext
      obtain ⟨u, hrun, hu⟩ := ih hrest _ hnext hhealthy'
      refine ⟨u, ?_, by simpa using hu⟩
      rw [Proc.run, hstep, ← flagged_append]
      simpa using hrun

/-! ## Runs on fixed inputs -/

/-- A test of the writer, false without one. -/
def Proc.holds (test : SegmentedStore Id Item Seg F → Bool) : Proc Id Item Seg F → Bool
  | .running s => test s
  | .closed _ => false

omit [DecidableEq Id] [F64 F] in
theorem Proc.holds_iff {test : SegmentedStore Id Item Seg F → Bool}
    {p : Proc Id Item Seg F} :
    p.holds test = true ↔ ∃ s, p = .running s ∧ test s = true := by
  cases p with
  | running s => simp [holds]
  | closed d => simp [holds]

theorem Proc.acked_iff {r : Outcome PersistenceError Unit} : acked r = true ↔ r = .ok () := by
  cases r with
  | ok u => exact iff_of_true rfl rfl
  | err e => simp [acked]
  | crash => simp [acked]

/-! ## The empty directory -/

/-- The image of an empty directory. -/
def emptyImage : Image Id Seg where
  toLoadedManifest := .absent
  segments := []

/-- The ledger of an empty directory, without a memory. -/
def emptyLedger : Ledger Id Item Seg where
  contents := {
    segments := [], segmentIds := [], tombstones := [], superseded := ∅,
    buffer := [], bufferIds := [], owners := some ∅, nextSegId := 0 }
  image := emptyImage
  log := .empty
  published := { segments := [], segmentIds := [], tombstones := [], superseded := ∅ }

omit [DecidableEq Id] [F64 F] in
theorem coherent_empty (fileBacked : Bool) :
    (Directory.empty fileBacked : Directory Id Item Seg).Coherent emptyImage := by
  have hshows : Shows (Directory.empty fileBacked : Directory Id Item Seg).files
      emptyImage := ⟨rfl, .nil⟩
  have hnum : (emptyImage : Image Id Seg).Numbered := ⟨.nil, by simp [emptyImage,
    LoadedManifest.absent]⟩
  refine ⟨hshows, hnum, fun _ _ => .inl rfl, .inl rfl, rfl, .inr rfl, ?_, ?_⟩
  · rintro f hf
    rw [List.mem_singleton.mp hf]
    exact ⟨emptyImage, hshows, hnum⟩
  · exact List.pairwise_singleton _ _

end Segstore
