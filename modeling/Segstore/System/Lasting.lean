import Segstore.Writer.Steps
import Segstore.System.Runs

/-!
# Invariants of runs without faults

`Lasting A O I` says that the relation `I` of ledgers to the operations issued
gets through every step whose deeds satisfy `A`, and through a drop and an open
with options that satisfy `O`.  It then holds at the end of every run without
faults whose deeds and options are such.
-/

namespace Segstore

variable {Id Item Seg F : Type} [DecidableEq Id] [F64 F] (st : Store Id Item Seg)

/-- The options of an open satisfy `O`. -/
def Event.Within (O : Options F → Prop) : Event Id Item F → Prop
  | .call _ _ => True
  | .reopen opts _ _ => O opts

namespace Proc

/-- The deeds of an event in which nothing fails. -/
def deeds : Proc Id Item Seg F → Event Id Item F → List (Deed Id Item Seg)
  | .running s, .call cmd _ => cmd.deeds st s.opts s.toContents
  | _, _ => []

/-- Every deed of the run satisfies `A`. -/
def Heeds (A : Deed Id Item Seg → Prop) : Proc Id Item Seg F → List (Event Id Item F) → Prop
  | _, [] => True
  | p, e :: events => (∀ d ∈ p.deeds st e, A d) ∧ Heeds A (step st p e).1 events

instance decidableHeeds (A : Deed Id Item Seg → Prop) [DecidablePred A] :
    (p : Proc Id Item Seg F) → (events : List (Event Id Item F)) → Decidable (p.Heeds st A events)
  | _, [] => inferInstanceAs (Decidable True)
  | p, e :: events =>
      have := decidableHeeds A (step st p e).1 events
      inferInstanceAs (Decidable ((∀ d ∈ p.deeds st e, A d) ∧ _))

theorem heeds_true (p : Proc Id Item Seg F) (events : List (Event Id Item F)) :
    p.Heeds st (fun _ => True) events := by
  induction events generalizing p with
  | nil => trivial
  | cons e events ih => exact ⟨fun _ _ => trivial, ih _⟩

end Proc

/-- The next segment id and the epoch are numbers that a `u64` holds. -/
def SegmentedStore.CountersFit (s : SegmentedStore Id Item Seg F) : Prop :=
  s.nextSegId < 2 ^ 64 ∧ s.epoch < 2 ^ 64

omit [DecidableEq Id] [F64 F] in
instance (s : SegmentedStore Id Item Seg F) : Decidable s.CountersFit :=
  inferInstanceAs (Decidable (_ ∧ _))

namespace Proc

/-- The counters of every writer of the run fit.  A call only ever raises them, so they
fit all along it when they do at its end. -/
def CountersFit : Proc Id Item Seg F → List (Event Id Item F) → Prop
  | closed _, [] => True
  | running s, [] => s.CountersFit
  | closed d, e :: events => CountersFit (step st (closed d) e).1 events
  | running s, e :: events => s.CountersFit ∧ CountersFit (step st (running s) e).1 events

instance decidableCountersFit : (p : Proc Id Item Seg F) → (events : List (Event Id Item F)) →
    Decidable (p.CountersFit st events)
  | closed _, [] => inferInstanceAs (Decidable True)
  | running s, [] => inferInstanceAs (Decidable s.CountersFit)
  | closed d, e :: events => decidableCountersFit (step st (closed d) e).1 events
  | running s, e :: events =>
      have := decidableCountersFit (step st (running s) e).1 events
      inferInstanceAs (Decidable (s.CountersFit ∧ _))

end Proc

/-- An invariant of runs without faults. -/
structure Lasting (A : Deed Id Item Seg → Prop) (O : Options F → Prop)
    (I : List (Op Id Item) → Ledger Id Item Seg → Prop) : Prop where
  step : ∀ {opts issued l ops l'}, O opts → I issued l →
    Step st A opts.flushThreshold l ops l' → I (issued ++ ops) l'
  reopen : ∀ {opts issued l}, O opts → I issued l →
    ∃ boot, l.image.boot st l.image.segments = .ok boot ∧ I issued {
      contents := boot.replay st opts.flushThreshold l.log.records
      image := l.image
      log := l.log
      published := boot.toPubState }

/-- A writer to which nothing has happened that should not. -/
structure Sane (fileBacked : Bool) (O : Options F → Prop) (s : SegmentedStore Id Item Seg F)
    (im : Image Id Seg) : Prop where
  framed : Framed s im
  current : Current s im
  bounded : Bounded s
  healthy : s.Healthy
  backed : s.dir.fileBacked = fileBacked
  within : O s.opts
  synced : (s.ledger im).Synced

omit [DecidableEq Id] in
/-- All of a flushed log is found again. -/
theorem RecordLog.settled_of_synced {log : RecordLog Id Item}
    (h : log.synced = log.records.length) (keep : Nat) : log.settled keep = log := by
  rw [settled, List.take_of_length_le (h ▸ Nat.le_max_left _ _)]

namespace Lasting

variable {st} {fileBacked : Bool} {A : Deed Id Item Seg → Prop} {O : Options F → Prop}
variable {I : List (Op Id Item) → Ledger Id Item Seg → Prop}

variable (st) in
/-- A directory whose image boots is opened. -/
theorem start (p : Proc Id Item Seg F) {im : Image Id Seg} (hcoh : p.dir.Coherent im)
    (hback : p.dir.fileBacked = fileBacked)
    (hsynced : (Directory.logOf p.dir.files (walPath im.epoch)).synced =
      (Directory.logOf p.dir.files (walPath im.epoch)).records.length)
    (opts : Options F) (keep : Nat)
    (hcalm : (Event.reopen opts keep [] : Event Id Item F).Faultless fileBacked) (hO : O opts)
    {boot : Contents Id Item Seg} (hboot : im.boot st im.segments = .ok boot) :
    ∃ t, Proc.step st p (.reopen opts keep []) = (.running t, []) ∧ Sane fileBacked O t im ∧
      t.ledger im = {
        contents := boot.replay st opts.flushThreshold
          (Directory.logOf p.dir.files (walPath im.epoch)).records
        image := im
        log := Directory.logOf p.dir.files (walPath im.epoch)
        published := boot.toPubState } := by
  have hopened := step_reopen_calm st (p := p) hcoh
    (fun hfsync => hback.trans (hcalm.2 hfsync)) hboot keep
  rw [RecordLog.settled_of_synced hsynced] at hopened
  obtain ⟨t, hstep, hframed, hcur, hb, hhealthy, hopts, hback', hledger⟩ := hopened
  refine ⟨t, hstep, ⟨hframed, hcur, hb, hhealthy, hback'.trans hback, hopts ▸ hO, ?_⟩, hledger⟩
  rw [hledger]
  exact hsynced

/-- One event. -/
theorem step_event (h : Lasting st A O I) {s : SegmentedStore Id Item Seg F}
    {im : Image Id Seg} (hs : Sane fileBacked O s im) {issued : List (Op Id Item)}
    (hI : I issued (s.ledger im)) {e : Event Id Item F} (hcalm : e.Faultless fileBacked)
    (hO : e.Within O) (hA : ∀ d ∈ Proc.deeds st (.running s) e, A d) :
    ∃ t im', Proc.step st (.running s) e = (.running t, flagged true e.ops) ∧
      Sane fileBacked O t im' ∧ I (issued ++ e.ops) (t.ledger im') := by
  cases e with
  | call cmd fates =>
      obtain rfl : fates = [] := hcalm
      obtain ⟨t, im', hstep, hframed, hcur, hb, hhealthy, hguar, hexec⟩ :=
        step_call_calm st hs.framed hs.current hs.bounded hs.healthy cmd
      refine ⟨t, im', hstep, ⟨hframed, hcur, hb, hhealthy, hguar.backed.trans hs.backed,
        hguar.opts ▸ hs.within, ?_⟩, ?_⟩
      · rw [hexec]
        exact Ledger.exec_synced cmd hs.synced
      · rw [hexec]
        exact Steps.induction (fun hI hstep => h.step hs.within hI hstep) hI
          (Ledger.exec_steps cmd hs.framed.shape hs.bounded hA)
  | reopen opts keep fates =>
      obtain rfl : fates = [] := hcalm.1
      obtain ⟨boot, hboot, hnext⟩ := h.reopen hO hI
      obtain ⟨t, hstep, ht, hledger⟩ := start st (.running s) hs.framed.disk hs.backed
        hs.synced opts keep hcalm hO hboot
      refine ⟨t, im, hstep, ht, ?_⟩
      rw [hledger, Event.ops, List.append_nil]
      exact hnext

/-- The invariant holds at the end of a run. -/
theorem run (h : Lasting st A O I) {events : List (Event Id Item F)}
    (hcalm : ∀ e ∈ events, e.Faultless fileBacked) (hO : ∀ e ∈ events, e.Within O)
    {s : SegmentedStore Id Item Seg F} {im : Image Id Seg} (hs : Sane fileBacked O s im)
    {issued : List (Op Id Item)} (hI : I issued (s.ledger im))
    (hA : Proc.Heeds st A (.running s) events) (acked : List (Op Id Item × Bool)) :
    ∃ t im', Proc.run st (.running s) acked events =
        (.running t, acked ++ flagged true (events.flatMap Event.ops)) ∧
      Sane fileBacked O t im' ∧ I (issued ++ events.flatMap Event.ops) (t.ledger im') := by
  induction events generalizing s im issued acked with
  | nil => exact ⟨s, im, by simp [Proc.run], hs, by simpa using hI⟩
  | cons e events ih =>
      obtain ⟨t, im', hstep, ht, hI'⟩ := h.step_event hs hI (hcalm e List.mem_cons_self)
        (hO e List.mem_cons_self) hA.1
      have hA' := hA.2
      rw [hstep] at hA'
      obtain ⟨u, im'', hrun, hu, hI''⟩ := ih (fun e' he' => hcalm e' (List.mem_cons_of_mem _ he'))
        (fun e' he' => hO e' (List.mem_cons_of_mem _ he')) ht hI' hA'
        (acked ++ flagged true e.ops)
      refine ⟨u, im'', ?_, hu, by simpa using hI''⟩
      rw [Proc.run, hstep, hrun, List.flatMap_cons, flagged_append, List.append_assoc]

/-- A run that begins with opening a directory. -/
theorem run_opened (h : Lasting st A O I) {d : Directory Id Item Seg}
    {l : Ledger Id Item Seg} (hcoh : d.Coherent l.image) (hback : d.fileBacked = fileBacked)
    (hlog : Directory.logOf d.files (walPath l.image.epoch) = l.log) (hsynced : l.Synced)
    (hI : I [] l) {opts : Options F} {keep : Nat} {events : List (Event Id Item F)}
    (hcalm : ∀ e ∈ Event.reopen opts keep [] :: events, e.Faultless fileBacked)
    (hO : ∀ e ∈ Event.reopen opts keep [] :: events, e.Within O)
    (hA : Proc.Heeds st A (.closed d) (.reopen opts keep [] :: events)) :
    ∃ t im, Proc.run st (.closed d) [] (.reopen opts keep [] :: events) =
        (.running t, flagged true (events.flatMap Event.ops)) ∧
      Sane fileBacked O t im ∧ I (events.flatMap Event.ops) (t.ledger im) := by
  obtain ⟨boot, hboot, hnext⟩ := h.reopen (hO _ List.mem_cons_self) hI
  obtain ⟨s, hstep, hs, hledger⟩ := start st (.closed d) hcoh hback (by rwa [Proc.dir, hlog])
    opts keep (hcalm _ List.mem_cons_self) (hO _ List.mem_cons_self) hboot
  rw [Proc.dir, hlog] at hledger
  have hA' := hA.2
  rw [hstep] at hA'
  rw [Proc.run, hstep]
  exact h.run (fun e he => hcalm e (List.mem_cons_of_mem _ he))
    (fun e he => hO e (List.mem_cons_of_mem _ he)) hs (hledger ▸ hnext) hA' []

end Lasting

end Segstore
