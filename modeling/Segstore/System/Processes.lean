import Segstore.Model.Processes
import Segstore.System.Hosted
import Segstore.System.LiveMap

/-!
# Openers that share a directory

The advisory lock admits one writer at a time.  So whatever any number of
openers do, in any order, the directory and its writer are those of one process
after another, and what holds of the runs of one process holds here.
-/

namespace Segstore

variable {Id Item Seg F : Type}

/-! ## Changes that a writer does not notice -/

/-- Only the lock file and foreign files differ. -/
def Aside (f f' : Files Id Item Seg) : Prop :=
  ∀ name, ¬ Foreign name → name ≠ LOCK_PATH → f'.lookup name = f.lookup name

theorem SameOwn.aside {f f' : Files Id Item Seg} (h : SameOwn f f') : Aside f f' :=
  fun name hname _ => h name hname

theorem Aside.segPath {f f' : Files Id Item Seg} (h : Aside f f') (k : Nat) :
    f'.lookup (segPath k) = f.lookup (segPath k) :=
  h _ (not_foreign_segPath k) (ne_of_familyOf (by simp))

theorem Aside.harmless {f f' : Files Id Item Seg} (h : Aside f f') (im : Image Id Seg) :
    Directory.Coherent.Harmless im f f' where
  manifest := h _ (not_foreign (by decide) (by simp)) (by decide)
  named := fun k _ => h.segPath k
  file := fun k _ => .inl (h.segPath k)
  wal := h _ (not_foreign_walPath _) (ne_of_familyOf (by simp))
  later := fun k _ => .inl (h _ (not_foreign_walPath k) (ne_of_familyOf (by simp)))
  legacyWal := h _ (not_foreign (by decide) (by simp)) (by decide)
  legacyCkpt := .inl (h _ (not_foreign (by decide) (by simp)) (by decide))

/-- The directory after such a change. -/
structure Passed (d d' : Directory Id Item Seg) : Prop where
  aside : Aside d.files d'.files
  past : d'.past = d.files :: d.past
  fileBacked : d'.fileBacked = d.fileBacked

section Passed

variable {d d' : Directory Id Item Seg} {im : Image Id Seg}

theorem Passed.coherent (h : Passed d d') (hd : d.Coherent im) : d'.Coherent im :=
  (hd.harmless (h.aside.harmless im)).congr rfl h.past

theorem Passed.logOf (h : Passed d d') (im : Image Id Seg) :
    Directory.logOf d'.files (walPath im.epoch) = Directory.logOf d.files (walPath im.epoch) :=
  (h.aside.harmless im).logOf_eq

theorem Passed.framed {s : SegmentedStore Id Item Seg F} (h : Passed s.dir d')
    (hs : Framed s im) : Framed { s with dir := d' } im where
  disk := h.coherent hs.disk
  shape := hs.shape
  next_le := hs.next_le
  committed := hs.committed
  file := fun p hp hpers => (segFile_congr (h.aside.segPath p.1)).trans (hs.file p hp hpers)
  named := hs.named
  persisted_lt := hs.persisted_lt
  wal := hs.wal

variable [DecidableEq Id]
variable {R : List (Op Id Item × Bool) → Ledger Id Item Seg → Prop}
variable {D : List (Op Id Item × Bool) → Image Id Seg → RecordLog Id Item → Prop}
variable {issued : List (Op Id Item × Bool)} {fileBacked : Bool}

omit [DecidableEq Id] in
theorem Passed.closed (h : Passed d d')
    (hp : (Proc.closed d : Proc Id Item Seg F).Agrees fileBacked R D issued) :
    (Proc.closed d' : Proc Id Item Seg F).Agrees fileBacked R D issued := by
  obtain ⟨hback, im, hcoh, hD⟩ := hp
  exact ⟨h.fileBacked.trans hback, im, h.coherent hcoh, h.logOf im ▸ hD⟩

omit [DecidableEq Id] in
theorem Passed.running {s : SegmentedStore Id Item Seg F} (h : Passed d d')
    (hp : (Proc.running { s with dir := d }).Agrees fileBacked R D issued) :
    (Proc.running { s with dir := d' }).Agrees fileBacked R D issued := by
  obtain ⟨hback, im, hframed, hcur, hb, hR⟩ := hp
  refine ⟨h.fileBacked.trans hback, im,
    Passed.framed (s := { s with dir := d }) h hframed, hcur, hb, ?_⟩
  rw [SegmentedStore.ledger] at hR ⊢
  rw [show Directory.logOf d'.files _ = _ from h.logOf im]
  exact hR

end Passed

/-! ## The two halves of an open -/

theorem openChecks_dir (opts : Options F) (d : Directory Id Item Seg) :
    (openChecks opts d).2 = d := by
  have hrun : Ends (openChecks opts) d (fun _ d' => d' = d) := by
    rw [openChecks, Ends.read_bind_iff]
    split
    · rfl
    · rw [Directory.rejectLegacyFormats, Ends.get_bind_iff]
      split
      · rfl
      · split
        · rfl
        · rfl
  exact hrun

/-- A store of the present format passes the checks. -/
theorem openChecks_ok (opts : Options F) {d : Directory Id Item Seg} {im : Image Id Seg}
    (hd : d.Coherent im) (hback : d.fileBacked = true) : openChecks opts d = (.ok (), d) := by
  have hexists : ∀ name, d.exists name = (d.files.lookup name).isSome := fun _ => rfl
  refine Prod.ext ?_ (openChecks_dir opts d)
  have hrun : Ends (openChecks opts) d (fun r _ => r = .ok ()) := by
    rw [openChecks, Ends.read_bind_iff, hback, Bool.not_true, Bool.and_false,
      if_neg Bool.false_ne_true, Directory.rejectLegacyFormats, Ends.get_bind_iff, hexists,
      hexists, hexists, hd.noLegacyWal, Option.isSome_none, if_neg Bool.false_ne_true, if_neg]
    · rfl
    · rcases hd.noLegacyCkpt with hman | hckpt
      · rw [Option.isSome_iff_ne_none.mpr hman]
        simp
      · rw [hckpt]
        simp
  exact hrun

/-- After the checks the rest of an open is the whole of it. -/
theorem openLocked_eq [DecidableEq Id] (st : Store Id Item Seg) (opts : Options F)
    {d : Directory Id Item Seg} {im : Image Id Seg} (hd : d.Coherent im)
    (hback : d.fileBacked = true) : openLocked st opts d = openWithOptions st opts d := by
  rw [openWithOptions, Eff.bind_of_ok (openChecks_ok opts hd hback)]

/-- Who finds the lock taken is refused, and has touched the lock file at most. -/
theorem openLocked_contended [DecidableEq Id] (st : Store Id Item Seg) (opts : Options F)
    {d : Directory Id Item Seg} (hback : d.fileBacked = true) :
    Ends (openLocked st opts) { d with fates := [contended] } (fun r d' =>
      r = .err (.lockFailed LOCK_PATH "another SegmentedStore holds this directory") ∧
      Passed d d') := by
  have hlock : Ends Directory.acquireStoreLock { d with fates := [contended] } (fun r d' =>
      r = .err (.lockFailed LOCK_PATH "another SegmentedStore holds this directory") ∧
      Passed d d') := by
    rw [Directory.acquireStoreLock, Ends.read_bind_iff, if_pos hback]
    refine ⟨rfl, fun name _ hname => ?_, rfl, rfl⟩
    show (if (d.files.lookup LOCK_PATH).isSome then d.files
      else d.files.insert LOCK_PATH (.raw [])).lookup name = _
    split
    · rfl
    · rw [FinMap.lookup_insert_eq, if_neg hname]
  rw [openLocked]
  refine Ends.bind hlock ?_ ?_ ?_
  · rintro a d' ⟨hr, -⟩
    cases hr
  · rintro e d' ⟨hr, hpassed⟩
    cases hr
    exact ⟨rfl, hpassed⟩
  · rintro d' ⟨hr, -⟩
    cases hr

/-! ## One writer at a time -/

/-- Others write and remove only files of their own. -/
def Turn.Allowed : Turn Id Item Seg F → Prop
  | .write name _ => Foreign name
  | .remove name => Foreign name
  | _ => True

namespace World

/-- The process that the holder of the lock is. -/
def proc (w : World Id Item Seg F) : Proc Id Item Seg F :=
  match w.holder with
  | none => .closed w.dir
  | some i =>
      match w.openers i with
      | .running s => .running { s with dir := w.dir }
      | _ => .closed w.dir

/-- Only the holder of the lock has a writer, the lock is never held without one,
and the holder agrees with the directory. -/
structure Ordered (R : List (Op Id Item × Bool) → Ledger Id Item Seg → Prop)
    (D : List (Op Id Item × Bool) → Image Id Seg → RecordLog Id Item → Prop)
    (issued : List (Op Id Item × Bool)) (w : World Id Item Seg F) : Prop where
  exclusive : ∀ i s, w.openers i = .running s → w.holder = some i
  held : ∀ i, w.holder = some i → ∃ s, w.openers i = .running s
  agrees : w.proc.Agrees true R D issued

theorem proc_of_free {w : World Id Item Seg F} (h : w.holder = none) : w.proc = .closed w.dir := by
  rw [proc, h]

theorem proc_of_running {w : World Id Item Seg F} {i : Nat} {s : SegmentedStore Id Item Seg F}
    (h : w.holder = some i) (hi : w.openers i = .running s) :
    w.proc = .running { s with dir := w.dir } := by
  simp only [proc, h, hi]

theorem proc_dir (w : World Id Item Seg F) : w.proc.dir = w.dir := by
  rw [proc]
  split
  · rfl
  · split <;> rfl

variable {R : List (Op Id Item × Bool) → Ledger Id Item Seg → Prop}
variable {D : List (Op Id Item × Bool) → Image Id Seg → RecordLog Id Item → Prop}
variable {issued : List (Op Id Item × Bool)} {w : World Id Item Seg F}

theorem Ordered.coherent (h : w.Ordered R D issued) :
    w.dir.fileBacked = true ∧ ∃ im, w.dir.Coherent im := by
  have hagrees := h.agrees
  rw [← proc_dir w]
  generalize w.proc = p at hagrees
  cases p with
  | closed d =>
      obtain ⟨hback, im, hcoh, -⟩ := hagrees
      exact ⟨hback, im, hcoh⟩
  | running s =>
      obtain ⟨hback, im, hframed, -⟩ := hagrees
      exact ⟨hback, im, hframed.disk⟩

/-- Nothing that concerns the writer happens. -/
theorem Ordered.passed (h : w.Ordered R D issued) {dir : Directory Id Item Seg}
    {openers : Nat → Opener Id Item Seg F} (hdir : dir = w.dir ∨ Passed w.dir dir)
    (hrunning : ∀ i s, openers i = .running s ↔ w.openers i = .running s) :
    World.Ordered R D issued { dir := dir, holder := w.holder, openers := openers } := by
  refine ⟨fun i s hi => h.exclusive i s ((hrunning i s).mp hi), fun i hi => ?_, ?_⟩
  · obtain ⟨s, hs⟩ := h.held i hi
    exact ⟨s, (hrunning i s).mpr hs⟩
  · have hagrees := h.agrees
    cases hholder : w.holder with
    | none =>
        rw [proc_of_free hholder] at hagrees
        rw [proc_of_free rfl]
        rcases hdir with rfl | hdir
        · exact hagrees
        · exact hdir.closed hagrees
    | some i =>
        obtain ⟨s, hs⟩ := h.held i hholder
        rw [proc_of_running hholder hs] at hagrees
        rw [proc_of_running rfl ((hrunning i s).mpr hs)]
        rcases hdir with rfl | hdir
        · exact hagrees
        · exact hdir.running hagrees

/-- An opener without a writer changes its mind. -/
theorem update_running {openers : Nat → Opener Id Item Seg F} {i : Nat}
    {x : Opener Id Item Seg F} (hi : ∀ s, openers i ≠ .running s) (hx : ∀ s, x ≠ .running s)
    (j : Nat) (s : SegmentedStore Id Item Seg F) :
    Function.update openers i x j = .running s ↔ openers j = .running s := by
  by_cases hj : j = i
  · rw [hj, Function.update_self]
    exact iff_of_false (hx s) (hi s)
  · rw [Function.update_of_ne hj]

/-- Nobody holds the lock, and the directory has changed. -/
theorem Ordered.free (h : w.Ordered R D issued) (hfree : w.holder = none)
    (dir : Directory Id Item Seg) {openers : Nat → Opener Id Item Seg F}
    (hrunning : ∀ i s, openers i = .running s ↔ w.openers i = .running s)
    (hdir : (Proc.closed dir : Proc Id Item Seg F).Agrees true R D issued) :
    World.Ordered R D issued { dir := dir, holder := none, openers := openers } := by
  refine ⟨fun i s hi => ?_, fun i hi => ?_, ?_⟩
  · cases hfree.symm.trans (h.exclusive i s ((hrunning i s).mp hi))
  · cases hi
  · rw [proc_of_free rfl]
    exact hdir

/-- Someone has opened the store. -/
theorem Ordered.opened {i : Nat} {s : SegmentedStore Id Item Seg F} (h : w.Ordered R D issued)
    (hfree : w.holder = none) (hs : (Proc.running s).Agrees true R D issued) :
    World.Ordered R D issued {
      dir := s.dir
      holder := some i
      openers := Function.update w.openers i (.running s) } := by
  refine ⟨fun j t hj => ?_, fun j hj => ?_, ?_⟩
  · change Function.update w.openers i (.running s) j = .running t at hj
    by_cases hji : j = i
    · rw [hji]
    · rw [Function.update_of_ne hji] at hj
      cases hfree.symm.trans (h.exclusive j t hj)
  · cases hj
    exact ⟨s, Function.update_self _ _ _⟩
  · rw [proc_of_running rfl (Function.update_self _ _ _)]
    exact hs

/-- A call of the holder. -/
theorem Ordered.called {i : Nat} {s t : SegmentedStore Id Item Seg F}
    (h : w.Ordered R D issued) (hi : w.openers i = .running s)
    {issued' : List (Op Id Item × Bool)} (ht : (Proc.running t).Agrees true R D issued') :
    World.Ordered R D issued' {
      dir := t.dir
      holder := w.holder
      openers := Function.update w.openers i (.running t) } := by
  have hholder := h.exclusive i s hi
  refine ⟨fun j u hj => ?_, fun j hj => ?_, ?_⟩
  · change Function.update w.openers i (.running t) j = .running u at hj
    by_cases hji : j = i
    · rw [hji]
      exact hholder
    · rw [Function.update_of_ne hji] at hj
      exact h.exclusive j u hj
  · obtain rfl : i = j := Option.some_inj.mp (hholder.symm.trans hj)
    exact ⟨t, Function.update_self _ _ _⟩
  · rw [proc_of_running (w := ⟨t.dir, w.holder, _⟩) hholder (Function.update_self _ _ _)]
    exact ht

/-- The holder has no writer any more, and the lock is free. -/
theorem Ordered.stopped {i : Nat} (h : w.Ordered R D issued) (hi : w.holder = some i)
    {dir : Directory Id Item Seg} {issued' : List (Op Id Item × Bool)}
    (hdir : (Proc.closed dir : Proc Id Item Seg F).Agrees true R D issued') :
    World.Ordered R D issued' {
      dir := dir
      holder := none
      openers := Function.update w.openers i .closed } := by
  refine ⟨fun j s hj => ?_, fun j hj => ?_, ?_⟩
  · change Function.update w.openers i .closed j = .running s at hj
    by_cases hji : j = i
    · rw [hji, Function.update_self] at hj
      cases hj
    · rw [Function.update_of_ne hji] at hj
      exact absurd (Option.some_inj.mp (hi.symm.trans (h.exclusive j s hj))).symm hji
  · cases hj
  · rw [proc_of_free rfl]
    exact hdir

variable [DecidableEq Id] [F64 F] {st : Store Id Item Seg}

omit [F64 F] in
/-- A writer is dropped. -/
theorem Ordered.release (hres : Resilient st R D) (h : w.Ordered R D issued) (i : Nat) :
    (w.release i).Ordered R D issued := by
  rw [World.release]
  by_cases hi : w.holder = some i
  · rw [if_pos hi]
    have hdrop := hres.drop h.agrees
    rw [proc_dir] at hdrop
    exact h.stopped hi hdrop
  · rw [if_neg hi]
    exact h.passed (.inl rfl) (update_running (fun s hs => hi (h.exclusive i s hs)) (by simp))

/-- Whoever tries the lock gets it if it is free, and is turned away otherwise. -/
theorem Ordered.acquire (hres : Resilient st R D) (h : w.Ordered R D issued) (i keep : Nat)
    (fates : List (Call → Fate)) : (w.step st (.acquire i keep fates)).1.Ordered R D issued := by
  rw [World.step]
  split
  case h_2 => exact h
  rename_i opts hi
  obtain ⟨hback, im, hcoh⟩ := h.coherent
  have hclosed : ∀ {dir : Directory Id Item Seg}, Passed w.dir dir →
      World.Ordered R D issued {
        dir := dir
        holder := w.holder
        openers := Function.update w.openers i .closed } :=
    fun hdir => h.passed (.inr hdir) (update_running (by simp [hi]) (by simp))
  rw [approach]
  cases hholder : w.holder with
  | some j =>
      rw [Option.isSome_some, if_pos rfl]
      generalize hrun : openLocked st opts { w.dir with fates := [contended] } = q
      obtain ⟨r, d⟩ := q
      obtain ⟨rfl, hpassed⟩ := (openLocked_contended st opts hback).of_run hrun
      exact hholder ▸ hclosed hpassed
  | none =>
      have hagrees := hres.reopen h.agrees opts keep fates
      rw [proc_of_free hholder, Proc.step_reopen] at hagrees
      obtain ⟨-, -, -, -, hopened⟩ := reopen_ends st (hcoh.settle keep fates) opts
      rw [Option.isSome_none, if_neg Bool.false_ne_true,
        openLocked_eq st opts (hcoh.settle keep fates) hback]
      rw [Proc.dir] at hagrees
      generalize openWithOptions st opts (w.dir.settle keep fates) = q at hagrees hopened
      obtain ⟨r, d⟩ := q
      have hfailed := h.free hholder d
        (update_running (i := i) (x := .closed) (by simp [hi]) (by simp))
      cases r with
      | ok s =>
          obtain ⟨boot, -, hs⟩ := hopened s rfl
          have hdir : s.dir = d := by
            rw [hs]
            rfl
          subst hdir
          exact h.opened hholder hagrees
      | err e => exact hfailed hagrees
      | crash => exact hfailed hagrees

/-- A call ends the writer only when it stops. -/
theorem Ordered.call (hres : Resilient st R D) (h : w.Ordered R D issued) (i : Nat)
    (cmd : Cmd Id Item F) (fates : List (Call → Fate)) :
    (w.step st (.call i cmd fates)).1.Ordered R D
      (issued ++ (w.step st (.call i cmd fates)).2) := by
  rw [World.step]
  split
  case h_2 => simpa using h
  rename_i s hi
  have hagrees := h.agrees
  rw [proc_of_running (h.exclusive i s hi) hi] at hagrees
  have hcall := hres.call hagrees cmd fates
  rw [Proc.step, Proc.armed] at hcall
  dsimp only at hcall ⊢
  generalize cmd.exec st { s with dir := { w.dir with fates := fates } } = q at hcall
  obtain ⟨r, t⟩ := q
  cases r with
  | ok u => exact h.called hi hcall
  | err e => exact h.called hi hcall
  | crash =>
      have hstop := h.stopped (h.exclusive i s hi) hcall
      rw [World.release, if_pos (h.exclusive i s hi), Function.update_idem]
      exact hstop

/-- One turn. -/
theorem Ordered.step (hres : Resilient st R D) (h : w.Ordered R D issued)
    {t : Turn Id Item Seg F} (ht : t.Allowed) :
    (w.step st t).1.Ordered R D (issued ++ (w.step st t).2) := by
  cases t with
  | check i opts =>
      rw [World.step]
      split
      case h_2 => simpa using h
      rename_i hi
      have hdir := openChecks_dir opts w.dir
      generalize openChecks opts w.dir = q at hdir
      obtain ⟨r, d⟩ := q
      obtain rfl : d = w.dir := hdir
      cases r with
      | ok u =>
          rw [List.append_nil]
          exact h.passed (.inl rfl) (update_running (by simp [hi]) (by simp))
      | err e => simpa using h
      | crash => simpa using h
  | acquire i keep fates =>
      have hnothing : (w.step st (.acquire i keep fates)).2 = [] := by
        rw [World.step]
        split
        · dsimp only
          split
          · rfl
          · rfl
        · rfl
      rw [hnothing, List.append_nil]
      exact h.acquire hres i keep fates
  | call i cmd fates => exact h.call hres i cmd fates
  | close i => simpa [World.step] using h.release hres i
  | write name file =>
      rw [World.step, List.append_nil]
      refine h.passed (.inr ⟨?_, rfl, rfl⟩) fun _ _ => Iff.rfl
      exact (SameOwn.insert w.dir.files ht file).aside
  | remove name =>
      rw [World.step, List.append_nil]
      refine h.passed (.inr ⟨?_, rfl, rfl⟩) fun _ _ => Iff.rfl
      exact (SameOwn.erase w.dir.files ht).aside

/-- Whatever the openers do, in any order. -/
theorem Ordered.run (hres : Resilient st R D) {turns : List (Turn Id Item Seg F)}
    (hturns : ∀ t ∈ turns, t.Allowed) (h : w.Ordered R D issued) :
    (w.run st issued turns).1.Ordered R D (w.run st issued turns).2 := by
  induction turns generalizing w issued with
  | nil => exact h
  | cons t turns ih =>
      exact ih (fun t' ht' => hturns t' (List.mem_cons_of_mem _ ht'))
        (h.step hres (hturns t List.mem_cons_self))

/-- A second opener gets nothing, and leaves everything to the first. -/
theorem Ordered.refused (h : w.Ordered R D issued) {i : Nat} {opts : Options F}
    (hi : w.openers i = .checked opts) (hheld : w.holder ≠ none) (keep : Nat)
    (fates : List (Call → Fate)) :
    let w' := (w.step st (.acquire i keep fates)).1
    w'.holder = w.holder ∧ w'.openers = Function.update w.openers i .closed ∧
      ∀ name, ¬ Foreign name → name ≠ LOCK_PATH →
        w'.dir.files.lookup name = w.dir.files.lookup name := by
  intro w'
  obtain ⟨hback, -⟩ := h.coherent
  have hw' : w' = (w.step st (.acquire i keep fates)).1 := rfl
  rw [World.step, hi] at hw'
  dsimp only at hw'
  rw [approach, if_pos (Option.isSome_iff_ne_none.mpr hheld)] at hw'
  generalize hrun : openLocked st opts { w.dir with fates := [contended] } = q at hw'
  obtain ⟨r, d⟩ := q
  obtain ⟨rfl, hpassed⟩ := (openLocked_contended st opts hback).of_run hrun
  rw [hw']
  exact ⟨rfl, rfl, hpassed.aside⟩

end World

/-! ## The guarantee -/

variable [DecidableEq Id] [F64 F]

omit [F64 F] in
theorem ordered_fresh : (World.fresh : World Id Item (List (Id × Item)) F).Ordered
    (fun issued l => Survives issued issued l)
    (fun issued im log => ∃ base, Recoverable issued im log base) [] := by
  refine ⟨fun i s hi => ?_, fun i hi => ?_, ?_⟩
  · cases hi
  · cases hi
  · rw [World.proc_of_free rfl]
    exact sound_fresh true

/-- An opener that gets the lock when nobody holds it, and is not disturbed, has
the survivors of all that was issued by all openers. -/
theorem World.Ordered.recovers {w : World Id Item (List (Id × Item)) F}
    {issued : List (Op Id Item × Bool)} (h : w.Ordered
      (fun issued l => Survives issued issued l)
      (fun issued im log => ∃ base, Recoverable issued im log base) issued)
    {i : Nat} {opts : Options F} (hi : w.openers i = .checked opts) (hfree : w.holder = none)
    (keep : Nat) : ∃ s survived,
      (w.step (defaultStore Id Item) (.acquire i keep [])).1.openers i = .running s ∧
        Kept issued survived ∧ Shown s.livePairs (history nothing survived) := by
  have hagrees := h.agrees
  rw [proc_of_free hfree] at hagrees
  obtain ⟨hback, im, hcoh, base, hrec⟩ := hagrees
  obtain ⟨boot, hboot, -⟩ := hrec.boots
  have hopen := open_calm (defaultStore Id Item) (hcoh.settle keep []) rfl opts
    (fun _ => hback) hboot
  rw [Directory.logOf_settle] at hopen
  obtain ⟨ops, hkept, hstores⟩ := (hrec.start hboot opts.flushThreshold keep).memory
  rw [World.step, hi]
  dsimp only
  rw [approach, hfree, Option.isSome_none, if_neg Bool.false_ne_true,
    openLocked_eq _ opts (hcoh.settle keep []) hback, hopen.2]
  exact ⟨_, ops, Function.update_self _ _ _, hkept,
    Contents.shown_livePairs hstores.tracked hstores.map⟩

/-- Any number of openers share a directory on a file system, each opening,
calling, stopping and dropping its writer at any time, under any faults.  At any moment
at most one has a writer, and the lock is held only then.  Who tries the lock
meanwhile is refused, and touches no file of the store but the lock file.  The writer shows
a subsequence of what all openers issued that contains all that was acknowledged
to any of them, and so does whoever gets the lock next. -/
theorem one_writer_at_a_time (turns : List (Turn Id Item (List (Id × Item)) F))
    (hturns : ∀ t ∈ turns, t.Allowed) :
    let w := (World.fresh.run (defaultStore Id Item) [] turns).1
    let issued := (World.fresh.run (defaultStore Id Item) [] turns).2
    (∀ i j s t, w.openers i = .running s → w.openers j = .running t → i = j) ∧
    (∀ i, w.holder = some i ↔ ∃ s, w.openers i = .running s) ∧
    (∀ i opts keep fates, w.openers i = .checked opts → w.holder ≠ none →
      let w' := (w.step (defaultStore Id Item) (.acquire i keep fates)).1
      w'.holder = w.holder ∧ w'.openers = Function.update w.openers i .closed ∧
        ∀ name, ¬ Foreign name → name ≠ LOCK_PATH →
          w'.dir.files.lookup name = w.dir.files.lookup name) ∧
    (∀ i s, w.openers i = .running s →
      ∃ survived, Kept issued survived ∧ Shown s.livePairs (history nothing survived)) ∧
    ∀ i opts keep, w.openers i = .checked opts → w.holder = none → ∃ s survived,
      (w.step (defaultStore Id Item) (.acquire i keep [])).1.openers i = .running s ∧
        Kept issued survived ∧ Shown s.livePairs (history nothing survived) := by
  intro w issued
  have h := ordered_fresh.run resilient_survives hturns
  refine ⟨fun i j s t hi hj => ?_, fun i => ⟨h.held i, fun ⟨s, hs⟩ => h.exclusive i s hs⟩,
    fun i opts keep fates hi hheld => h.refused hi hheld keep fates, fun i s hi => ?_,
    fun i opts keep hi hfree => h.recovers hi hfree keep⟩
  · exact Option.some_inj.mp ((h.exclusive i s hi).symm.trans (h.exclusive j t hj))
  · have hagrees := h.agrees
    rw [World.proc_of_running (h.exclusive i s hi) hi] at hagrees
    obtain ⟨-, im, -, -, -, hsurvives⟩ := hagrees
    obtain ⟨ops, hkept, hstores⟩ := hsurvives.memory
    exact ⟨ops, hkept, Contents.shown_livePairs hstores.tracked hstores.map⟩

/-- A second opener that is refused, and gets the store after the first. -/
theorem one_writer_at_a_time_two :
    let turns : List (Turn Nat Nat (List (Nat × Nat)) Rat) := [.check 0 (.new 1),
      .check 1 (.new 1), .acquire 0 0 [], .acquire 1 0 [], .call 0 (.add 1 5) [], .close 0,
      .check 1 (.new 1), .acquire 1 0 []]
    let q := World.fresh.run (defaultStore Nat Nat) [] turns
    ∃ s, q.1.openers 1 = .running s ∧
      ∃ survived, Kept q.2 survived ∧ Shown s.livePairs (history nothing survived) := by
  intro turns q
  have hholder : q.1.holder = some 1 := by decide +kernel
  have hsafe := one_writer_at_a_time turns (by simp [turns, Turn.Allowed])
  obtain ⟨s, hs⟩ := (hsafe.2.1 1).mp hholder
  exact ⟨s, hs, hsafe.2.2.2.1 1 s hs⟩

end Segstore
