import Segstore.System.Identity
import Segstore.System.LiveMap
import Segstore.Writer.Caps
import Segstore.Writer.Loops

/-!
# Where long segments come from

With fixed options, a segment of a default store that is longer than the options
allow has been made by a full compaction, a `force_merge_to` or a
`reclaim_tombstones`.  All other events of a run, with any failures and stops,
make no such segment and leave those that are there alone.
-/

namespace Segstore

variable {Id Item Seg F : Type}

/-! ## Segments of a process -/

/-- The manifest names the segment, and its file holds it. -/
def Recorded (files : Files Id Item Seg) (p : Nat × Seg) : Prop :=
  ∃ im, Shows files im ∧ p ∈ im.sealed

theorem Directory.Coherent.recorded_iff {d : Directory Id Item Seg} {im : Image Id Seg}
    (h : d.Coherent im) {p : Nat × Seg} : Recorded d.files p ↔ p ∈ im.sealed := by
  constructor
  · rintro ⟨im', hshows, hp⟩
    rwa [h.shows.unique hshows]
  · exact fun hp => ⟨im, h.shows, hp⟩

/-- The segment is in memory or committed. -/
def Proc.Has : Proc Id Item Seg F → Nat × Seg → Prop
  | .closed d, p => Recorded d.files p
  | .running s, p => p ∈ s.sealed ∨ Recorded s.dir.files p

theorem Proc.has_of_sealed {q : Proc Id Item Seg F} {s : SegmentedStore Id Item Seg F}
    (hs : q = .running s) {p : Nat × Seg} (hp : p ∈ s.sealed) : q.Has p :=
  hs ▸ .inl hp

/-- The event is a call that merges without regard to the size cap. -/
def Event.Consolidates : Event Id Item F → Prop
  | .call cmd _ => cmd.Consolidates
  | .reopen _ _ _ => False

variable [DecidableEq Id]

/-- The next id of the image does not decrease. -/
theorem Ledger.next_closed (st : Store Id Item Seg) (n : Nat) :
    Ledger.Closed st (fun l : Ledger Id Item Seg => l.contents.Shape ∧
      n ≤ l.image.nextSegId ∧ l.image.nextSegId ≤ l.contents.nextSegId) where
  move := by
    rintro l l' ⟨hshape, hn, hle⟩ hmove
    cases hmove with
    | flush => exact ⟨hshape.flushBuffer st, hn, hle.trans (Contents.Grows.flushBuffer st hshape).1⟩
    | alloc => exact ⟨hshape.allocId, hn, hle.trans (Nat.le_succ _)⟩
    | merge indices hpos =>
        exact ⟨hshape.merge st indices, hn, hle.trans (Contents.Grows.merge st hshape indices).1⟩
    | compacted hbuffer =>
        exact ⟨hshape.compacted st, hn, hle.trans (Contents.Grows.compacted st hshape).1⟩
    | prune => exact ⟨hshape.retainSuperseded, hn, hle⟩
    | sync => exact ⟨hshape, hn, hle⟩
    | commit hbuffer => exact ⟨hshape, hn.trans hle, Nat.le_refl _⟩
    | publish => exact ⟨hshape, hn, hle⟩
  append := fun _ h => h
  apply := by
    rintro l op ⟨hshape, hn, hle⟩
    exact ⟨hshape.apply op, hn, hle.trans (Contents.Grows.apply op).1⟩

variable [F64 F]

/-- The writer has the options of its open. -/
theorem Proc.step_reopen_opts (st : Store Id Item Seg) {p : Proc Id Item Seg F}
    {im : Image Id Seg} (hcoh : p.dir.Coherent im) {opts : Options F} {keep : Nat}
    {fates : List (Call → Fate)} {s : SegmentedStore Id Item Seg F}
    (hopen : (Proc.step st p (.reopen opts keep fates)).1 = .running s) : s.opts = opts := by
  obtain ⟨-, -, -, -, hok⟩ := reopen_ends st (hcoh.settle keep fates) opts
  rw [Proc.step_reopen] at hopen
  generalize openWithOptions st opts (p.dir.settle keep fates) = q at hopen hok
  obtain ⟨r, d⟩ := q
  cases r with
  | ok s' =>
      cases hopen
      obtain ⟨boot, -, hs⟩ := hok _ rfl
      rw [hs]
      rfl
  | err e => cases hopen
  | crash => cases hopen

/-! ## One event -/

/-- What an event does to segments of more than `cap` entries: it makes none; a
call leaves those in memory as they are, wherever it ends, and does not give up
their commit; and an open loads exactly those that are committed. -/
structure KeepsLong (cap : Nat) (q : Proc Id Item (List (Id × Item)) F) (e : Event Id Item F) :
    Prop where
  none_new : ∀ p, cap < p.2.length → (Proc.step (defaultStore Id Item) q e).1.Has p → q.Has p
  memory : ∀ s cmd fates, q = .running s → e = .call cmd fates → ∀ p, cap < p.2.length →
    (p ∈ (cmd.exec (defaultStore Id Item) (Proc.armed s fates)).2.sealed ↔ p ∈ s.sealed)
  recorded : ∀ s cmd fates, q = .running s → e = .call cmd fates → ∀ p, cap < p.2.length →
    p ∈ s.sealed → Recorded s.dir.files p →
      Recorded (Proc.step (defaultStore Id Item) q e).1.dir.files p
  reopened : ∀ opts keep fates, e = .reopen opts keep fates → ∀ p,
    (Recorded (Proc.step (defaultStore Id Item) q e).1.dir.files p ↔
      Recorded q.dir.files p) ∧
    ∀ t, (Proc.step (defaultStore Id Item) q e).1 = .running t → cap < p.2.length →
      (p ∈ t.sealed ↔ Recorded q.dir.files p)

/-- A process with the given options, in agreement with its directory. -/
abbrev Proc.Fits (fileBacked : Bool) (opts : Options F) (issued : List (Op Id Item × Bool))
    (q : Proc Id Item (List (Id × Item)) F) : Prop :=
  q.Agrees fileBacked (fun _ _ => True) (fun _ _ _ => True) issued ∧
    ∀ s, q = .running s → s.opts = opts

variable {fileBacked : Bool} {opts : Options F} {issued : List (Op Id Item × Bool)}
variable {q : Proc Id Item (List (Id × Item)) F}

theorem KeepsLong.call {s : SegmentedStore Id Item (List (Id × Item)) F}
    (hq : (Proc.running s).Fits fileBacked opts issued) {cmd : Cmd Id Item F}
    (hcmd : ¬ cmd.Consolidates) (fates : List (Call → Fate)) :
    KeepsLong opts.cap (.running s) (.call cmd fates) := by
  obtain ⟨⟨-, im, hframed, hcur, hb, -⟩, hopts⟩ := hq
  obtain ⟨harmed, -⟩ := Resilient.armed_framed hframed fates
  have hshort : s.buffer.length ≤ opts.cap := by
    rw [Bounded, hopts s rfl] at hb
    rw [Options.cap]
    omega
  have hcapped : Capped opts (· ∈ s.sealed) (· ∈ im.sealed) (Proc.armed s fates) im :=
    ⟨harmed, hopts s rfl, hshort, fun _ _ => Iff.rfl, fun _ hp _ => .inr hp⟩
  obtain ⟨im', ht, -⟩ := exec_capped hcapped hcur hb hcmd
  obtain ⟨im'', ht'', -, -, -, hissued, -⟩ :=
    Resilient.armed_exec_ends (defaultStore Id Item) hframed hcur hb cmd fates
  obtain rfl := ht.framed.disk.shows.unique ht''.disk.shows
  obtain ⟨-, hnext, -⟩ := (Ledger.next_closed (defaultStore Id Item) im.nextSegId).issued
    ⟨hframed.shape, Nat.le_refl _, hframed.next_le⟩ hissued
  have hdir : (Proc.step (defaultStore Id Item) (.running s) (.call cmd fates)).1.dir =
      (cmd.exec (defaultStore Id Item) (Proc.armed s fates)).2.dir := by
    simp only [Proc.step]
    generalize (cmd.exec (defaultStore Id Item) (Proc.armed s fates)).1 = r
    cases r <;> rfl
  refine ⟨fun p hlong hp => ?_, ?_, ?_, ?_⟩
  · have hrecorded : Recorded (cmd.exec (defaultStore Id Item) (Proc.armed s fates)).2.dir.files
        p → (Proc.running s).Has p := fun hp =>
      (ht.image p (ht.framed.disk.recorded_iff.mp hp) hlong).imp_right
        hframed.disk.recorded_iff.mpr
    simp only [Proc.step] at hp
    generalize (cmd.exec (defaultStore Id Item) (Proc.armed s fates)).1 = r at hp
    cases r with
    | crash => exact hrecorded hp
    | ok u => exact hp.elim (fun hp => .inl ((ht.memory p hlong).mp hp)) hrecorded
    | err e => exact hp.elim (fun hp => .inl ((ht.memory p hlong).mp hp)) hrecorded
  · rintro _ _ _ ⟨⟩ ⟨⟩ p hlong
    exact ht.memory p hlong
  · rintro _ _ _ ⟨⟩ ⟨⟩ p hlong hp hcom
    rw [hdir, ht.framed.disk.recorded_iff]
    have hlt := hframed.disk.numbered.below p.1
      (List.of_mem_zip (hframed.disk.recorded_iff.mp hcom)).1
    exact ht.framed.committed p ((ht.memory p hlong).mpr hp) (hlt.trans_le hnext)
  · rintro _ _ _ ⟨⟩

theorem KeepsLong.reopen (hq : q.Fits fileBacked opts issued) (keep : Nat)
    (fates : List (Call → Fate)) :
    KeepsLong opts.cap q (.reopen opts keep fates) := by
  obtain ⟨-, im, hcoh, -⟩ := (resilient_frame (defaultStore Id Item)).drop hq.1
  obtain ⟨hd, -, -, hok⟩ :=
    Proc.step_reopen_ends (defaultStore Id Item) q hcoh opts keep fates
  have hloaded : ∀ t, (Proc.step (defaultStore Id Item) q (.reopen opts keep fates)).1 =
      .running t → ∀ p, opts.cap < p.2.length → (p ∈ t.sealed ↔ p ∈ im.sealed) := by
    intro t ht p hlong
    obtain ⟨-, -, -, boot, hboot, hledger⟩ := hok t ht
    obtain ⟨hids, hsegs, -, -, hbuffer, -⟩ := boot_sealed (defaultStore Id Item) hboot
    have hsealed : boot.sealed = im.sealed := by rw [PubState.sealed, Image.sealed, hids, hsegs]
    have hmem := congrArg Ledger.contents hledger
    have hcap : max opts.flushThreshold 1 ≤ opts.cap := by
      rw [Options.cap]
      omega
    have hwithin := Contents.Within.replay opts.cap hcap
      ((Directory.logOf q.dir.files (walPath im.epoch)).settled keep).records
      (boot_shape (defaultStore Id Item) hcoh.shows hcoh.numbered hboot)
      (by rw [hbuffer, List.length_nil]; omega)
    rw [← hsealed, show t.sealed = _ from congrArg (fun c => c.sealed) hmem]
    exact ⟨fun hp => (hwithin.created p hp).resolve_right (Nat.not_le_of_lt hlong),
      fun hp => hwithin.kept p hp hlong⟩
  have hhas : q.Has = fun p => (∃ s, q = .running s ∧ p ∈ s.sealed) ∨ Recorded q.dir.files p := by
    funext p
    cases q <;> simp [Proc.Has, Proc.dir]
  refine ⟨fun p hlong hp => ?_, ?_, ?_, ?_⟩
  · rw [hhas]
    refine .inr (hcoh.recorded_iff.mpr ?_)
    generalize (Proc.step (defaultStore Id Item) q (.reopen opts keep fates)).1 = q' at *
    cases q' with
    | closed d => exact hd.recorded_iff.mp hp
    | running t =>
        exact hp.elim (hloaded t rfl p hlong).mp hd.recorded_iff.mp
  · rintro _ _ _ - ⟨⟩
  · rintro _ _ _ - ⟨⟩
  · rintro _ _ _ ⟨⟩ p
    refine ⟨hd.recorded_iff.trans hcoh.recorded_iff.symm, fun t ht hlong => ?_⟩
    exact (hloaded t ht p hlong).trans hcoh.recorded_iff.symm

/-! ## Runs -/

/-- Every run with fixed options fits them. -/
theorem fits_run (fileBacked : Bool) {opts : Options F} {events : List (Event Id Item F)}
    (hopts : ∀ opts' keep fates, Event.reopen opts' keep fates ∈ events → opts' = opts) :
    (Proc.run (defaultStore Id Item) (.fresh fileBacked) [] events).1.Fits fileBacked opts
      (Proc.run (defaultStore Id Item) (.fresh fileBacked) [] events).2 := by
  have hframe := resilient_frame (defaultStore Id Item)
  refine Proc.run_induction (defaultStore Id Item)
    (I := fun issued q => q.Fits fileBacked opts issued)
    (C := fun e => ∀ opts' keep fates, e = .reopen opts' keep fates → opts' = opts)
    (fun issued q e he hq => ⟨hframe.step hq.1 e, fun s hs => ?_⟩)
    (fun e he _ _ _ heq => hopts _ _ _ (heq ▸ he))
    ⟨⟨rfl, emptyImage, coherent_empty fileBacked, trivial⟩, fun s hs => by cases hs⟩
  cases e with
  | reopen opts' keep fates =>
      obtain ⟨-, im, hcoh, -⟩ := hframe.drop hq.1
      rw [Proc.step_reopen_opts _ hcoh hs, he _ _ _ rfl]
  | call cmd fates =>
      cases q with
      | closed d => cases hs
      | running s₀ =>
          have hkeeps := (SegmentedStore.partwise_keepsOpts (defaultStore Id Item)).exec cmd
            (Proc.armed s₀ fates)
          have ht : (cmd.exec (defaultStore Id Item) (Proc.armed s₀ fates)).2 = s := by
            simp only [Proc.step] at hs
            generalize (cmd.exec (defaultStore Id Item) (Proc.armed s₀ fates)).1 = r at hs
            cases r with
            | crash => cases hs
            | ok u => exact Proc.running.inj hs
            | err e => exact Proc.running.inj hs
          rw [← ht]
          exact Eq.trans hkeeps (hq.2 s₀ rfl)

/-- Each event but the consolidating calls spares the long segments. -/
theorem KeepsLong.event (hq : q.Fits fileBacked opts issued) {e : Event Id Item F}
    (hopts : ∀ opts' keep fates, e = .reopen opts' keep fates → opts' = opts)
    (he : ¬ e.Consolidates) : KeepsLong opts.cap q e := by
  cases e with
  | reopen opts' keep fates =>
      obtain rfl := hopts _ _ _ rfl
      exact .reopen hq keep fates
  | call cmd fates =>
      cases q with
      | running s => exact .call hq he fates
      | closed d =>
          exact ⟨fun _ _ hp => hp, fun _ _ _ h => (by cases h), fun _ _ _ h => (by cases h),
            fun _ _ _ h => (by cases h)⟩

/-- In every run with fixed options, with any failures and stops: an event that is
no consolidating call makes no segment beyond the cap and keeps those that are
there.  So a segment beyond the cap comes from a consolidating call. -/
theorem long_segments_consolidated (fileBacked : Bool) (opts : Options F)
    (events : List (Event Id Item F))
    (hopts : ∀ opts' keep fates, Event.reopen opts' keep fates ∈ events → opts' = opts) :
    (∀ before e after, events = before ++ e :: after → ¬ e.Consolidates → KeepsLong
      (max (max opts.tiering.maxMergedLen opts.flushThreshold) 1)
      (Proc.run (defaultStore Id Item) (.fresh fileBacked) [] before).1 e) ∧
    ∀ p, max (max opts.tiering.maxMergedLen opts.flushThreshold) 1 < p.2.length →
      (Proc.run (defaultStore Id Item) (.fresh fileBacked) [] events).1.Has p →
        ∃ before cmd fates after, events = before ++ .call cmd fates :: after ∧
          cmd.Consolidates ∧
          ¬ (Proc.run (defaultStore Id Item) (.fresh fileBacked) [] before).1.Has p ∧
          (Proc.run (defaultStore Id Item) (.fresh fileBacked) []
            (before ++ [.call cmd fates])).1.Has p := by
  have hkeeps : ∀ before e after, events = before ++ e :: after → ¬ e.Consolidates →
      KeepsLong opts.cap
        (Proc.run (defaultStore Id Item) (.fresh fileBacked) [] before).1 e := by
    rintro before e after rfl he
    have hfits := fits_run fileBacked fun opts' keep fates h =>
      hopts opts' keep fates (List.mem_append_left _ h)
    refine .event hfits (fun opts' keep fates heq => ?_) he
    exact hopts opts' keep fates (List.mem_append_right _ (heq ▸ List.mem_cons_self))
  refine ⟨hkeeps, fun p hlong => ?_⟩
  clear hopts
  induction events using List.reverseRecOn with
  | nil =>
      intro hp
      have hcoh : (Directory.empty fileBacked : Directory Id Item (List (Id × Item))).Coherent
          emptyImage := coherent_empty fileBacked
      exact absurd (hcoh.recorded_iff.mp hp) List.not_mem_nil
  | append_singleton events e ih =>
      intro hp
      have hrun : (Proc.run (defaultStore Id Item) (.fresh fileBacked) [] (events ++ [e])).1 =
          (Proc.step (defaultStore Id Item)
            (Proc.run (defaultStore Id Item) (.fresh fileBacked) [] events).1 e).1 := by
        rw [Proc.run_append]
        rfl
      by_cases hbefore :
          (Proc.run (defaultStore Id Item) (.fresh fileBacked) [] events).1.Has p
      · obtain ⟨before, cmd, fates, after, heq, hcmd⟩ := ih (fun before e' after heq =>
          hkeeps before e' (after ++ [e]) (by rw [heq, List.append_assoc]; rfl)) hbefore
        exact ⟨before, cmd, fates, after ++ [e], by rw [heq, List.append_assoc]; rfl, hcmd⟩
      · -- the last event has made the segment, so it is a consolidating call
        have he : e.Consolidates := by
          by_contra he
          rw [hrun] at hp
          exact hbefore ((hkeeps events e [] rfl he).none_new p hlong hp)
        cases e with
        | reopen opts' keep fates => exact he.elim
        | call cmd fates => exact ⟨events, cmd, fates, [], rfl, he, hbefore, hp⟩

/-- A cap of one item: the full compaction has made the segment of two that a
later write and checkpoint keep. -/
theorem long_segments_consolidated_pair :
    ∃ events : List (Event Nat Nat Rat), ∃ p : Nat × List (Nat × Nat), p.2.length = 2 ∧
      (Proc.run (defaultStore Nat Nat) (.fresh false) [] events).1.Has p ∧
      ∃ before cmd fates after, events = before ++ .call cmd fates :: after ∧
        cmd.Consolidates ∧
        ¬ (Proc.run (defaultStore Nat Nat) (.fresh false) [] before).1.Has p ∧
        (Proc.run (defaultStore Nat Nat) (.fresh false) []
          (before ++ [.call cmd fates])).1.Has p := by
  obtain ⟨s, hs, hmem⟩ := Proc.holds_iff.mp
    (show (Proc.run (defaultStore Nat Nat) (.fresh false) []
      [.reopen ⟨1, .flush, ⟨4, 32, (1 / 2 : Rat), 3 / 2, 0⟩, false⟩ 0 [],
        .call (.extend [(0, 5), (1, 6)]) [], .call .compact [], .call (.add 2 7) [],
        .call .checkpoint []]).1.holds
          (fun s => decide (((2, [(0, 5), (1, 6)]) : Nat × List (Nat × Nat)) ∈ s.sealed)) =
            true by decide +kernel)
  have hhas : Proc.Has _ (2, [(0, 5), (1, 6)]) := Proc.has_of_sealed hs (of_decide_eq_true hmem)
  refine ⟨_, (2, [(0, 5), (1, 6)]), rfl, hhas, ?_⟩
  refine (long_segments_consolidated false ⟨1, .flush, ⟨4, 32, 1 / 2, 3 / 2, 0⟩, false⟩ _
    ?_).2 (2, [(0, 5), (1, 6)]) (by decide) ?_
  · intro opts keep fates h
    simp only [List.mem_cons, Event.reopen.injEq, reduceCtorEq, List.not_mem_nil, or_false] at h
    exact h.1
  · assumption

end Segstore
