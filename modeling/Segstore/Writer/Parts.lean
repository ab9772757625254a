import Segstore.Memory.Groups
import Segstore.Model.Run

/-!
# The parts of a call

Every call on a writer is made of the same parts: the check for poison, changes
of the memory, records appended and synced, segment files, and checkpoints.  A
property that composed calls inherit from their parts holds of every call once
it holds of these.  The two partial compactions run the same loop and differ in
the group that a round chooses.
-/

namespace Segstore

variable {Id Item Seg F : Type} [DecidableEq Id]

/-! ## The two loops are one -/

namespace SegmentedStore

variable (st : Store Id Item Seg)

/-- Rounds of merges, each of the group that `next` chooses. -/
def mergeLoop (next : Options F → Contents Id Item Seg → Option (List Nat)) :
    Nat → CompactionStats → StoreM Id Item Seg F CompactionStats
  | 0, stats => pure stats
  | fuel + 1, stats => do
      let s ← Eff.get
      match next s.opts s.toContents with
      | none => pure stats
      | some group => do
          let n ← mergeGroup st group
          mergeLoop next fuel { stats with
            itemsMerged := stats.itemsMerged + n
            merges := stats.merges + 1 }

theorem tierLoop_eq [F64 F] (fuel : Nat) (stats : CompactionStats) :
    (tierLoop st fuel stats : StoreM Id Item Seg F _) =
      mergeLoop st (fun opts c => c.nextMergeGroup st opts.tiering opts.flushThreshold)
        fuel stats := by
  induction fuel generalizing stats with
  | zero => rfl
  | succ fuel ih =>
      refine congrArg (Eff.get >>= ·) (funext fun s => ?_)
      dsimp only
      cases s.nextMergeGroup st s.opts.tiering s.opts.flushThreshold with
      | none => rfl
      | some group => exact congrArg (mergeGroup st group >>= ·) (funext fun n => ih _)

theorem forceLoop_eq (maxSegments fuel : Nat) (stats : CompactionStats) :
    (forceLoop st maxSegments fuel stats : StoreM Id Item Seg F _) =
      mergeLoop st (fun opts c => c.overshootGroup st opts.tiering maxSegments) fuel stats := by
  induction fuel generalizing stats with
  | zero => rfl
  | succ fuel ih =>
      refine congrArg (Eff.get >>= ·) (funext fun s => ?_)
      dsimp only
      rw [Contents.overshootGroup]
      split
      · exact congrArg (mergeGroup st _ >>= ·) (funext fun n => ih _)
      · rfl

/-- Rounds of merges after a seal. -/
def mergingBy (next : Options F → Contents Id Item Seg → Option (List Nat)) :
    StoreM Id Item Seg F CompactionStats := do
  onContents (Contents.flushBuffer st)
  let s ← Eff.get
  mergeLoop st next s.segments.length { segmentsBefore := s.segments.length }

/-- A partial compaction: rounds of merges between a seal and a checkpoint. -/
def compactBy (next : Options F → Contents Id Item Seg → Option (List Nat)) :
    StoreM Id Item Seg F CompactionStats := do
  let stats ← mergingBy st next
  finishCompaction st stats

theorem tierMerging_eq [F64 F] : (tierMerging st : StoreM Id Item Seg F _) =
    mergingBy st fun opts c => c.nextMergeGroup st opts.tiering opts.flushThreshold := by
  simp only [tierMerging, mergingBy, tierLoop_eq]

theorem forceMerging_eq (maxSegments : Nat) :
    (forceMerging st maxSegments : StoreM Id Item Seg F _) =
      mergingBy st fun opts c => c.overshootGroup st opts.tiering maxSegments := by
  simp only [forceMerging, mergingBy, forceLoop_eq]

theorem compactTiers_eq [F64 F] : (compactTiers st : StoreM Id Item Seg F _) =
    compactBy st fun opts c => c.nextMergeGroup st opts.tiering opts.flushThreshold := by
  rw [compactTiers, tierMerging_eq, compactBy]

theorem forceMergeTo_eq (maxSegments : Nat) :
    (forceMergeTo st maxSegments : StoreM Id Item Seg F _) = if maxSegments ≤ 1 then compact st
      else compactBy st fun opts c => c.overshootGroup st opts.tiering maxSegments := by
  rw [forceMergeTo, forceMerging_eq, compactBy]

end SegmentedStore

/-! ## The check for poison and calls on the log writer -/

namespace SegmentedStore

omit [DecidableEq Id] in
/-- The check changes nothing. -/
theorem checkPoisoned_respects
    {R : SegmentedStore Id Item Seg F → SegmentedStore Id Item Seg F → Prop} [Std.Refl R] :
    Respects R checkPoisoned := by
  refine .read_bind fun poisoned => ?_
  split
  · exact .fail _
  · exact .pure ()

variable {call : Call} {p : String → DirM Id Item Seg Unit} {s : SegmentedStore Id Item Seg F}

omit [DecidableEq Id] in
theorem checkPoisoned_passes (hhealthy : s.poisoned = false) : checkPoisoned s = (.ok (), s) := by
  show (if s.poisoned then Eff.fail poisonedError else pure () : StoreM Id Item Seg F Unit) s = _
  rw [hhealthy]
  rfl

variable {R : Outcome PersistenceError Unit → Directory Id Item Seg → Prop}

omit [DecidableEq Id] in
/-- A poisoned log writer refuses the call; another one makes it, and is poisoned after
it only if it began and failed. -/
theorem onWal_runs (hp : Ends (p s.wal) s.dir R) :
    Ends (onWal call p) s (fun r t =>
      s.walPoisoned = true ∧ r = .err walPoisonedError ∧ t = s ∨
      s.walPoisoned = false ∧ ∃ d b, t = { s with dir := d, walPoisoned := b } ∧ R r d ∧
        (b = true → s.dir.begins call = true ∧ ∃ e, r = .err e)) := by
  rw [onWal, Ends.read_bind_iff]
  split
  · rename_i hpoisoned
    exact Ends.fail_iff.mpr (.inl ⟨hpoisoned, rfl, rfl⟩)
  · rename_i hopen
    replace hopen := eq_false_of_ne_true hopen
    have hrun : Ends (onDir (F := F) (p s.wal)) s (fun r t =>
        ∃ d, t = { s with dir := d } ∧ R r d) := Ends.zoom (hp.mono fun r d h => ⟨d, rfl, h⟩)
    rw [Ends.get_bind_iff]
    refine Ends.attempt_bind hrun ?_ ?_ ?_
    · rintro ⟨⟩ t ⟨d, rfl, h⟩
      exact Ends.pure_iff.mpr (.inr ⟨hopen, d, s.walPoisoned, rfl, h, by simp [hopen]⟩)
    · rintro e t ⟨d, rfl, h⟩
      rw [Ends.update_bind_iff, Ends.fail_iff]
      exact .inr ⟨hopen, d, s.dir.begins call, rfl, h, fun hb => ⟨hb, e, rfl⟩⟩
    · rintro t ⟨d, rfl, h⟩
      exact .inr ⟨hopen, d, s.walPoisoned, rfl, h, by simp [hopen]⟩

omit [DecidableEq Id] in
/-- The directory changes, and the log writer may be poisoned. -/
theorem onWal_leaves (hp : Ends (p s.wal) s.dir R) (hrefused : R (.err walPoisonedError) s.dir) :
    Ends (onWal call p) s (fun r t =>
      ∃ d b, t = { s with dir := d, walPoisoned := b } ∧ R r d) := by
  refine (onWal_runs hp).mono ?_
  rintro r t (⟨-, rfl, rfl⟩ | ⟨-, d, b, rfl, h, -⟩)
  · exact ⟨t.dir, t.walPoisoned, rfl, hrefused⟩
  · exact ⟨d, b, rfl, h⟩

omit [DecidableEq Id] in
/-- A call that succeeds, on a log writer that is not poisoned. -/
theorem onWal_ok {d : Directory Id Item Seg} (hopen : s.walPoisoned = false)
    (hrun : p s.wal s.dir = (.ok (), d)) : onWal call p s = (.ok (), { s with dir := d }) := by
  have hends : Ends (p s.wal) s.dir (fun r d' => r = .ok () ∧ d' = d) := by
    rw [Ends, hrun]
    exact ⟨rfl, rfl⟩
  have honce : Ends (onWal call p) s _ := onWal_runs hends
  rcases honce with ⟨hpoisoned, -⟩ | ⟨-, d', b, ht, ⟨hr, rfl⟩, hb⟩
  · exact absurd hpoisoned (by simp [hopen])
  · cases b with
    | true =>
        obtain ⟨-, e, he⟩ := hb rfl
        exact absurd (he.symm.trans hr) (by simp)
    | false =>
        rw [← hopen] at ht
        exact Prod.ext hr ht

omit [DecidableEq Id] in
theorem onWal_refuses (hwal : s.walPoisoned = true) :
    onWal call p s = (.err walPoisonedError, s) := by
  have hends : Ends (onWal call p) s _ := onWal_runs (R := fun _ _ => True) trivial
  rcases hends with ⟨-, hr, ht⟩ | ⟨hopen, -⟩
  · exact Prod.ext hr ht
  · exact absurd hopen (by simp [hwal])

/-- The append comes before everything else that a write does to anything, so a poisoned
log writer refuses the write. -/
theorem exec_refused [F64 F] (st : Store Id Item Seg) (hhealthy : s.poisoned = false)
    (hwal : s.walPoisoned = true) {cmd : Cmd Id Item F} (hcmd : cmd.ops ≠ []) :
    cmd.exec st s = (.err walPoisonedError, s) := by
  have hcheck := checkPoisoned_passes hhealthy
  cases cmd with
  | add id item =>
      refine Eff.bind_eq_err.mpr (.inr ⟨(), s, hcheck, Eff.bind_eq_err.mpr (.inl ?_)⟩)
      exact onWal_refuses hwal
  | extend items =>
      obtain ⟨e, rest, rfl⟩ := List.exists_cons_of_ne_nil
        fun h : items = [] => hcmd (List.map_eq_nil_iff.mpr h)
      refine Eff.bind_eq_err.mpr (.inr ⟨(), s, hcheck, Eff.bind_eq_err.mpr (.inl ?_)⟩)
      exact Eff.bind_eq_err.mpr (.inl (Eff.bind_eq_err.mpr (.inl (onWal_refuses hwal))))
  | delete id =>
      refine Eff.bind_eq_err.mpr (.inr ⟨(), s, hcheck, Eff.bind_eq_err.mpr (.inl ?_)⟩)
      exact onWal_refuses hwal
  | checkpoint => exact absurd rfl hcmd
  | compact => exact absurd rfl hcmd
  | compactTiers => exact absurd rfl hcmd
  | forceMergeTo maxSegments => exact absurd rfl hcmd
  | reclaimTombstones minLiveRatio => exact absurd rfl hcmd

omit [DecidableEq Id] in
/-- Nothing else is touched. -/
theorem onWal_respects {R : SegmentedStore Id Item Seg F → SegmentedStore Id Item Seg F → Prop}
    (hR : ∀ s d b, R s { s with dir := d, walPoisoned := b }) : Respects R (onWal call p) := by
  intro s
  have hp : Ends (p s.wal) s.dir (fun _ _ => True) := trivial
  refine (onWal_leaves hp trivial).mono ?_
  rintro r t ⟨d, b, rfl, -⟩
  exact hR s d b

end SegmentedStore

/-! ## Properties of all parts -/

/-- A property of calls on a writer that all parts have. -/
structure Partwise (st : Store Id Item Seg) (P : ∀ {α : Type}, StoreM Id Item Seg F α → Prop) :
    Prop extends Compositional P where
  checkPoisoned : P SegmentedStore.checkPoisoned
  contents : ∀ f, P (SegmentedStore.onContents f)
  append : ∀ op, P (SegmentedStore.appendWal op)
  sync : P SegmentedStore.syncWal
  persist : ∀ id seg, P (SegmentedStore.persistSegment id seg)
  checkpoint : P (SegmentedStore.checkpoint st)

/-- A property that the parts of a merge have. -/
structure Mergewise (P : ∀ {α : Type}, StoreM Id Item Seg F α → Prop) : Prop
    extends Compositional P where
  contents : ∀ f, P (SegmentedStore.onContents f)
  persist : ∀ id seg, P (SegmentedStore.persistSegment id seg)

namespace Mergewise

open SegmentedStore

variable (st : Store Id Item Seg) {P : ∀ {α : Type}, StoreM Id Item Seg F α → Prop}

theorem mergeGroup (h : Mergewise P) (indices : List Nat) :
    P (SegmentedStore.mergeGroup st indices) := by
  refine h.bind h.get fun s => h.bind (h.bind h.get fun s' => ?_) fun _ => h.pure _
  split
  · exact h.bind (h.contents _) fun _ => h.bind (h.persist _ _) fun _ => h.contents _
  · exact h.contents _

theorem mergeEverything (h : Mergewise P) : P (SegmentedStore.mergeEverything st) := by
  refine h.bind h.get fun s => ?_
  dsimp only
  split
  · exact h.bind (h.mergeGroup st _) fun _ => h.bind (h.contents _) fun _ => h.pure _
  · exact h.bind (h.contents _) fun _ => h.pure _

theorem mergeLoop (h : Mergewise P) (next : Options F → Contents Id Item Seg → Option (List Nat))
    (fuel : Nat) (stats : CompactionStats) :
    P (SegmentedStore.mergeLoop st next fuel stats) := by
  induction fuel generalizing stats with
  | zero => exact h.pure _
  | succ fuel ih =>
      refine h.bind h.get fun s => ?_
      split
      · exact h.pure _
      · exact h.bind (h.mergeGroup st _) fun _ => ih _

theorem compactMerging (h : Mergewise P) : P (SegmentedStore.compactMerging st) :=
  h.bind (h.contents _) fun _ => h.mergeEverything st

theorem mergingBy (h : Mergewise P)
    (next : Options F → Contents Id Item Seg → Option (List Nat)) :
    P (SegmentedStore.mergingBy st next) :=
  h.bind (h.contents _) fun _ => h.bind h.get fun _ => h.mergeLoop st next _ _

theorem reclaimMerging [F64 F] (h : Mergewise P) (minLiveRatio : F) :
    P (SegmentedStore.reclaimMerging st minLiveRatio) := by
  refine h.bind (h.contents _) fun _ => h.bind h.get fun s => ?_
  dsimp only
  split
  · exact h.pure _
  · exact h.pure _
  · exact h.bind (h.mergeGroup st _) fun _ => h.pure _

end Mergewise

/-- A property that the parts of every compaction have. -/
structure Compactwise (st : Store Id Item Seg)
    (P : ∀ {α : Type}, StoreM Id Item Seg F α → Prop) : Prop extends Mergewise P where
  checkpoint : P (SegmentedStore.checkpoint st)

namespace Compactwise

open SegmentedStore

variable {st : Store Id Item Seg} {P : ∀ {α : Type}, StoreM Id Item Seg F α → Prop}

theorem withSegmentsAfter (h : Compactwise st P) (stats : CompactionStats) :
    P (SegmentedStore.withSegmentsAfter stats) :=
  h.bind h.get fun _ => h.pure _

theorem compact (h : Compactwise st P) : P (SegmentedStore.compact st) :=
  h.bind (h.compactMerging st) fun _ => h.bind h.checkpoint fun _ => h.withSegmentsAfter _

theorem finishCompaction (h : Compactwise st P) (stats : CompactionStats) :
    P (SegmentedStore.finishCompaction st stats) := by
  unfold SegmentedStore.finishCompaction
  split
  · exact h.bind h.checkpoint fun _ => h.withSegmentsAfter _
  · exact h.withSegmentsAfter _

theorem compactBy (h : Compactwise st P)
    (next : Options F → Contents Id Item Seg → Option (List Nat)) :
    P (SegmentedStore.compactBy st next) :=
  h.bind (h.mergingBy st next) fun _ => h.finishCompaction _

theorem forceMergeTo (h : Compactwise st P) (maxSegments : Nat) :
    P (SegmentedStore.forceMergeTo st maxSegments) := by
  rw [forceMergeTo_eq]
  split
  · exact h.compact
  · exact h.compactBy _

variable [F64 F]

theorem compactTiers (h : Compactwise st P) : P (SegmentedStore.compactTiers st) := by
  rw [compactTiers_eq]
  exact h.compactBy _

theorem reclaimTombstones (h : Compactwise st P) (minLiveRatio : F) :
    P (SegmentedStore.reclaimTombstones st minLiveRatio) :=
  h.bind (h.reclaimMerging st minLiveRatio) fun _ => h.finishCompaction _

end Compactwise

namespace Partwise

open SegmentedStore

variable {st : Store Id Item Seg} {P : ∀ {α : Type}, StoreM Id Item Seg F α → Prop}

theorem mergewise (h : Partwise st P) : Mergewise P :=
  ⟨h.toCompositional, h.contents, h.persist⟩

theorem compactwise (h : Partwise st P) : Compactwise st P :=
  ⟨h.mergewise, h.checkpoint⟩

variable [F64 F]

theorem sealAndCompact (h : Partwise st P) {beforeCompact : StoreM Id Item Seg F Unit}
    (hbefore : P beforeCompact) : P (SegmentedStore.sealAndCompact st beforeCompact) := by
  refine h.bind h.get fun s => ?_
  split
  · refine h.bind (h.contents _) fun _ => h.bind h.get fun s' => ?_
    split
    · exact h.bind hbefore fun _ => h.bind h.compactwise.compactTiers fun _ => h.pure _
    · exact h.pure _
  · exact h.pure _

theorem extendItems (h : Partwise st P) (items : List (Id × Item)) :
    P (SegmentedStore.extendItems st items) := by
  induction items with
  | nil => exact h.pure ()
  | cons e items ih =>
      refine h.bind ?_ fun _ => ih
      exact h.bind (h.append _) fun _ => h.bind (h.contents _) fun _ => h.sealAndCompact h.sync

theorem extend (h : Partwise st P) (items : List (Id × Item)) :
    P (SegmentedStore.extend st items) := by
  refine h.bind h.checkPoisoned fun _ => h.bind (h.extendItems items) fun _ => ?_
  split
  · exact h.pure ()
  · exact h.sync

theorem exec (h : Partwise st P) (cmd : Cmd Id Item F) : P (cmd.exec st) := by
  cases cmd with
  | add id item =>
      exact h.bind h.checkPoisoned fun _ => h.bind (h.append _) fun _ => h.bind h.sync fun _ =>
        h.bind (h.contents _) fun _ => h.sealAndCompact (h.pure ())
  | extend items => exact h.extend items
  | delete id =>
      exact h.bind h.checkPoisoned fun _ => h.bind (h.append _) fun _ => h.bind h.sync fun _ =>
        h.contents _
  | checkpoint => exact h.checkpoint
  | compact => exact h.bind h.compactwise.compact fun _ => h.pure _
  | compactTiers => exact h.bind h.compactwise.compactTiers fun _ => h.pure _
  | forceMergeTo maxSegments =>
      exact h.bind (h.compactwise.forceMergeTo maxSegments) fun _ => h.pure _
  | reclaimTombstones minLiveRatio =>
      exact h.bind (h.compactwise.reclaimTombstones minLiveRatio) fun _ => h.pure _

end Partwise

end Segstore
