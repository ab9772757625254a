import Segstore.Memory.Tiers
import Segstore.Writer.Memory
import Segstore.Writer.Steps

/-!
# Compactions that return

The memory that a compaction leaves when it returns, on any directory and under
any fates, and how many merges it reports.  A compaction with nothing to merge
leaves the directory alone.
-/

namespace Segstore

variable {Id Item Seg F : Type}

/-! ## The memory after the rounds -/

namespace Contents

theorem nextMergeGroup_congr [F64 F] (st : Store Id Item Seg) {c c' : Contents Id Item Seg}
    (h : c.segments = c'.segments) (cfg : TierConfig F) (flushThreshold : Nat) :
    c.nextMergeGroup st cfg flushThreshold = c'.nextMergeGroup st cfg flushThreshold := by
  rw [nextMergeGroup, nextMergeGroup, h]

theorem sealed_congr {v v' : PubState Id Seg} (hids : v.segmentIds = v'.segmentIds)
    (hsegments : v.segments = v'.segments) : v.sealed = v'.sealed := by
  rw [PubState.sealed, PubState.sealed, hids, hsegments]

/-- The commit after the rounds of a partial compaction changes no segment. -/
theorem compactedBy_rest [DecidableEq Id] {st : Store Id Item Seg} {c : Contents Id Item Seg}
    (merges : Contents Id Item Seg → Contents Id Item Seg × Nat)
    (h : (merges (c.flushBuffer st)).1.buffer = []) :
    (c.compactedBy st merges).buffer = [] ∧
      (c.compactedBy st merges).segments = (merges (c.flushBuffer st)).1.segments ∧
      (c.compactedBy st merges).segmentIds = (merges (c.flushBuffer st)).1.segmentIds ∧
      (c.compactedBy st merges).tombstones = (merges (c.flushBuffer st)).1.tombstones := by
  rw [compactedBy, flushBuffer_of_empty _ st h]
  split
  · exact ⟨h, rfl, rfl, rfl⟩
  · exact ⟨h, rfl, rfl, rfl⟩

end Contents

namespace SegmentedStore

/-- The options have not changed. -/
def KeepsOpts (s t : SegmentedStore Id Item Seg F) : Prop := t.opts = s.opts

instance : Std.Refl (KeepsOpts : SegmentedStore Id Item Seg F → _ → Prop) := ⟨fun _ => rfl⟩

instance : IsTrans (SegmentedStore Id Item Seg F) KeepsOpts :=
  ⟨fun _ _ _ h h' => Eq.trans h' h⟩

theorem onDir_keepsOpts {α : Type} (p : DirM Id Item Seg α) :
    Respects KeepsOpts (onDir (F := F) p) :=
  fun _ => rfl

theorem persistSegment_keepsOpts (id : Nat) (seg : Seg) :
    Respects KeepsOpts (persistSegment id seg : StoreM Id Item Seg F Unit) :=
  .bind (.mapErr (onDir_keepsOpts _)) fun _ => .update fun _ => rfl

theorem persistAll_keepsOpts (todo : List (Nat × Seg)) :
    Respects KeepsOpts (persistAll todo : StoreM Id Item Seg F Unit) := by
  induction todo with
  | nil => exact .pure ()
  | cons p todo ih => exact .bind (persistSegment_keepsOpts p.1 p.2) fun _ => ih

theorem writeManifest_keepsOpts :
    Respects KeepsOpts (writeManifest : StoreM Id Item Seg F Unit) := by
  refine .bind (.update fun _ => rfl) fun _ => .get_bind fun _ =>
    .attempt_bind (onDir_keepsOpts _) fun written => ?_
  split
  · exact .pure ()
  · exact .bind (.update fun _ => rfl) fun _ => .fail _

variable [DecidableEq Id] (st : Store Id Item Seg)

theorem checkpoint_keepsOpts : Respects KeepsOpts (checkpoint st : StoreM _ _ _ F _) :=
  .bind checkPoisoned_respects fun _ => .bind (.update fun _ => rfl) fun _ =>
    .get_bind fun _ => .bind (persistAll_keepsOpts _) fun _ =>
      .bind writeManifest_keepsOpts fun _ => .bind (.update fun _ => rfl) fun _ =>
        .bind (.bind (.update fun _ => rfl) fun _ => onDir_keepsOpts _) fun _ =>
          .update fun _ => rfl

/-- No call changes the options. -/
theorem partwise_keepsOpts :
    Partwise st (fun {_} (p : StoreM Id Item Seg F _) => Respects KeepsOpts p) where
  toCompositional := Respects.compositional _
  checkPoisoned := checkPoisoned_respects
  contents := fun _ => .update fun _ => rfl
  append := fun _ => onWal_respects fun _ _ _ => rfl
  sync := onWal_respects fun _ _ _ => rfl
  persist := persistSegment_keepsOpts
  checkpoint := checkpoint_keepsOpts st

/-! ## What is left in memory -/

/-- The merges leave `c` and `n` more on the count. -/
def Leaves (c : Contents Id Item Seg) (n : Nat) (s : SegmentedStore Id Item Seg F) :
    Outcome PersistenceError CompactionStats → SegmentedStore Id Item Seg F → Prop :=
  fun r t => ∀ stats, r = .ok stats →
    t.toContents = c ∧ stats.merges = n ∧ t.opts = s.opts

omit [DecidableEq Id] in
theorem withSegmentsAfter_leaves (stats : CompactionStats) (s : SegmentedStore Id Item Seg F) :
    Ends (withSegmentsAfter stats) s (Leaves s.toContents stats.merges s) := by
  rw [withSegmentsAfter, Ends.get_bind_iff, Ends.pure_iff]
  rintro _ ⟨⟩
  exact ⟨rfl, rfl, rfl⟩

/-- A checkpoint at the end of a compaction. -/
theorem checkpointed_leaves (stats : CompactionStats) (s : SegmentedStore Id Item Seg F) :
    Ends (do checkpoint st; withSegmentsAfter stats) s
      (Leaves (s.toContents.flushBuffer st).retainSuperseded stats.merges s) := by
  refine Ends.bind ((checkpoint_memory st s).and (checkpoint_keepsOpts st s)) ?_
    (fun _ _ _ _ h => by cases h) (fun _ _ _ h => by cases h)
  rintro ⟨⟩ t ⟨⟨-, hmem, -⟩, hopts⟩
  refine (withSegmentsAfter_leaves stats t).mono fun r u hu stats' hr => ?_
  obtain ⟨hu, hmerges, hopts'⟩ := hu stats' hr
  exact ⟨hu.trans (hmem rfl), hmerges, hopts'.trans hopts⟩

theorem finishCompaction_leaves (stats : CompactionStats) (s : SegmentedStore Id Item Seg F) :
    Ends (finishCompaction st stats) s (Leaves (if 0 < stats.merges then
      (s.toContents.flushBuffer st).retainSuperseded else s.toContents) stats.merges s) := by
  rw [finishCompaction]
  split
  · exact checkpointed_leaves st stats s
  · exact withSegmentsAfter_leaves stats s

/-- One round of a loop. -/
theorem round_leaves {s : SegmentedStore Id Item Seg F} {g : List Nat} {n : Nat}
    {c : Contents Id Item Seg} {rest : Nat → StoreM Id Item Seg F CompactionStats}
    (h : ∀ items t, t.toContents = s.toContents.merge st g → t.opts = s.opts →
      Ends (rest items) t (Leaves c n t)) :
    Ends (mergeGroup st g >>= rest) s (Leaves c n s) := by
  have hopts := (partwise_keepsOpts (F := F) st).mergewise.mergeGroup st g s
  refine Ends.bind ((mergeGroup_memory st g s).and hopts) ?_ (fun _ _ _ _ h => by cases h)
    (fun _ _ _ h => by cases h)
  rintro items t ⟨⟨-, hmem, -⟩, hopts⟩
  refine (h items t (hmem items rfl).2 hopts).mono fun r u hu stats hr => ?_
  obtain ⟨hu, hmerges, hopts'⟩ := hu stats hr
  exact ⟨hu, hmerges, hopts'.trans hopts⟩

/-- The loop of a partial compaction. -/
theorem mergeLoop_leaves (next : Options F → Contents Id Item Seg → Option (List Nat))
    (fuel : Nat) (stats : CompactionStats) (s : SegmentedStore Id Item Seg F) :
    Ends (mergeLoop st next fuel stats) s
      (Leaves (s.toContents.mergesBy st (next s.opts) fuel).1
        (stats.merges + (s.toContents.mergesBy st (next s.opts) fuel).2) s) := by
  induction fuel generalizing stats s with
  | zero =>
      rw [mergeLoop, Ends.pure_iff]
      rintro _ ⟨⟩
      exact ⟨rfl, rfl, rfl⟩
  | succ fuel ih =>
      rw [mergeLoop, Ends.get_bind_iff, Contents.mergesBy]
      cases next s.opts s.toContents with
      | none =>
          rw [Ends.pure_iff]
          rintro _ ⟨⟩
          exact ⟨rfl, rfl, rfl⟩
      | some g =>
          refine round_leaves st fun items t ht hopts => ?_
          have hrest := ih { stats with
            itemsMerged := stats.itemsMerged + items
            merges := stats.merges + 1 } t
          rw [ht, hopts] at hrest
          simpa only [Nat.add_assoc, Nat.add_comm 1] using hrest

/-- A partial compaction leaves the memory after its rounds. -/
theorem compactBy_leaves (next : Options F → Contents Id Item Seg → Option (List Nat))
    (s : SegmentedStore Id Item Seg F) :
    Ends (compactBy st next) s (Leaves
      (s.toContents.compactedBy st fun c => c.mergesBy st (next s.opts) c.segments.length)
      ((s.toContents.flushBuffer st).mergesBy st (next s.opts)
        (s.toContents.flushBuffer st).segments.length).2 s) := by
  rw [compactBy, mergingBy, bind_assoc, onContents, Ends.update_bind_iff, bind_assoc,
    Ends.get_bind_iff]
  have hloop := mergeLoop_leaves st next (s.toContents.flushBuffer st).segments.length
    { segmentsBefore := (s.toContents.flushBuffer st).segments.length }
    { s with toContents := s.toContents.flushBuffer st }
  rw [Nat.zero_add] at hloop
  refine Ends.bind hloop ?_ (fun _ _ _ _ h => by cases h) (fun _ _ _ h => by cases h)
  intro stats t ht
  obtain ⟨hmem, hmerges, hopts⟩ := ht stats rfl
  refine (finishCompaction_leaves st stats t).mono fun r u hu stats' hr => ?_
  obtain ⟨hu, hmerges', hopts'⟩ := hu stats' hr
  rw [hmem, hmerges] at hu
  exact ⟨hu, hmerges'.trans hmerges, hopts'.trans hopts⟩

/-- `compact` leaves the compacted memory. -/
theorem compact_leaves (s : SegmentedStore Id Item Seg F) :
    Ends (compact st) s (fun r t => ∀ stats, r = .ok stats → t.opts = s.opts ∧
      t.toContents = (((s.toContents.flushBuffer st).compacted st).flushBuffer
        st).retainSuperseded) := by
  have hopts := (partwise_keepsOpts (F := F) st).mergewise.mergeEverything st
  rw [compact, compactMerging, bind_assoc, onContents, Ends.update_bind_iff]
  refine Ends.bind (R := fun r t => ∀ stats, r = .ok stats → t.opts = s.opts ∧
    t.toContents = (s.toContents.flushBuffer st).compacted st) ?_ ?_
    (fun _ _ _ _ h => by cases h) (fun _ _ _ h => by cases h)
  · rw [mergeEverything, Ends.get_bind_iff, Contents.compacted]
    dsimp only
    split
    · refine Ends.bind ((mergeGroup_memory st _ _).and
        ((partwise_keepsOpts (F := F) st).mergewise.mergeGroup st _ _)) ?_
        (fun _ _ _ _ h => by cases h) (fun _ _ _ h => by cases h)
      rintro items t ⟨⟨-, hmem, -⟩, hopts⟩
      rw [onContents, Ends.update_bind_iff, Ends.pure_iff]
      exact fun _ _ => ⟨hopts, congrArg Contents.purge (hmem items rfl).2⟩
    · rw [onContents, Ends.update_bind_iff, Ends.pure_iff]
      exact fun _ _ => ⟨rfl, rfl⟩
  · intro stats t ht
    obtain ⟨hopts, hmem⟩ := ht stats rfl
    refine (checkpointed_leaves st stats t).mono fun r u hu stats' hr => ?_
    obtain ⟨hu, -, hopts'⟩ := hu stats' hr
    rw [hmem] at hu
    exact ⟨hopts'.trans hopts, hu⟩

/-- `force_merge_to` leaves the memory after its rounds. -/
theorem forceMergeTo_leaves {maxSegments : Nat} (hmax : ¬ maxSegments ≤ 1)
    (s : SegmentedStore Id Item Seg F) :
    Ends (forceMergeTo st maxSegments) s (Leaves
      (s.toContents.compactedBy st fun c =>
        c.forceMerges st s.opts.tiering maxSegments c.segments.length)
      ((s.toContents.flushBuffer st).forceMerges st s.opts.tiering maxSegments
        (s.toContents.flushBuffer st).segments.length).2 s) := by
  rw [forceMergeTo_eq, if_neg hmax]
  simp only [Contents.forceMerges_eq]
  exact compactBy_leaves st _ s

variable [F64 F]

/-- `compact_tiers` leaves the memory after its rounds. -/
theorem compactTiers_leaves (s : SegmentedStore Id Item Seg F) :
    Ends (compactTiers st) s (Leaves
      (s.toContents.compactedBy st fun c =>
        c.tierMerges st s.opts.tiering s.opts.flushThreshold c.segments.length)
      ((s.toContents.flushBuffer st).tierMerges st s.opts.tiering s.opts.flushThreshold
        (s.toContents.flushBuffer st).segments.length).2 s) := by
  rw [compactTiers_eq]
  simp only [Contents.tierMerges_eq]
  exact compactBy_leaves st _ s

/-- The seal of the buffer, and nothing else. -/
def flushed (s : SegmentedStore Id Item Seg F) : SegmentedStore Id Item Seg F :=
  { s with toContents := s.toContents.flushBuffer st }

/-- `reclaim_tombstones` leaves the memory after its merge. -/
theorem reclaimTombstones_leaves {minLiveRatio : F} {s : SegmentedStore Id Item Seg F}
    {target : Nat} {targets : List Nat} (h : (s.toContents.flushBuffer st).reclaimTargets st
      minLiveRatio (s.toContents.flushBuffer st).sealed.zipIdx = some (target :: targets)) :
    Ends (reclaimTombstones st minLiveRatio) s (Leaves
      (((s.toContents.flushBuffer st).merge st (target :: targets)).flushBuffer
        st).retainSuperseded 1 s) := by
  rw [reclaimTombstones, reclaimMerging, bind_assoc, onContents, Ends.update_bind_iff, bind_assoc,
    Ends.get_bind_iff]
  simp only [h, bind_assoc]
  refine round_leaves (s := s.flushed st) st fun items t ht hopts => ?_
  have hrest := checkpointed_leaves st
    { segmentsBefore := (s.toContents.flushBuffer st).segments.length
      itemsMerged := items
      merges := 1 } t
  rw [ht] at hrest
  exact hrest

/-! ## Nothing to merge -/

/-- The statistics of a call that merges nothing. -/
def idleStats (c : Contents Id Item Seg) : CompactionStats where
  segmentsBefore := c.segments.length
  segmentsAfter := c.segments.length

omit [F64 F] in
theorem flushed_of_empty {s : SegmentedStore Id Item Seg F} (h : s.buffer = []) :
    s.flushed st = s := by
  rw [flushed, Contents.flushBuffer_of_empty _ st h]

/-- How a compaction that merges nothing ends. -/
def Idle (s : SegmentedStore Id Item Seg F) :
    Outcome PersistenceError CompactionStats → SegmentedStore Id Item Seg F → Prop :=
  fun r t => r = .ok (idleStats (s.toContents.flushBuffer st)) ∧ t = s.flushed st

omit [F64 F] in
/-- With an empty buffer nothing changes. -/
theorem Idle.of_empty {s t : SegmentedStore Id Item Seg F}
    {r : Outcome PersistenceError CompactionStats} (h : s.Idle st r t) (hbuffer : s.buffer = []) :
    r = .ok (idleStats s.toContents) ∧ t = s := by
  obtain ⟨hr, ht⟩ := h
  rw [Contents.flushBuffer_of_empty _ st hbuffer] at hr
  exact ⟨hr, ht.trans (flushed_of_empty st hbuffer)⟩

omit [F64 F] in
/-- A loop that ends at once. -/
theorem compactBy_idle {next : Options F → Contents Id Item Seg → Option (List Nat)}
    {s : SegmentedStore Id Item Seg F} (h : next s.opts (s.toContents.flushBuffer st) = none) :
    Ends (compactBy st next) s (s.Idle st) := by
  have hloop : ∀ fuel stats, Ends (mergeLoop st next fuel stats) (s.flushed st)
      (fun r t => r = .ok stats ∧ t = s.flushed st) := by
    rintro (- | fuel) stats
    · exact ⟨rfl, rfl⟩
    · rw [mergeLoop, Ends.get_bind_iff]
      simp only [flushed, h]
      exact ⟨rfl, rfl⟩
  rw [compactBy, mergingBy, bind_assoc, onContents, Ends.update_bind_iff, bind_assoc,
    Ends.get_bind_iff]
  refine Ends.bind (hloop _ _) ?_ (fun _ _ h => by cases h.1) (fun _ h => by cases h.1)
  rintro stats t ⟨⟨⟩, rfl⟩
  exact ⟨rfl, rfl⟩

theorem compactTiers_idle {s : SegmentedStore Id Item Seg F} (h : (s.toContents.flushBuffer
      st).nextMergeGroup st s.opts.tiering s.opts.flushThreshold = none) :
    Ends (compactTiers st) s (s.Idle st) := by
  rw [compactTiers_eq]
  exact compactBy_idle st h

omit [F64 F] in
theorem forceMergeTo_idle {maxSegments : Nat} (hmax : ¬ maxSegments ≤ 1)
    {s : SegmentedStore Id Item Seg F}
    (h : (s.toContents.flushBuffer st).segments.length ≤ maxSegments) :
    Ends (forceMergeTo st maxSegments) s (s.Idle st) := by
  rw [forceMergeTo_eq, if_neg hmax]
  exact compactBy_idle st ((Contents.overshootGroup_eq_none st).mpr h)

theorem reclaimTombstones_idle {minLiveRatio : F} {s : SegmentedStore Id Item Seg F}
    (h : (s.toContents.flushBuffer st).reclaimTargets st minLiveRatio
      (s.toContents.flushBuffer st).sealed.zipIdx = some []) :
    Ends (reclaimTombstones st minLiveRatio) s (s.Idle st) := by
  rw [reclaimTombstones, reclaimMerging, bind_assoc, onContents, Ends.update_bind_iff, bind_assoc,
    Ends.get_bind_iff]
  simp only [h]
  exact ⟨rfl, rfl⟩

end SegmentedStore

end Segstore
