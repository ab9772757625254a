import Segstore.Writer.Loops

/-!
# Calls that return

Under whatever fates a call runs, when it returns the memory is what the call
makes of it when nothing fails, and a compaction has counted the items that its merges
wrote.
-/

namespace Segstore

variable {α β Id Item Seg F : Type} [DecidableEq Id] (st : Store Id Item Seg)

/-! ## The memory after a call -/

namespace Contents

/-- The memory after a full compaction and its checkpoint. -/
def compactedWhole (c : Contents Id Item Seg) : Contents Id Item Seg :=
  (((c.flushBuffer st).compacted st).flushBuffer st).retainSuperseded

/-- The merge of `reclaim_tombstones`, and how many there are. -/
def reclaimMerge [F64 F] (minLiveRatio : F) (c : Contents Id Item Seg) :
    Contents Id Item Seg × Nat :=
  match c.reclaimTargets st minLiveRatio c.sealed.zipIdx with
  | none => (c, 0)
  | some [] => (c, 0)
  | some (target :: targets) => (c.merge st (target :: targets), 1)

/-- The memory after a call that returns. -/
def exec [F64 F] (opts : Options F) (c : Contents Id Item Seg) :
    Cmd Id Item F → Contents Id Item Seg
  | .add id item => (c.apply (.add id item)).sealCompacted st opts
  | .extend items => items.foldl (fun c e => (c.apply (.add e.1 e.2)).sealCompacted st opts) c
  | .delete id => c.apply (.delete id)
  | .checkpoint => (c.flushBuffer st).retainSuperseded
  | .compact => c.compactedWhole st
  | .compactTiers => c.compactedBy st fun c =>
      c.tierMerges st opts.tiering opts.flushThreshold c.segments.length
  | .forceMergeTo maxSegments =>
      if maxSegments ≤ 1 then
        c.compactedWhole st
      else
        c.compactedBy st fun c => c.forceMerges st opts.tiering maxSegments c.segments.length
  | .reclaimTombstones minLiveRatio => c.compactedBy st (reclaimMerge st minLiveRatio)

end Contents

namespace SegmentedStore

/-- When the call returns, it has done this to the memory and kept the options. -/
def Becomes (f : Options F → Contents Id Item Seg → Contents Id Item Seg)
    (p : StoreM Id Item Seg F α) : Prop :=
  ∀ s, Ends p s (fun r t => ∀ a, r = .ok a →
    t.toContents = f s.opts s.toContents ∧ t.opts = s.opts)

namespace Becomes

variable {f g : Options F → Contents Id Item Seg → Contents Id Item Seg}
variable {p : StoreM Id Item Seg F α}

omit [DecidableEq Id] in
theorem bind {q : α → StoreM Id Item Seg F β} (hp : Becomes f p) (hq : ∀ a, Becomes g (q a)) :
    Becomes (fun opts c => g opts (f opts c)) (p >>= q) := by
  intro s
  refine Ends.bind (hp s) ?_ (fun _ _ _ _ h => by cases h) (fun _ _ _ h => by cases h)
  intro a t ht
  obtain ⟨hmem, hopts⟩ := ht a rfl
  refine (hq a t).mono fun r u hu b hr => ?_
  obtain ⟨hmem', hopts'⟩ := hu b hr
  rw [hmem, hopts] at hmem'
  exact ⟨hmem', hopts'.trans hopts⟩

omit [DecidableEq Id] in
theorem pure (a : α) : Becomes (fun _ c => c) (Pure.pure a : StoreM Id Item Seg F α) :=
  fun _ _ _ => ⟨rfl, rfl⟩

omit [DecidableEq Id] in
/-- A call that touches files only. -/
theorem files (hp : Respects OnlyFiles p) (hopts : Respects KeepsOpts p) :
    Becomes (fun _ c => c) p :=
  fun s => ((hp s).and (hopts s)).mono fun _ _ h _ _ => ⟨h.1.memory, h.2⟩

omit [DecidableEq Id] in
theorem contents (f : Contents Id Item Seg → Contents Id Item Seg) :
    Becomes (fun _ => f) (onContents (F := F) f) :=
  fun _ _ _ => ⟨rfl, rfl⟩

omit [DecidableEq Id] in
theorem of_leaves {p : StoreM Id Item Seg F CompactionStats}
    (hp : ∀ s, ∃ n, Ends p s (Leaves (f s.opts s.toContents) n s)) : Becomes f p := by
  intro s
  obtain ⟨n, hn⟩ := hp s
  refine hn.mono fun r t ht stats hr => ?_
  obtain ⟨hmem, -, hopts⟩ := ht stats hr
  exact ⟨hmem, hopts⟩

end Becomes

omit [DecidableEq Id] in
theorem checkPoisoned_becomes :
    Becomes (fun _ c => c) (checkPoisoned : StoreM Id Item Seg F Unit) :=
  .files checkPoisoned_respects checkPoisoned_respects

omit [DecidableEq Id] in
theorem appendWal_becomes (op : Op Id Item) :
    Becomes (fun _ c => c) (appendWal op : StoreM Id Item Seg F Unit) :=
  .files (onWal_onlyFiles _ _) (onWal_respects fun _ _ _ => rfl)

omit [DecidableEq Id] in
theorem syncWal_becomes : Becomes (fun _ c => c) (syncWal : StoreM Id Item Seg F Unit) :=
  .files (onWal_onlyFiles _ _) (onWal_respects fun _ _ _ => rfl)

theorem checkpoint_becomes :
    Becomes (fun _ c => (c.flushBuffer st).retainSuperseded)
      (checkpoint st : StoreM Id Item Seg F Unit) :=
  fun s => ((checkpoint_memory st s).and (checkpoint_keepsOpts st s)).mono
    fun _ _ h a hr => ⟨h.1.2.1 (by rw [hr]), h.2⟩

theorem compact_becomes :
    Becomes (fun _ c => c.compactedWhole st)
      (compact st : StoreM Id Item Seg F CompactionStats) :=
  fun s => (compact_leaves st s).mono fun _ _ h stats hr => (h stats hr).symm

variable [F64 F]

theorem compactTiers_becomes :
    Becomes (fun opts c => c.compactedBy st fun c =>
        c.tierMerges st opts.tiering opts.flushThreshold c.segments.length)
      (compactTiers st : StoreM Id Item Seg F CompactionStats) :=
  .of_leaves fun s => ⟨_, compactTiers_leaves st s⟩

/-- A write seals and compacts as its memory says. -/
theorem sealAndCompact_becomes {beforeCompact : StoreM Id Item Seg F Unit}
    (hbefore : Becomes (fun _ c => c) beforeCompact) :
    Becomes (fun opts c => c.sealCompacted st opts) (sealAndCompact st beforeCompact) := by
  intro s
  have hcompacts := hbefore.bind fun _ => (compactTiers_becomes (F := F) st).bind
    fun _ => Becomes.pure ()
  dsimp only
  rw [sealAndCompact, Ends.get_bind_iff, Contents.sealCompacted]
  split
  · rw [onContents, Ends.update_bind_iff, Ends.get_bind_iff]
    dsimp only
    split
    · rename_i hnow
      rw [if_pos (show (s.toContents.flushBuffer st).compactsNow st s.opts = true from hnow)]
      exact hcompacts { s with toContents := s.toContents.flushBuffer st }
    · rename_i hnow
      rw [if_neg (show ¬ (s.toContents.flushBuffer st).compactsNow st s.opts = true from hnow)]
      exact fun _ _ => ⟨rfl, rfl⟩
  · exact fun _ _ => ⟨rfl, rfl⟩

theorem extendItems_becomes (items : List (Id × Item)) :
    Becomes (fun opts c => items.foldl
        (fun c e => (c.apply (.add e.1 e.2)).sealCompacted st opts) c)
      (extendItems st items : StoreM Id Item Seg F Unit) := by
  induction items with
  | nil => exact .pure ()
  | cons e items ih =>
      have hitem : Becomes (fun opts c => (c.apply (.add e.1 e.2)).sealCompacted st opts)
          (extendItem st e.1 e.2 : StoreM Id Item Seg F Unit) :=
        (appendWal_becomes _).bind fun _ => (Becomes.contents _).bind fun _ =>
          sealAndCompact_becomes st syncWal_becomes
      exact hitem.bind fun _ => ih

theorem reclaimTombstones_becomes (minLiveRatio : F) :
    Becomes (fun _ c => c.compactedBy st (Contents.reclaimMerge st minLiveRatio))
      (reclaimTombstones st minLiveRatio : StoreM Id Item Seg F CompactionStats) := by
  intro s
  dsimp only
  rw [Contents.compactedBy, Contents.reclaimMerge]
  cases htargets : (s.toContents.flushBuffer st).reclaimTargets st minLiveRatio
      (s.toContents.flushBuffer st).sealed.zipIdx with
  | none =>
      rw [reclaimTombstones, reclaimMerging, bind_assoc, onContents, Ends.update_bind_iff,
        bind_assoc, Ends.get_bind_iff]
      simp only [htargets]
      exact fun _ _ => ⟨rfl, rfl⟩
  | some targets =>
      cases targets with
      | nil =>
          refine (reclaimTombstones_idle st htargets).mono fun r t ht _ _ => ?_
          rw [ht.2]
          exact ⟨rfl, rfl⟩
      | cons target targets =>
          refine (reclaimTombstones_leaves st htargets).mono fun r t ht stats hr => ?_
          obtain ⟨hmem, -, hopts⟩ := ht stats hr
          exact ⟨hmem, hopts⟩

end SegmentedStore

open SegmentedStore

/-- When a call returns, the memory is as when nothing fails. -/
theorem exec_becomes [F64 F] (cmd : Cmd Id Item F) :
    Becomes (fun opts c => c.exec st opts cmd) (cmd.exec st) := by
  cases cmd with
  | add id item =>
      exact checkPoisoned_becomes.bind fun _ => (appendWal_becomes _).bind fun _ =>
        syncWal_becomes.bind fun _ => (Becomes.contents _).bind fun _ =>
          sealAndCompact_becomes st (.pure ())
  | extend items =>
      refine checkPoisoned_becomes.bind fun _ => (extendItems_becomes st items).bind
        (g := fun _ c => c) fun _ => ?_
      split
      · exact .pure ()
      · exact syncWal_becomes
  | delete id =>
      exact checkPoisoned_becomes.bind fun _ => (appendWal_becomes _).bind fun _ =>
        syncWal_becomes.bind fun _ => .contents _
  | checkpoint => exact checkpoint_becomes st
  | compact => exact (compact_becomes st).bind fun _ => .pure ()
  | compactTiers => exact (compactTiers_becomes st).bind fun _ => .pure ()
  | forceMergeTo maxSegments =>
      by_cases hmax : maxSegments ≤ 1
      · have hone : (SegmentedStore.forceMergeTo st maxSegments :
            StoreM Id Item Seg F CompactionStats) = SegmentedStore.compact st := by
          rw [forceMergeTo_eq, if_pos hmax]
        simp only [Cmd.exec, Contents.exec, hone, if_pos hmax]
        exact (compact_becomes st).bind fun _ => .pure ()
      · simp only [Cmd.exec, Contents.exec, if_neg hmax]
        exact (Becomes.of_leaves (f := fun opts c => c.compactedBy st fun c =>
          c.forceMerges st opts.tiering maxSegments c.segments.length)
          fun s => ⟨_, forceMergeTo_leaves st hmax s⟩).bind fun _ => .pure ()
  | reclaimTombstones minLiveRatio =>
      exact (reclaimTombstones_becomes st minLiveRatio).bind fun _ => .pure ()

/-! ## The statistics of a compaction -/

/-- The items that merges write. -/
def written (deeds : List (Deed Id Item Seg)) : Nat :=
  (deeds.map fun
    | .write _ _ => 0
    | .merge c indices => st.segmentLen (c.mergedSegment st indices)).sum

/-- The statistics with these merges on top. -/
def CompactionStats.plus (stats : CompactionStats) (deeds : List (Deed Id Item Seg)) :
    CompactionStats :=
  { stats with
    merges := stats.merges + deeds.length
    itemsMerged := stats.itemsMerged + written st deeds }

/-- The statistics of a call that makes these merges. -/
def reportOf (deeds : List (Deed Id Item Seg)) (c c' : Contents Id Item Seg) :
    CompactionStats where
  merges := deeds.length
  itemsMerged := written st deeds
  segmentsBefore := (c.flushBuffer st).segments.length
  segmentsAfter := c'.segments.length

theorem CompactionStats.plus_cons (stats : CompactionStats) (c : Contents Id Item Seg)
    (indices : List Nat) (deeds : List (Deed Id Item Seg)) :
    stats.plus st (.merge c indices :: deeds) =
      { stats with
        merges := stats.merges + 1
        itemsMerged := stats.itemsMerged + st.segmentLen (c.mergedSegment st indices)
        : CompactionStats }.plus st deeds := by
  simp only [plus, written, List.map_cons, List.sum_cons, List.length_cons, Nat.add_assoc,
    Nat.add_comm 1]

namespace SegmentedStore

/-- When the call returns, it reports these merges. -/
def Reports (deeds : Options F → Contents Id Item Seg → List (Deed Id Item Seg))
    (p : StoreM Id Item Seg F CompactionStats) : Prop :=
  ∀ s, Ends p s (fun r t => ∀ stats, r = .ok stats →
    stats = reportOf st (deeds s.opts s.toContents) s.toContents t.toContents)

omit [DecidableEq Id] in
theorem withSegmentsAfter_counts (stats : CompactionStats) (s : SegmentedStore Id Item Seg F) :
    Ends (withSegmentsAfter stats) s (fun r t => ∀ stats', r = .ok stats' →
      stats' = { stats with segmentsAfter := t.segments.length }) := by
  rw [withSegmentsAfter, Ends.get_bind_iff, Ends.pure_iff]
  rintro _ ⟨⟩
  rfl

theorem checkpointed_counts (stats : CompactionStats) (s : SegmentedStore Id Item Seg F) :
    Ends (do checkpoint st; withSegmentsAfter stats) s (fun r t => ∀ stats', r = .ok stats' →
      stats' = { stats with segmentsAfter := t.segments.length }) :=
  Ends.bind (R := fun _ _ => True) trivial (fun _ t _ => withSegmentsAfter_counts stats t)
    (fun _ _ _ _ h => by cases h) (fun _ _ _ h => by cases h)

theorem finishCompaction_counts (stats : CompactionStats) (s : SegmentedStore Id Item Seg F) :
    Ends (finishCompaction st stats) s (fun r t => ∀ stats', r = .ok stats' →
      stats' = { stats with segmentsAfter := t.segments.length }) := by
  rw [finishCompaction]
  split
  · exact checkpointed_counts st stats s
  · exact withSegmentsAfter_counts stats s

/-- A merge, and what counts its items afterwards. -/
theorem merged_counts {s : SegmentedStore Id Item Seg F} {indices : List Nat}
    {rest : Nat → StoreM Id Item Seg F α}
    {Q : Outcome PersistenceError α → SegmentedStore Id Item Seg F → Prop}
    (hQ : ∀ r t, (∀ a, r ≠ .ok a) → Q r t)
    (h : ∀ t, t.toContents = s.toContents.merge st indices → t.opts = s.opts →
      Ends (rest (st.segmentLen (s.toContents.mergedSegment st indices))) t Q) :
    Ends (mergeGroup st indices >>= rest) s Q := by
  have hopts := (partwise_keepsOpts (F := F) st).mergewise.mergeGroup st indices s
  refine Ends.bind ((mergeGroup_memory st indices s).and hopts) ?_
    (fun _ _ _ => hQ _ _ (by simp)) (fun _ _ => hQ _ _ (by simp))
  rintro n t ⟨⟨-, hmem, -⟩, hopts⟩
  obtain ⟨rfl, hmerged⟩ := hmem n rfl
  exact h t hmerged hopts

/-- The loop of a partial compaction. -/
theorem mergeLoop_counts (next : Options F → Contents Id Item Seg → Option (List Nat))
    (fuel : Nat) (stats : CompactionStats) (s : SegmentedStore Id Item Seg F) :
    Ends (mergeLoop st next fuel stats) s (fun r _ => ∀ stats', r = .ok stats' →
      stats' = stats.plus st (s.toContents.deedsBy st (next s.opts) fuel)) := by
  induction fuel generalizing stats s with
  | zero =>
      rw [mergeLoop, Ends.pure_iff]
      rintro _ ⟨⟩
      rfl
  | succ fuel ih =>
      rw [mergeLoop, Ends.get_bind_iff, Contents.deedsBy]
      cases next s.opts s.toContents with
      | none =>
          rw [Ends.pure_iff]
          rintro _ ⟨⟩
          rfl
      | some group =>
          refine merged_counts st (fun r t hr stats' h => absurd h (hr stats'))
            fun t ht hopts => ?_
          have hrest := ih { stats with
            itemsMerged := stats.itemsMerged + st.segmentLen (s.mergedSegment st group)
            merges := stats.merges + 1 } t
          rw [ht, hopts] at hrest
          simpa only [CompactionStats.plus_cons] using hrest

theorem compactBy_reports (next : Options F → Contents Id Item Seg → Option (List Nat)) :
    Reports st (fun opts c => (c.flushBuffer st).deedsBy st (next opts)
      (c.flushBuffer st).segments.length) (compactBy st next) := by
  intro s
  dsimp only
  rw [compactBy, mergingBy, bind_assoc, onContents, Ends.update_bind_iff, bind_assoc,
    Ends.get_bind_iff]
  refine Ends.bind (mergeLoop_counts st next _ _ _) ?_ (fun _ _ _ _ h => by cases h)
    (fun _ _ _ h => by cases h)
  intro stats t ht
  rw [ht stats rfl]
  refine (finishCompaction_counts st _ t).mono fun r u hu stats' hr => ?_
  rw [hu stats' hr, CompactionStats.plus, reportOf, Nat.zero_add, Nat.zero_add]

/-- `compact` reports its merge, if it makes one. -/
theorem compact_reports :
    Reports st (fun _ c => (c.flushBuffer st).fullDeeds)
      (compact st : StoreM Id Item Seg F CompactionStats) := by
  intro s
  dsimp only
  rw [compact, compactMerging, bind_assoc, onContents, Ends.update_bind_iff]
  refine Ends.bind (R := fun r _ => ∀ stats, r = .ok stats → stats =
      ({ segmentsBefore := (s.toContents.flushBuffer st).segments.length } :
        CompactionStats).plus st (s.toContents.flushBuffer st).fullDeeds) ?_ ?_
    (fun _ _ _ _ h => by cases h) (fun _ _ _ h => by cases h)
  · rw [mergeEverything, Ends.get_bind_iff, Contents.fullDeeds]
    dsimp only
    split
    · refine merged_counts st (fun r t hr stats h => absurd h (hr stats)) fun t ht hopts => ?_
      rw [onContents, Ends.update_bind_iff, Ends.pure_iff]
      rintro _ ⟨⟩
      simp [CompactionStats.plus, written]
    · rw [onContents, Ends.update_bind_iff, Ends.pure_iff]
      rintro _ ⟨⟩
      rfl
  · intro stats t ht
    rw [ht stats rfl]
    refine (checkpointed_counts st _ t).mono fun r u hu stats' hr => ?_
    rw [hu stats' hr, CompactionStats.plus, reportOf, Nat.zero_add, Nat.zero_add]

variable [F64 F]

theorem compactTiers_reports :
    Reports st (fun opts c => (c.flushBuffer st).tiersDeeds st opts)
      (compactTiers st : StoreM Id Item Seg F CompactionStats) := by
  rw [compactTiers_eq]
  simpa only [Contents.tiersDeeds, Contents.tierDeeds_eq] using compactBy_reports st _

omit [F64 F] in
theorem forceMergeTo_reports (maxSegments : Nat) :
    Reports st (fun opts c => if maxSegments ≤ 1 then (c.flushBuffer st).fullDeeds else
        (c.flushBuffer st).forceDeeds st opts.tiering maxSegments
          (c.flushBuffer st).segments.length)
      (forceMergeTo st maxSegments : StoreM Id Item Seg F CompactionStats) := by
  rw [forceMergeTo_eq]
  split
  · exact compact_reports st
  · simpa only [Contents.forceDeeds_eq] using compactBy_reports st _

theorem reclaimTombstones_reports (minLiveRatio : F) :
    Reports st (fun _ c => (c.flushBuffer st).reclaimDeeds st minLiveRatio)
      (reclaimTombstones st minLiveRatio : StoreM Id Item Seg F CompactionStats) := by
  intro s
  dsimp only
  rw [reclaimTombstones, reclaimMerging, bind_assoc, onContents, Ends.update_bind_iff,
    bind_assoc, Ends.get_bind_iff, Contents.reclaimDeeds]
  dsimp only
  cases (s.toContents.flushBuffer st).reclaimTargets st minLiveRatio
      (s.toContents.flushBuffer st).sealed.zipIdx with
  | none => exact withSegmentsAfter_counts _ _
  | some targets =>
      cases targets with
      | nil => exact withSegmentsAfter_counts _ _
      | cons target targets =>
          dsimp only
          rw [bind_assoc]
          refine merged_counts st (fun r t hr stats h => absurd h (hr stats)) fun t ht hopts => ?_
          rw [pure_bind, finishCompaction, if_pos Nat.one_pos]
          refine (checkpointed_counts st _ t).mono fun r u hu stats hr => ?_
          rw [hu stats hr]
          simp [reportOf, written]

end SegmentedStore

end Segstore
