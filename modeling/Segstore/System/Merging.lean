import Segstore.System.LiveMap
import Segstore.Writer.Memory

/-!
# Merging a group of segments

What `merge_group` does to a default store, at every moment at which a run can
come to it: between two calls, or in the middle of one.
-/

namespace Segstore

variable {Id Item F : Type} [DecidableEq Id]

/-! ## The live entries of a group -/

namespace Contents

variable {c : Contents Id Item (List (Id × Item))}

/-- The live entries of the segments at the given positions, in the order of the
positions. -/
def liveEntries (c : Contents Id Item (List (Id × Item))) (indices : List Nat) :
    List (Id × Item) :=
  (pick c.sealed indices).flatMap (fun p => p.2.filter (fun e => c.isLiveIn p.1 e.1))

/-- Where no segment of the group has superseded copies, the tombstones decide. -/
theorem merge_by_id {indices : List Nat}
    (hnone : ∀ p ∈ pick c.sealed indices, c.superseded.lookup p.1 = none) :
    (defaultStore Id Item).mergeSegments ((pick c.sealed indices).map Prod.snd)
      (fun id => !c.tombstones.contains id) = c.liveEntries indices := by
  show ((pick c.sealed indices).map Prod.snd).flatten.filter _ = _
  rw [← List.flatMap_def, List.filter_flatMap]
  refine List.flatMap_congr fun p hp => List.filter_congr fun e _ => ?_
  rw [PubState.isLiveIn, copyIsLive, hnone p hp]
  simp

/-- In any case each segment can be filtered by its own test first. -/
theorem merge_by_segment (indices : List Nat) :
    (defaultStore Id Item).mergeSegments ((pick c.sealed indices).map
        (fun p => (defaultStore Id Item).mergeSegments [p.2] (c.isLiveIn p.1)))
      (fun _ => true) = c.liveEntries indices := by
  simp [defaultStore, liveEntries, List.flatMap_def, Function.comp_def]

/-- `merge_group` takes one of the two ways. -/
theorem mergedSegment_eq_liveEntries (hc : c.Shape) (indices : List Nat) :
    c.mergedSegment (defaultStore Id Item) indices = c.liveEntries indices :=
  mergedSegment_default hc.len indices

theorem merge_nextSegId {Seg : Type} (st : Store Id Item Seg) (c : Contents Id Item Seg)
    (indices : List Nat) : (c.merge st indices).nextSegId =
      if 0 < st.segmentLen (c.mergedSegment st indices) then c.nextSegId + 1
      else c.nextSegId := by
  rw [merge]
  split
  · rw [installMerged_nextSegId]
    rfl
  · rw [installMerged_nextSegId]

end Contents

/-! ## The moments of a run -/

variable [F64 F]

/-- The states that a run goes through: between two calls, and inside of calls,
after an operation took effect, a seal, a merge or a checkpoint. The directory
may be any. -/
inductive Moment (fileBacked : Bool) : SegmentedStore Id Item (List (Id × Item)) F → Prop
  | between {events : List (Event Id Item F)} {s : SegmentedStore Id Item (List (Id × Item)) F}
      (h : (Proc.run (defaultStore Id Item) (.fresh fileBacked) [] events).1 = .running s) :
      Moment fileBacked s
  | files {s : SegmentedStore Id Item (List (Id × Item)) F} (h : Moment fileBacked s)
      (d : Directory Id Item (List (Id × Item))) : Moment fileBacked { s with dir := d }
  | applied {s : SegmentedStore Id Item (List (Id × Item)) F} (h : Moment fileBacked s)
      (op : Op Id Item) :
      Moment fileBacked { s with toContents := s.toContents.apply op }
  | flushed {s : SegmentedStore Id Item (List (Id × Item)) F} (h : Moment fileBacked s) :
      Moment fileBacked { s with
        toContents := s.toContents.flushBuffer (defaultStore Id Item) }
  | merged {s t : SegmentedStore Id Item (List (Id × Item)) F} (h : Moment fileBacked s)
      {indices : List Nat} (hpos : Positions s.segments.length indices) {n : Nat}
      (ht : SegmentedStore.mergeGroup (defaultStore Id Item) indices s = (.ok n, t)) :
      Moment fileBacked t
  | checkpointed {s t : SegmentedStore Id Item (List (Id × Item)) F}
      (h : Moment fileBacked s)
      (ht : SegmentedStore.checkpoint (defaultStore Id Item) s = (.ok (), t)) :
      Moment fileBacked t

/-- At every moment memory stores some map. -/
theorem Moment.stores {fileBacked : Bool} {s : SegmentedStore Id Item (List (Id × Item)) F}
    (h : Moment fileBacked s) : ∃ m, s.toContents.Stores m := by
  induction h with
  | between h => exact (stores_run h).1
  | files h d ih => exact ih
  | applied h op ih => exact ih.imp' _ fun _ hm => hm.apply op
  | flushed h ih => exact ih.imp fun _ hm => hm.flushBuffer
  | @merged s t h indices hpos n ht ih =>
      have hmem := (SegmentedStore.mergeGroup_memory (defaultStore Id Item) indices s).of_run ht
      rw [show t.toContents = _ from (hmem.2.1 n rfl).2]
      exact ih.imp fun _ hm => hm.merge hpos.1
  | @checkpointed s t h ht ih =>
      have hmem := (SegmentedStore.checkpoint_memory (defaultStore Id Item) s).of_run ht
      rw [show t.toContents = _ from hmem.2.1 rfl]
      exact ih.imp fun _ hm => hm.flushBuffer.retainSuperseded

/-! ## One merge -/

/-- What a `merge_group` that returned `n` has made of `s`. -/
structure MergesGroup (indices : List Nat) (n : Nat)
    (s t : SegmentedStore Id Item (List (Id × Item)) F) : Prop where
  count : n = (s.liveEntries indices).length
  byId : (∀ p ∈ pick s.sealed indices, s.superseded.lookup p.1 = none) →
    (defaultStore Id Item).mergeSegments ((pick s.sealed indices).map Prod.snd)
      (fun id => !s.tombstones.contains id) = s.liveEntries indices
  bySegment : (defaultStore Id Item).mergeSegments ((pick s.sealed indices).map
      (fun p => (defaultStore Id Item).mergeSegments [p.2] (s.isLiveIn p.1)))
    (fun _ => true) = s.liveEntries indices
  aligned : t.segmentIds.length = t.segments.length
  sealed : t.sealed =
    (s.sealed.zipIdx.filter (fun p => decide (p.2 ∉ indices))).map Prod.fst ++
      if n = 0 then [] else [(s.nextSegId, s.liveEntries indices)]
  fresh : ∀ k ∈ s.segmentIds, k < s.nextSegId
  nextSegId : t.nextSegId = if n = 0 then s.nextSegId else s.nextSegId + 1
  tombstones : t.tombstones = s.tombstones
  buffer : t.buffer = s.buffer ∧ t.bufferIds = s.bufferIds
  map : ∃ m, Shown s.livePairs m ∧ Shown t.livePairs m
  owned : ∀ e ∈ s.liveEntries indices,
    t.liveSegmentOf e.1 = some s.nextSegId ∧ t.isLiveIn s.nextSegId e.1 = true

/-- Every `merge_group` of a run keeps exactly the live copies of its group. -/
theorem merge_group_keeps_live (fileBacked : Bool)
    (s t : SegmentedStore Id Item (List (Id × Item)) F) (hs : Moment fileBacked s)
    (indices : List Nat) (hpos : Positions s.segments.length indices) (n : Nat)
    (ht : SegmentedStore.mergeGroup (defaultStore Id Item) indices s = (.ok n, t)) :
    MergesGroup indices n s t := by
  obtain ⟨m, hm⟩ := hs.stores
  have htracked := hm.tracked
  have hmem := (SegmentedStore.mergeGroup_memory (defaultStore Id Item) indices s).of_run ht
  obtain ⟨hn, hmerge⟩ := hmem.2.1 n rfl
  have hentries := Contents.mergedSegment_eq_liveEntries htracked.shape indices
  rw [hentries] at hn
  replace hn : n = (s.liveEntries indices).length := hn
  replace hmerge : t.toContents = s.toContents.merge (defaultStore Id Item) indices := hmerge
  have hempty : (0 < (defaultStore Id Item).segmentLen
      (s.mergedSegment (defaultStore Id Item) indices)) ↔ ¬ n = 0 := by
    rw [hentries, hn]
    exact Nat.pos_iff_ne_zero
  have hmerged := hm.merge hpos.1
  have howned : ∀ e ∈ s.liveEntries indices,
      (s.toContents.merge (defaultStore Id Item) indices).liveSegmentOf e.1 =
        some s.nextSegId := by
    intro e he
    rw [(Contents.merge_liveSegmentOf htracked.known indices).2, hentries,
      if_pos (List.mem_map_of_mem he)]
  refine {
    count := hn
    byId := Contents.merge_by_id
    bySegment := Contents.merge_by_segment indices
    aligned := ?_, sealed := ?_, nextSegId := ?_, tombstones := ?_, buffer := ?_
    fresh := htracked.shape.below
    map := ⟨m, Contents.shown_livePairs htracked hm.map, ?_⟩
    owned := ?_ }
  · rw [hmerge]
    exact hmerged.tracked.shape.len
  · rw [hmerge, Contents.merge_sealed _ htracked.shape, dropIndices_eq, hentries]
    simp only [← hentries, hempty, ite_not]
  · rw [hmerge, Contents.merge_nextSegId]
    simp only [hempty, ite_not]
  · rw [hmerge, Contents.merge_tombstones]
  · rw [hmerge, Contents.merge_buffer, Contents.merge_bufferIds]
    exact ⟨rfl, rfl⟩
  · rw [hmerge]
    exact Contents.shown_livePairs hmerged.tracked hmerged.map
  · rw [hmerge]
    exact fun e he => ⟨howned e he, ((hmerged.tracked.owner _ _).mp (howned e he)).2⟩

/-- The newest copy of an id is merged before a stale one. -/
theorem merge_group_keeps_live_backwards :
    ∃ s t : SegmentedStore Nat Nat (List (Nat × Nat)) Rat,
      SegmentedStore.mergeGroup (defaultStore Nat Nat) [2, 0] s = (.ok 1, t) ∧
      s.segmentIds = [0, 1, 2] ∧ t.segmentIds = [1, 3] ∧ MergesGroup [2, 0] 1 s t := by
  have hrun : ∃ s, (Proc.run (defaultStore Nat Nat) (.fresh (F := Rat) false) []
      [.reopen (.new 1) 0 [], .call (.extend [(0, 5), (1, 6), (0, 7)]) []]).1 = .running s :=
    ⟨_, rfl⟩
  obtain ⟨s, hs⟩ := hrun
  have hmoment : Moment false s := .between hs
  cases hs
  have hpos : Positions 3 [2, 0] := ⟨by decide, by decide⟩
  refine ⟨_, _, ?_, ?_, ?_, merge_group_keeps_live false _ _ hmoment [2, 0] hpos 1 rfl⟩ <;> rfl

end Segstore
