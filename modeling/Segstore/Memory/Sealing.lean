import Mathlib.Data.List.Zip
import Segstore.Memory.Tracked
import Segstore.Memory.Groups

/-!
# Sealing and merging

Seals, merges and what a full compaction forgets relocate live copies.  They
keep `Tracked`, and the represented map.
-/

namespace Segstore

variable {Id Item : Type} [DecidableEq Id]

namespace Contents

variable {c : Contents Id Item (List (Id × Item))}

/-! ## Sealing the buffer -/

theorem flushBuffer_default (h : c.buffer ≠ []) :
    c.flushBuffer (defaultStore Id Item) = { c with
      nextSegId := c.nextSegId + 1
      owners := c.owners.map (fun o => o.insertAll (c.buffer.map Prod.fst) c.nextSegId)
      segments := c.segments ++ [c.buffer]
      segmentIds := c.segmentIds ++ [c.nextSegId]
      buffer := []
      bufferIds := [] } := by
  simp [flushBuffer, h, allocId, defaultStore]

/-- The next id lists nothing and marks nothing yet. -/
theorem Tracked.not_marked_next (h : c.Tracked) (j : Id) :
    ¬ Marked c.superseded c.nextSegId j := fun hmark =>
  Nat.lt_irrefl _ (h.shape.below _ (h.marked _ _ hmark).mem_segmentIds)

theorem lists_flushBuffer (hc : c.Shape) (h : c.buffer ≠ []) (seg : Nat) (j : Id) :
    (c.flushBuffer (defaultStore Id Item)).Lists seg j ↔
      c.Lists seg j ∨ seg = c.nextSegId ∧ j ∈ c.buffer.map Prod.fst := by
  rw [Lists, Lists, flushBuffer_sealed _ hc h]
  simp only [List.mem_append, List.mem_singleton, Prod.mk.injEq, or_and_right, exists_or]
  refine or_congr Iff.rfl ⟨?_, ?_⟩
  · rintro ⟨entries, ⟨rfl, rfl⟩, hj⟩
    exact ⟨rfl, hj⟩
  · rintro ⟨rfl, hj⟩
    exact ⟨_, ⟨rfl, rfl⟩, hj⟩

theorem isLiveIn_flushBuffer (seg : Nat) (j : Id) :
    (c.flushBuffer (defaultStore Id Item)).isLiveIn seg j = c.isLiveIn seg j := by
  rw [PubState.isLiveIn, PubState.isLiveIn, flushBuffer_tombstones, flushBuffer_superseded]

theorem Tracked.flushBuffer (h : c.Tracked) :
    (c.flushBuffer (defaultStore Id Item)).Tracked := by
  by_cases hne : c.buffer = []
  · rwa [flushBuffer_of_empty c _ hne]
  have hfresh : ∀ j ∈ c.buffer.map Prod.fst,
      (c.flushBuffer (defaultStore Id Item)).isLiveIn c.nextSegId j = true := by
    intro j hj
    rw [isLiveIn_flushBuffer, isLiveIn_iff]
    exact ⟨h.buffered j ((h.bufferIds j).mpr hj), h.not_marked_next j⟩
  refine ⟨h.shape.flushBuffer _, ?_, ?_, ?_, ?_, ?_, ?_, ?_, ?_⟩
  · rw [flushBuffer_sealed _ h.shape hne]
    intro p hp
    simp only [isLiveIn_flushBuffer]
    rcases List.mem_append.mp hp with hp | hp
    · exact h.liveNodup p hp
    · rw [List.mem_singleton.mp hp]
      exact h.bufferNodup.sublist (List.filter_sublist.map _)
  · rw [flushBuffer_default hne]
    exact List.nodup_nil
  · rw [flushBuffer_default hne]
    simp
  · rw [flushBuffer_default hne]
    simp
  · rw [flushBuffer_default hne]
    simp
  · intro seg j hmark
    rw [flushBuffer_superseded] at hmark
    exact (lists_flushBuffer h.shape hne seg j).mpr (.inl (h.marked seg j hmark))
  · rw [flushBuffer_default hne]
    simpa using h.known
  · intro j seg
    have howner : (c.flushBuffer (defaultStore Id Item)).liveSegmentOf j =
        if j ∈ c.buffer.map Prod.fst then some c.nextSegId else c.liveSegmentOf j := by
      obtain ⟨o, ho⟩ := Option.isSome_iff_exists.mp h.known
      rw [flushBuffer_default hne, liveSegmentOf, liveSegmentOf, ho]
      exact FinMap.lookup_insertAll _ _ _ _
    rw [howner, lists_flushBuffer h.shape hne]
    split
    · rename_i hj
      constructor
      · rintro ⟨⟩
        exact ⟨.inr ⟨rfl, hj⟩, hfresh j hj⟩
      · rintro ⟨hlists | ⟨rfl, -⟩, hlive⟩
        · rw [isLiveIn_flushBuffer, h.apart j ((h.bufferIds j).mpr hj) seg hlists] at hlive
          cases hlive
        · rfl
    · rename_i hj
      rw [isLiveIn_flushBuffer, h.owner]
      exact and_congr_left fun _ => (or_iff_left fun hnext => hj hnext.2).symm

theorem Tracked.flushBuffer_represents (h : c.Tracked) {m : Id → Option Item}
    (hm : Represents c.LiveCopy m) :
    Represents (c.flushBuffer (defaultStore Id Item)).LiveCopy m := by
  by_cases hne : c.buffer = []
  · rwa [flushBuffer_of_empty c _ hne]
  refine hm.relocate (fun place => some (place.getD c.nextSegId)) fun place j v => ?_
  cases place with
  | none =>
      refine iff_of_false ?_ ?_
      · rw [LiveCopy, flushBuffer_buffer]
        exact List.not_mem_nil
      · rintro ⟨place, -, hplace⟩
        cases hplace
  | some seg =>
      simp only [LiveCopy, flushBuffer_sealed _ h.shape hne, List.mem_append, List.mem_singleton,
        isLiveIn_flushBuffer, Option.exists, Option.getD_none, Option.getD_some,
        Option.some.injEq]
      constructor
      · rintro ⟨entries, hp | hp, hmem, hlive⟩
        · exact .inr ⟨seg, ⟨entries, hp, hmem, hlive⟩, rfl⟩
        · cases hp
          exact .inl ⟨hmem, rfl⟩
      · rintro (⟨hmem, rfl⟩ | ⟨seg', ⟨entries, hp, hmem, hlive⟩, rfl⟩)
        · refine ⟨c.buffer, .inr rfl, hmem, ?_⟩
          have hj : j ∈ c.buffer.map Prod.fst := List.mem_map.mpr ⟨_, hmem, rfl⟩
          exact isLiveIn_iff.mpr
            ⟨h.buffered j ((h.bufferIds j).mpr hj), h.not_marked_next j⟩
        · exact ⟨entries, .inl hp, hmem, hlive⟩

/-- A seal buries and unburies nothing. -/
theorem Tracked.buried_flushBuffer (h : c.Tracked) (j : Id) :
    (c.flushBuffer (defaultStore Id Item)).Buried j ↔ c.Buried j := by
  by_cases hne : c.buffer = []
  · rw [flushBuffer_of_empty c _ hne]
  rw [Buried, Buried, flushBuffer_tombstones, flushBuffer_superseded]
  simp only [lists_flushBuffer h.shape hne]
  refine and_congr_right fun htomb => exists_congr fun seg => and_congr_left fun _ => ?_
  refine or_iff_left ?_
  rintro ⟨-, hj⟩
  exact h.buffered j ((h.bufferIds j).mpr hj) htomb

/-! ## Merging -/

/-- The ids of a merge group. -/
abbrev groupIds (c : Contents Id Item (List (Id × Item))) (indices : List Nat) : List Nat :=
  pick c.segmentIds indices

/-- Both branches of `merge_group` keep the live entries of each segment. -/
theorem mergedSegment_default (hlen : c.segmentIds.length = c.segments.length)
    (indices : List Nat) :
    c.mergedSegment (defaultStore Id Item) indices =
      (pick c.sealed indices).flatMap (fun p => p.2.filter (fun e => c.isLiveIn p.1 e.1)) := by
  rw [PubState.sealed, pick_zip _ _ _ hlen]
  have hpick : (pick c.segmentIds indices).length = (pick c.segments indices).length := by
    have h := congrArg List.length (pick_map Prod.fst c.sealed indices)
    have h' := congrArg List.length (pick_map Prod.snd c.sealed indices)
    rw [PubState.sealed, List.map_fst_zip (Nat.le_of_eq hlen), List.length_map] at h
    rw [PubState.sealed, List.map_snd_zip (Nat.le_of_eq hlen.symm), List.length_map] at h'
    exact h.trans h'.symm
  rw [mergedSegment]
  dsimp only
  split
  · rw [← List.zip_swap (pick c.segments indices), List.flatMap_map]
    simp [defaultStore, List.flatMap, PubState.isLiveIn, Function.comp_def]
  · rename_i hnone
    have hlive : ∀ p ∈ (pick c.segmentIds indices).zip (pick c.segments indices), ∀ j,
        c.isLiveIn p.1 j = !c.tombstones.contains j := by
      intro p hp j
      have hlookup : c.superseded.lookup p.1 = none := by
        by_contra hsome
        exact hnone (List.any_eq_true.mpr
          ⟨p.1, (List.of_mem_zip hp).1, Option.isSome_iff_ne_none.mpr hsome⟩)
      rw [PubState.isLiveIn, copyIsLive, hlookup]
      simp
    have hsegs : pick c.segments indices =
        ((pick c.segmentIds indices).zip (pick c.segments indices)).map Prod.snd :=
      (List.map_snd_zip (Nat.le_of_eq hpick.symm)).symm
    have hflat : ∀ (l : List (Nat × List (Id × Item))),
        (l.map Prod.snd).flatten.filter (fun e => !c.tombstones.contains e.1) =
          l.flatMap (fun p => p.2.filter (fun e => !c.tombstones.contains e.1)) := by
      intro l
      rw [← List.flatMap_def, List.filter_flatMap]
    show (pick c.segments indices).flatten.filter _ = _
    rw [hsegs, hflat, ← hsegs]
    exact List.flatMap_congr fun p hp => List.filter_congr fun e _ => (hlive p hp e.1).symm

omit [DecidableEq Id] in
theorem mem_pick_sealed (hc : c.Shape) {indices : List Nat} {p : Nat × List (Id × Item)} :
    p ∈ pick c.sealed indices ↔ p ∈ c.sealed ∧ p.1 ∈ c.groupIds indices := by
  rw [groupIds, ← map_fst_sealed hc.len, pick_map, List.mem_map]
  constructor
  · exact fun hp => ⟨pick_subset hp, p, hp, rfl⟩
  · rintro ⟨hp, q, hq, hqp⟩
    have hq' : (p.1, q.2) ∈ c.sealed := hqp ▸ pick_subset hq
    have heq : q = p := Prod.ext hqp (sealed_unique hc.sorted hq' hp)
    exact heq ▸ hq

omit [DecidableEq Id] in
theorem mem_drop_sealed (hc : c.Shape) {indices : List Nat} {p : Nat × List (Id × Item)} :
    p ∈ dropIndices indices c.sealed ↔ p ∈ c.sealed ∧ p.1 ∉ c.groupIds indices := by
  have hnd : (c.sealed.map Prod.fst).Nodup := by
    rw [map_fst_sealed hc.len]
    exact hc.sorted.imp fun h => Nat.ne_of_lt h
  rw [mem_dropIndices_iff hnd, map_fst_sealed hc.len]

/-- The merged segment holds the live copies of its group. -/
theorem mem_mergedSegment (hc : c.Shape) {indices : List Nat} {j : Id} {v : Item} :
    (j, v) ∈ c.mergedSegment (defaultStore Id Item) indices ↔
      ∃ g ∈ c.groupIds indices, c.LiveCopy (some g) j v := by
  rw [mergedSegment_default hc.len, List.mem_flatMap]
  constructor
  · rintro ⟨p, hp, hmem⟩
    obtain ⟨hp, hg⟩ := (mem_pick_sealed hc).mp hp
    obtain ⟨hmem, hlive⟩ := List.mem_filter.mp hmem
    exact ⟨p.1, hg, p.2, hp, hmem, hlive⟩
  · rintro ⟨g, hg, entries, hp, hmem, hlive⟩
    exact ⟨(g, entries), (mem_pick_sealed hc).mpr ⟨hp, hg⟩, List.mem_filter.mpr ⟨hmem, hlive⟩⟩

theorem mem_mergedSegment_ids (hc : c.Shape) {indices : List Nat} {j : Id} :
    j ∈ (c.mergedSegment (defaultStore Id Item) indices).map Prod.fst ↔
      ∃ g ∈ c.groupIds indices, c.Lists g j ∧ c.isLiveIn g j = true := by
  rw [List.mem_map]
  constructor
  · rintro ⟨⟨k, v⟩, hmem, rfl⟩
    obtain ⟨g, hg, hcopy⟩ := (mem_mergedSegment hc).mp hmem
    exact ⟨g, hg, hcopy.lists⟩
  · rintro ⟨g, hg, ⟨entries, hp, hj⟩, hlive⟩
    obtain ⟨⟨k, v⟩, hmem, rfl⟩ := List.mem_map.mp hj
    exact ⟨(k, v), (mem_mergedSegment hc).mpr ⟨g, hg, entries, hp, hmem, hlive⟩, rfl⟩

section Fields

variable {Seg : Type} (st : Store Id Item Seg) {c : Contents Id Item Seg} (indices : List Nat)

@[simp] theorem merge_tombstones : (c.merge st indices).tombstones = c.tombstones := by
  rw [merge]
  split <;> rfl

@[simp] theorem merge_superseded :
    (c.merge st indices).superseded = c.superseded.eraseAll (pick c.segmentIds indices) := by
  rw [merge]
  split <;> rfl

@[simp] theorem merge_bufferIds : (c.merge st indices).bufferIds = c.bufferIds := by
  rw [merge]
  split <;> rfl

end Fields

/-- An empty merge result is not sealed, and lists nothing. -/
theorem merge_liveSegmentOf (hknown : c.owners.isSome = true) (indices : List Nat) :
    (c.merge (defaultStore Id Item) indices).owners.isSome = true ∧
      ∀ j, (c.merge (defaultStore Id Item) indices).liveSegmentOf j =
        if j ∈ (c.mergedSegment (defaultStore Id Item) indices).map Prod.fst then
          some c.nextSegId else c.liveSegmentOf j := by
  obtain ⟨o, ho⟩ := Option.isSome_iff_exists.mp hknown
  rw [merge]
  split
  · refine ⟨by simp [installMerged, allocId, ho, defaultStore], fun j => ?_⟩
    simp only [liveSegmentOf, installMerged, allocId, ho, defaultStore, Option.map_some,
      Option.bind_some]
    exact FinMap.lookup_insertAll _ _ _ _
  · rename_i hempty
    have hnil : c.mergedSegment (defaultStore Id Item) indices = [] :=
      List.length_eq_zero_iff.mp (Nat.eq_zero_of_not_pos hempty)
    refine ⟨by simp [installMerged, ho], fun j => ?_⟩
    rw [hnil, List.map_nil, if_neg List.not_mem_nil]
    rfl

theorem lists_merge (hc : c.Shape) (indices : List Nat) (seg : Nat) (j : Id) :
    (c.merge (defaultStore Id Item) indices).Lists seg j ↔
      seg ∉ c.groupIds indices ∧ c.Lists seg j ∨ seg = c.nextSegId ∧
        j ∈ (c.mergedSegment (defaultStore Id Item) indices).map Prod.fst := by
  rw [Lists, Lists, merge_sealed _ hc]
  simp only [List.mem_append, mem_drop_sealed hc]
  constructor
  · rintro ⟨entries, ⟨hp, hg⟩ | hp, hj⟩
    · exact .inl ⟨hg, entries, hp, hj⟩
    · split at hp
      · cases List.mem_singleton.mp hp
        exact .inr ⟨rfl, hj⟩
      · cases hp
  · rintro (⟨hg, entries, hp, hj⟩ | ⟨rfl, hj⟩)
    · exact ⟨entries, .inl ⟨hp, hg⟩, hj⟩
    · refine ⟨_, .inr ?_, hj⟩
      rw [if_pos]
      · exact List.mem_singleton.mpr rfl
      · obtain ⟨e, he, -⟩ := List.mem_map.mp hj
        exact List.length_pos_of_mem he

/-- A group takes its marks along. -/
theorem isLiveIn_merge_of_not_mem {indices : List Nat} {seg : Nat}
    (hg : seg ∉ c.groupIds indices) (j : Id) :
    (c.merge (defaultStore Id Item) indices).isLiveIn seg j = c.isLiveIn seg j := by
  rw [Bool.eq_iff_iff, isLiveIn_iff, isLiveIn_iff, merge_tombstones, merge_superseded,
    marked_eraseAll]
  simp [hg]

theorem Tracked.isLiveIn_merge_next (h : c.Tracked) {indices : List Nat} (j : Id) :
    (c.merge (defaultStore Id Item) indices).isLiveIn c.nextSegId j = true ↔
      j ∉ c.tombstones := by
  rw [isLiveIn_iff, merge_tombstones, merge_superseded, marked_eraseAll]
  simp [h.not_marked_next j]

/-- A live sealed copy has one owner. -/
theorem Tracked.sealed_place (h : c.Tracked) {seg seg' : Nat} {j : Id}
    (hs : c.Lists seg j ∧ c.isLiveIn seg j = true)
    (hs' : c.Lists seg' j ∧ c.isLiveIn seg' j = true) : seg = seg' :=
  Option.some.inj (((h.owner j seg).mpr hs).symm.trans ((h.owner j seg').mpr hs'))

theorem Tracked.sealed_nodup (h : c.Tracked) : c.sealed.Nodup := by
  refine List.Nodup.of_map Prod.fst ?_
  rw [map_fst_sealed h.shape.len]
  exact h.shape.sorted.imp fun hlt => Nat.ne_of_lt hlt

/-- The live ids of two segments are apart. -/
theorem Tracked.live_disjoint (h : c.Tracked) {p q : Nat × List (Id × Item)}
    (hp : p ∈ c.sealed) (hq : q ∈ c.sealed) (hne : p ≠ q) :
    ((p.2.filter (fun e => c.isLiveIn p.1 e.1)).map Prod.fst).Disjoint
      ((q.2.filter (fun e => c.isLiveIn q.1 e.1)).map Prod.fst) := by
  refine List.disjoint_left.mpr fun j hj hj' => hne ?_
  obtain ⟨e, he, rfl⟩ := List.mem_map.mp hj
  obtain ⟨e', he', hee⟩ := List.mem_map.mp hj'
  obtain ⟨he, hlive⟩ := List.mem_filter.mp he
  obtain ⟨he', hlive'⟩ := List.mem_filter.mp he'
  rw [hee] at hlive'
  have hpq := h.sealed_place ⟨⟨p.2, hp, List.mem_map.mpr ⟨e, he, rfl⟩⟩, hlive⟩
    ⟨⟨q.2, hq, List.mem_map.mpr ⟨e', he', hee⟩⟩, hlive'⟩
  have hq' : (p.1, q.2) ∈ c.sealed := hpq ▸ hq
  exact Prod.ext hpq (sealed_unique h.shape.sorted hp hq')

theorem Tracked.mergedSegment_nodup (h : c.Tracked) {indices : List Nat}
    (hidx : indices.Nodup) :
    ((c.mergedSegment (defaultStore Id Item) indices).map Prod.fst).Nodup := by
  rw [mergedSegment_default h.shape.len, List.map_flatMap, List.nodup_flatMap]
  refine ⟨fun p hp => h.liveNodup p (pick_subset hp), ?_⟩
  refine (pick_nodup h.sealed_nodup hidx).imp_of_mem fun hp hq hne => ?_
  exact h.live_disjoint (pick_subset hp) (pick_subset hq) hne

theorem Tracked.merge (h : c.Tracked) {indices : List Nat} (hidx : indices.Nodup) :
    (c.merge (defaultStore Id Item) indices).Tracked := by
  obtain ⟨hknown, howner⟩ := merge_liveSegmentOf h.known indices
  have hnext : c.nextSegId ∉ c.groupIds indices := fun hmem =>
    Nat.lt_irrefl _ (h.shape.below _ (pick_subset hmem))
  refine ⟨h.shape.merge _ indices, ?_, ?_, ?_, ?_, ?_, ?_, hknown, ?_⟩
  · rw [merge_sealed _ h.shape]
    intro p hp
    rcases List.mem_append.mp hp with hp | hp
    · obtain ⟨hp, hg⟩ := (mem_drop_sealed h.shape).mp hp
      simp only [isLiveIn_merge_of_not_mem hg]
      exact h.liveNodup p hp
    · split at hp
      · rw [List.mem_singleton.mp hp]
        exact (h.mergedSegment_nodup hidx).sublist (List.filter_sublist.map _)
      · cases hp
  · rw [merge_buffer]
    exact h.bufferNodup
  · rw [merge_buffer, merge_bufferIds]
    exact h.bufferIds
  · rw [merge_bufferIds, merge_tombstones]
    exact h.buffered
  · rw [merge_bufferIds]
    intro j hj seg hlists
    rcases (lists_merge h.shape indices seg j).mp hlists with ⟨hg, hlists⟩ | ⟨rfl, hmem⟩
    · rw [isLiveIn_merge_of_not_mem hg]
      exact h.apart j hj seg hlists
    · obtain ⟨g, -, hlists, hlive⟩ := (mem_mergedSegment_ids h.shape).mp hmem
      rw [h.apart j hj g hlists] at hlive
      cases hlive
  · intro seg j hmark
    rw [merge_superseded, marked_eraseAll] at hmark
    exact (lists_merge h.shape indices seg j).mpr (.inl ⟨hmark.1, h.marked seg j hmark.2⟩)
  · intro j seg
    rw [howner, lists_merge h.shape]
    split
    · rename_i hmem
      obtain ⟨g, hg, hlive⟩ := (mem_mergedSegment_ids h.shape).mp hmem
      have htomb : j ∉ c.tombstones := (isLiveIn_iff.mp hlive.2).1
      constructor
      · rintro ⟨⟩
        exact ⟨.inr ⟨rfl, hmem⟩, (h.isLiveIn_merge_next j).mpr htomb⟩
      · rintro ⟨⟨hseg, hlists⟩ | ⟨rfl, -⟩, hlive'⟩
        · rw [isLiveIn_merge_of_not_mem hseg] at hlive'
          exact absurd (h.sealed_place hlive ⟨hlists, hlive'⟩ ▸ hg) hseg
        · rfl
    · rename_i hmem
      rw [h.owner]
      constructor
      · rintro ⟨hlists, hlive⟩
        have hseg : seg ∉ c.groupIds indices := fun hg =>
          hmem ((mem_mergedSegment_ids h.shape).mpr ⟨seg, hg, hlists, hlive⟩)
        exact ⟨.inl ⟨hseg, hlists⟩, by rwa [isLiveIn_merge_of_not_mem hseg]⟩
      · rintro ⟨⟨hseg, hlists⟩ | ⟨-, hmem'⟩, hlive⟩
        · rw [isLiveIn_merge_of_not_mem hseg] at hlive
          exact ⟨hlists, hlive⟩
        · exact absurd hmem' hmem

theorem Tracked.merge_represents (h : c.Tracked) (indices : List Nat) {m : Id → Option Item}
    (hm : Represents c.LiveCopy m) :
    Represents (c.merge (defaultStore Id Item) indices).LiveCopy m := by
  refine hm.relocate (Option.map fun seg =>
    if seg ∈ c.groupIds indices then c.nextSegId else seg) fun place j v => ?_
  cases place with
  | none => simp [LiveCopy]
  | some seg =>
      simp only [Option.exists, Option.map_none, reduceCtorEq, and_false, Option.map_some,
        Option.some.injEq, false_or]
      constructor
      · rintro ⟨entries, hp, hmem, hlive⟩
        rw [merge_sealed _ h.shape, List.mem_append, mem_drop_sealed h.shape] at hp
        rcases hp with ⟨hp, hg⟩ | hp
        · rw [isLiveIn_merge_of_not_mem hg] at hlive
          exact ⟨seg, ⟨entries, hp, hmem, hlive⟩, (if_neg hg).symm⟩
        · split at hp
          · cases List.mem_singleton.mp hp
            obtain ⟨g, hg, hcopy⟩ := (mem_mergedSegment h.shape).mp hmem
            exact ⟨g, hcopy, (if_pos hg).symm⟩
          · cases hp
      · rintro ⟨seg', hcopy, rfl⟩
        obtain ⟨entries, hp, hmem, hlive⟩ := hcopy
        split
        · rename_i hg
          have hmerged := (mem_mergedSegment h.shape).mpr ⟨seg', hg, entries, hp, hmem, hlive⟩
          have hpos : 0 < (defaultStore Id Item).segmentLen
              (c.mergedSegment (defaultStore Id Item) indices) := List.length_pos_of_mem hmerged
          refine ⟨_, ?_, hmerged, (h.isLiveIn_merge_next j).mpr (isLiveIn_iff.mp hlive).1⟩
          rw [merge_sealed _ h.shape, if_pos hpos]
          exact List.mem_append_right _ (List.mem_singleton.mpr rfl)
        · rename_i hg
          refine ⟨entries, ?_, hmem, (isLiveIn_merge_of_not_mem hg j).trans hlive⟩
          rw [merge_sealed _ h.shape]
          exact List.mem_append_left _ ((mem_drop_sealed h.shape).mpr ⟨hp, hg⟩)

/-- A merge buries nothing. -/
theorem Tracked.buried_merge (h : c.Tracked) (indices : List Nat) {j : Id}
    (hj : (c.merge (defaultStore Id Item) indices).Buried j) : c.Buried j := by
  obtain ⟨htomb, seg, hlists, hmark⟩ := hj
  rw [merge_tombstones] at htomb
  rw [merge_superseded, marked_eraseAll] at hmark
  rcases (lists_merge h.shape indices seg j).mp hlists with ⟨hg, hlists⟩ | ⟨rfl, hmem⟩
  · exact ⟨htomb, seg, hlists, fun hm => hmark ⟨hg, hm⟩⟩
  · obtain ⟨g, -, -, hlive⟩ := (mem_mergedSegment_ids h.shape).mp hmem
    exact absurd htomb (isLiveIn_iff.mp hlive).1

/-! ## What a checkpoint and a failed write change -/

theorem Tracked.allocId (h : c.Tracked) : c.allocId.Tracked :=
  ⟨h.shape.allocId, h.liveNodup, h.bufferNodup, h.bufferIds, h.buffered, h.apart, h.marked,
    h.known, h.owner⟩

/-- Every mark is on a current segment already. -/
theorem Tracked.marked_retain_iff (h : c.Tracked) (seg : Nat) (j : Id) :
    Marked c.retainSuperseded.superseded seg j ↔ Marked c.superseded seg j := by
  rw [retainSuperseded, marked_retain]
  refine and_iff_right_of_imp fun hmark => ?_
  simpa using (h.marked seg j hmark).mem_segmentIds

theorem Tracked.isLiveIn_retain (h : c.Tracked) (seg : Nat) (j : Id) :
    c.retainSuperseded.isLiveIn seg j = c.isLiveIn seg j := by
  rw [Bool.eq_iff_iff, isLiveIn_iff, isLiveIn_iff, h.marked_retain_iff]
  rfl

theorem Tracked.retainSuperseded (h : c.Tracked) : c.retainSuperseded.Tracked :=
  ⟨h.shape.retainSuperseded, by simp only [h.isLiveIn_retain]; exact h.liveNodup,
    h.bufferNodup, h.bufferIds, h.buffered,
    fun j hj seg hlists => (h.isLiveIn_retain seg j).trans (h.apart j hj seg hlists),
    fun seg j hmark => h.marked seg j ((h.marked_retain_iff seg j).mp hmark), h.known,
    fun j seg => by rw [h.isLiveIn_retain seg j]; exact h.owner j seg⟩

theorem Tracked.retain_represents (h : c.Tracked) {m : Id → Option Item}
    (hm : Represents c.LiveCopy m) : Represents c.retainSuperseded.LiveCopy m := by
  refine hm.congr fun place j v => ?_
  cases place with
  | none => exact Iff.rfl
  | some seg =>
      simp only [LiveCopy, h.isLiveIn_retain]
      exact Iff.rfl

theorem Tracked.buried_retain (h : c.Tracked) (j : Id) :
    c.retainSuperseded.Buried j ↔ c.Buried j := by
  rw [Buried, Buried]
  simp only [h.marked_retain_iff]
  exact Iff.rfl

/-! ## Full compaction -/

/-- Where no copy is dead, tombstones and marks can be forgotten. -/
theorem Tracked.purge (h : c.Tracked)
    (hall : ∀ seg j, c.Lists seg j → c.isLiveIn seg j = true) :
    c.purge.Tracked ∧ (∀ j, ¬ c.purge.Buried j) ∧ ∀ {m : Id → Option Item},
      Represents c.LiveCopy m → Represents c.purge.LiveCopy m := by
  have hlive : ∀ seg j, c.purge.isLiveIn seg j = true := fun seg j =>
    isLiveIn_iff.mpr ⟨List.not_mem_nil, not_marked_empty seg j⟩
  refine ⟨⟨h.shape.purge, ?_, h.bufferNodup, h.bufferIds, fun _ _ => List.not_mem_nil, ?_,
    fun seg j hmark => absurd hmark (not_marked_empty seg j), h.known, ?_⟩, ?_, ?_⟩
  · exact fun p hp => liveNodup_mono (h.liveNodup p hp) fun e he _ =>
      hall p.1 e.1 ⟨p.2, hp, List.mem_map.mpr ⟨e, he, rfl⟩⟩
  · intro j hj seg hlists
    rw [← h.apart j hj seg hlists, hlive seg j, hall seg j hlists]
  · intro j seg
    rw [hlive seg j]
    refine (h.owner j seg).trans (and_congr_right fun hlists => ?_)
    rw [hall seg j hlists]
  · rintro j ⟨htomb, -⟩
    exact List.not_mem_nil htomb
  · intro m hm
    refine hm.congr fun place j v => ?_
    cases place with
    | none => exact Iff.rfl
    | some seg =>
        constructor
        · rintro ⟨entries, hp, hmem, -⟩
          exact ⟨entries, hp, hmem, hall seg j ⟨entries, hp, List.mem_map.mpr ⟨_, hmem, rfl⟩⟩⟩
        · rintro ⟨entries, hp, hmem, -⟩
          exact ⟨entries, hp, hmem, hlive seg j⟩

omit [DecidableEq Id] in
/-- The group of all segments. -/
theorem groupIds_range (hc : c.Shape) :
    c.groupIds (List.range c.segments.length) = c.segmentIds := by
  rw [groupIds, ← hc.len, pick_range]

omit [DecidableEq Id] in
/-- Where `compact` has nothing to merge, but something is sealed, nothing is dead. -/
theorem clean_of_sealed {Seg : Type} {c : Contents Id Item Seg} (hneeds : ¬ c.needsCompact)
    {p : Nat × Seg} (hp : p ∈ c.sealed) : c.tombstones = [] ∧ c.superseded.keys = [] := by
  have hpos : 0 < c.segments.length := List.length_pos_of_mem (List.of_mem_zip hp).2
  simp only [needsCompact, Bool.or_eq_true, Bool.and_eq_true, decide_eq_true_eq,
    Bool.not_eq_true', not_or, not_and, Bool.not_eq_false] at hneeds
  obtain ⟨hle, hdead⟩ := hneeds
  obtain ⟨htomb, hsuper⟩ := hdead (by omega)
  exact ⟨List.isEmpty_iff.mp htomb, List.isEmpty_iff.mp hsuper⟩

omit [DecidableEq Id] in
theorem clean_of_not_needsCompact (hneeds : ¬ c.needsCompact) {seg : Nat} {j : Id}
    (hlists : c.Lists seg j) : c.tombstones = [] ∧ c.superseded.keys = [] := by
  obtain ⟨entries, hp, -⟩ := hlists
  exact clean_of_sealed hneeds hp

theorem isLiveIn_of_not_needsCompact (hneeds : ¬ c.needsCompact) {seg : Nat} {j : Id}
    (hlists : c.Lists seg j) : c.isLiveIn seg j = true := by
  obtain ⟨htomb, hsuper⟩ := clean_of_not_needsCompact hneeds hlists
  rw [isLiveIn_iff]
  refine ⟨by simp [htomb], ?_⟩
  rintro ⟨ids, hids, -⟩
  have hmem : seg ∈ c.superseded.keys :=
    AList.mem_keys.mp (AList.lookup_isSome.mp (by rw [hids]; rfl))
  rw [hsuper] at hmem
  exact List.not_mem_nil hmem

/-- A full compaction keeps the map and digs up everything. -/
theorem Tracked.compacted (h : c.Tracked) :
    (c.compacted (defaultStore Id Item)).Tracked ∧
      (∀ j, ¬ (c.compacted (defaultStore Id Item)).Buried j) ∧
        ∀ {m : Id → Option Item}, Represents c.LiveCopy m →
          Represents (c.compacted (defaultStore Id Item)).LiveCopy m := by
  rw [Contents.compacted]
  split
  · have hmerged := h.merge (show (List.range c.segments.length).Nodup from List.nodup_range)
    obtain ⟨htracked, hburied, hmap⟩ := hmerged.purge fun seg j hlists => by
      rcases (lists_merge h.shape _ seg j).mp hlists with ⟨hg, hlists⟩ | ⟨rfl, hmem⟩
      · exact absurd ((groupIds_range h.shape).symm ▸ hlists.mem_segmentIds) hg
      · obtain ⟨g, -, -, hlive⟩ := (mem_mergedSegment_ids h.shape).mp hmem
        exact (h.isLiveIn_merge_next j).mpr (isLiveIn_iff.mp hlive).1
    exact ⟨htracked, hburied, fun hm => hmap (h.merge_represents _ hm)⟩
  · rename_i hneeds
    exact h.purge fun seg j hlists => isLiveIn_of_not_needsCompact hneeds hlists

/-! ## The whole invariant -/

/-- The memory stores the map. -/
structure Stores (c : Contents Id Item (List (Id × Item))) (m : Id → Option Item) : Prop where
  tracked : c.Tracked
  tidy : c.Tidy
  map : Represents c.LiveCopy m

namespace Stores

variable {m : Id → Option Item}

theorem apply (h : c.Stores m) (op : Op Id Item) : (c.apply op).Stores (op.write.run m) :=
  ⟨h.tracked.apply (h.tidy.not_exhumes op), h.tidy.apply h.tracked op,
    h.tracked.apply_represents (h.tidy.not_exhumes op) h.map⟩

theorem flushBuffer (h : c.Stores m) : (c.flushBuffer (defaultStore Id Item)).Stores m where
  tracked := h.tracked.flushBuffer
  tidy := {
    distinct := by
      by_cases hne : c.buffer = []
      · rw [flushBuffer_of_empty c _ hne]
        exact h.tidy.distinct
      · rw [flushBuffer_sealed _ h.tracked.shape hne]
        intro p hp
        rcases List.mem_append.mp hp with hp | hp
        · exact h.tidy.distinct p hp
        · rw [List.mem_singleton.mp hp]
          exact h.tracked.bufferNodup
    unburied := fun j => (h.tracked.buried_flushBuffer j).not.mpr (h.tidy.unburied j) }
  map := h.tracked.flushBuffer_represents h.map

theorem merge (h : c.Stores m) {indices : List Nat} (hidx : indices.Nodup) :
    (c.merge (defaultStore Id Item) indices).Stores m where
  tracked := h.tracked.merge hidx
  tidy := {
    distinct := by
      rw [merge_sealed _ h.tracked.shape]
      intro p hp
      rcases List.mem_append.mp hp with hp | hp
      · exact h.tidy.distinct p ((dropIndices_sublist _ _).mem hp)
      · split at hp
        · rw [List.mem_singleton.mp hp]
          exact h.tracked.mergedSegment_nodup hidx
        · cases hp
    unburied := fun j hj => h.tidy.unburied j (h.tracked.buried_merge indices hj) }
  map := h.tracked.merge_represents indices h.map

theorem allocId (h : c.Stores m) : c.allocId.Stores m :=
  ⟨h.tracked.allocId, ⟨h.tidy.distinct, h.tidy.unburied⟩, h.map⟩

theorem retainSuperseded (h : c.Stores m) : c.retainSuperseded.Stores m :=
  ⟨h.tracked.retainSuperseded,
    ⟨h.tidy.distinct, fun j => (h.tracked.buried_retain j).not.mpr (h.tidy.unburied j)⟩,
    h.tracked.retain_represents h.map⟩

theorem compacted (h : c.Stores m) : (c.compacted (defaultStore Id Item)).Stores m := by
  obtain ⟨htracked, hburied, hmap⟩ := h.tracked.compacted
  refine ⟨htracked, ⟨?_, hburied⟩, hmap h.map⟩
  rw [Contents.compacted]
  split
  · exact (h.merge List.nodup_range).tidy.distinct
  · exact h.tidy.distinct

/-- Replay writes and seals. -/
theorem replay (h : c.Stores m) (flushThreshold : Nat) (ops : List (Op Id Item)) :
    (c.replay (defaultStore Id Item) flushThreshold ops).Stores (history m ops) := by
  induction ops generalizing c m with
  | nil => exact h
  | cons op ops ih =>
      refine ih ?_
      show ((c.apply op).sealFull (defaultStore Id Item) flushThreshold).Stores _
      rw [sealFull]
      split
      · exact (h.apply op).flushBuffer
      · exact h.apply op

end Stores

end Contents

end Segstore
