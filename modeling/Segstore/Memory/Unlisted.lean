import Segstore.Memory.Sealing

/-!
# Stores that do not list ids

`Store.Unlisted` is what a store without `item_ids` promises about its segments,
whatever they are.  A writer over such a store has nothing but tombstones to
hide older copies with.  `Covers` says that no tombstone hides an id of the
map, that a copy of its value is kept, and that every copy of any other id is
hidden.  Merges keep that in whatever order they take the segments, and a full
compaction may forget the tombstones because it went through all of them.
-/

namespace Segstore

variable {Id Item Seg : Type}

/-- A store that does not list ids.  `entries` tells what is in a segment: a build
keeps the batch, a merge keeps what is accepted, the length counts entries. -/
structure Store.Unlisted (st : Store Id Item Seg) (entries : Seg → List (Id × Item)) : Prop where
  itemIds : ∀ seg, st.itemIds seg = none
  build : ∀ batch e, e ∈ entries (st.buildSegment batch) ↔ e ∈ batch
  merge : ∀ segs live e, e ∈ entries (st.mergeSegments segs live) ↔
    (∃ seg ∈ segs, e ∈ entries seg) ∧ live e.1 = true
  len : ∀ seg, st.segmentLen seg = (entries seg).length

theorem untrackedStore_unlisted (liveLen : List (Id × Item) → (Id → Bool) → Option Nat) :
    (untrackedStore Id Item liveLen).Unlisted id where
  itemIds := fun _ => rfl
  build := fun _ _ => Iff.rfl
  merge := fun segs live e => by
    show e ∈ segs.flatten.filter (fun entry => live entry.1) ↔ _
    rw [List.mem_filter, List.mem_flatten]
    rfl
  len := fun _ => rfl

namespace Contents

variable [DecidableEq Id]

/-- Nothing is marked, no id has an owner, and over segments the owners are
known to be missing. -/
structure Ownerless (c : Contents Id Item Seg) : Prop where
  shape : c.Shape
  buffered : c.Buffered
  unmarked : ∀ seg id, ¬ Marked c.superseded seg id
  unowned : ∀ id, c.liveSegmentOf id = none
  unknown : c.segments ≠ [] → c.owners = none

variable {st : Store Id Item Seg} {entries : Seg → List (Id × Item)} {c : Contents Id Item Seg}

namespace Ownerless

/-- Sealed copies live unless they are deleted. -/
theorem isLiveIn_iff (h : c.Ownerless) (seg : Nat) (id : Id) :
    c.isLiveIn seg id = true ↔ id ∉ c.tombstones := by
  rw [Contents.isLiveIn_iff]
  exact and_iff_left (h.unmarked seg id)

theorem apply (h : c.Ownerless) (op : Op Id Item) : (c.apply op).Ownerless where
  shape := h.shape.apply op
  buffered := h.buffered.apply op
  unmarked := by
    intro seg id hmark
    rcases (apply_marked op seg id).mp hmark with ⟨-, howner⟩ | hmark
    · rw [h.unowned] at howner
      cases howner
    · exact h.unmarked seg id hmark
  unowned := by
    intro id
    rw [apply_liveSegmentOf, h.unowned, ite_self]
  unknown := by
    intro hne
    rw [apply_segments] at hne
    have hknown := apply_known (c := c) op
    rw [h.unknown hne] at hknown
    simpa using hknown

/-- The first seal finds out that the store does not list ids. -/
theorem flushBuffer_eq (h : c.Ownerless) (hst : ∀ seg, st.itemIds seg = none)
    (hbuffer : c.buffer ≠ []) :
    c.flushBuffer st = { c with
      nextSegId := c.nextSegId + 1
      owners := none
      segments := c.segments ++ [st.buildSegment c.buffer]
      segmentIds := c.segmentIds ++ [c.nextSegId]
      buffer := []
      bufferIds := [] } := by
  by_cases hnil : c.segments = []
  · simp [Contents.flushBuffer, hbuffer, hnil, allocId, hst]
  · simp [Contents.flushBuffer, hbuffer, hnil, allocId, hst, h.unknown hnil]

theorem flushBuffer (h : c.Ownerless) (hst : ∀ seg, st.itemIds seg = none) :
    (c.flushBuffer st).Ownerless := by
  by_cases hbuffer : c.buffer = []
  · rwa [flushBuffer_of_empty _ _ hbuffer]
  have hshape := h.shape.flushBuffer st
  rw [h.flushBuffer_eq hst hbuffer] at hshape ⊢
  exact ⟨hshape, ⟨List.nodup_nil, by simp, by simp⟩, h.unmarked, fun _ => rfl, fun _ => rfl⟩

theorem merge (h : c.Ownerless) (hst : ∀ seg, st.itemIds seg = none) (indices : List Nat) :
    (c.merge st indices).Ownerless := by
  have hdrop : dropIndices indices c.segments ≠ [] → c.owners = none := by
    intro hne
    refine h.unknown fun hnil => hne ?_
    rw [hnil]
    exact List.sublist_nil.mp (dropIndices_sublist indices [])
  have howners : (∀ id, (c.merge st indices).liveSegmentOf id = none) ∧
      ((c.merge st indices).segments ≠ [] → (c.merge st indices).owners = none) := by
    rw [Contents.merge]
    split
    · have hnone : ∀ o : Option (FinMap Id Nat),
          (o.bind fun _ => (none : Option (FinMap Id Nat))) = none := fun o => by cases o <;> rfl
      exact ⟨fun id => by simp [installMerged, liveSegmentOf, hst, hnone],
        fun _ => by simp [installMerged, hst, hnone]⟩
    · exact ⟨h.unowned, hdrop⟩
  refine ⟨h.shape.merge _ indices, ⟨?_, ?_, ?_⟩, fun seg id hmark => ?_, howners.1, howners.2⟩
  · rw [merge_buffer]
    exact h.buffered.nodup
  · rw [merge_buffer, merge_bufferIds]
    exact h.buffered.ids
  · rw [merge_bufferIds, merge_tombstones]
    exact h.buffered.untombstoned
  · rw [merge_superseded, marked_eraseAll] at hmark
    exact h.unmarked seg id hmark.2

theorem purge (h : c.Ownerless) : c.purge.Ownerless where
  shape := h.shape.purge
  buffered := ⟨h.buffered.nodup, h.buffered.ids, fun _ _ => List.not_mem_nil⟩
  unmarked := not_marked_empty
  unowned := h.unowned
  unknown := h.unknown

theorem retainSuperseded (h : c.Ownerless) : c.retainSuperseded.Ownerless where
  shape := h.shape.retainSuperseded
  buffered := ⟨h.buffered.nodup, h.buffered.ids, h.buffered.untombstoned⟩
  unmarked := fun seg id hmark => h.unmarked seg id ((marked_retain _ seg id).mp hmark).2
  unowned := h.unowned
  unknown := h.unknown

/-- Without marks, both branches of `merge_group` keep what is not tombstoned. -/
theorem mem_mergedSegment (h : c.Ownerless) (hst : st.Unlisted entries) {indices : List Nat}
    {e : Id × Item} :
    e ∈ entries (c.mergedSegment st indices) ↔
      (∃ p ∈ pick c.sealed indices, e ∈ entries p.2) ∧ e.1 ∉ c.tombstones := by
  have hsegs : pick c.segments indices = (pick c.sealed indices).map Prod.snd := by
    rw [← pick_map, PubState.sealed, List.map_snd_zip (Nat.le_of_eq h.shape.len.symm)]
  have hids : pick c.segmentIds indices = (pick c.sealed indices).map Prod.fst := by
    rw [← pick_map, map_fst_sealed h.shape.len]
  have hlive : ∀ g, copyIsLive c.tombstones c.superseded g e.1 = true ↔ e.1 ∉ c.tombstones :=
    fun g => h.isLiveIn_iff g e.1
  rw [mergedSegment]
  dsimp only
  split
  · rw [hst.merge, hsegs, hids, List.zip_map', List.map_map]
    simp only [List.mem_map, Function.comp_apply, exists_exists_and_eq_and, hst.merge,
      List.mem_singleton, exists_eq_left, hlive, and_true]
    constructor
    · rintro ⟨p, hp, hmem, htomb⟩
      exact ⟨⟨p, hp, hmem⟩, htomb⟩
    · rintro ⟨⟨p, hp, hmem⟩, htomb⟩
      exact ⟨p, hp, hmem, htomb⟩
  · rw [hst.merge, hsegs]
    simp only [List.mem_map, exists_exists_and_eq_and, Bool.not_eq_true', List.contains_eq_mem,
      decide_eq_false_iff_not]

end Ownerless

/-- A copy of the pair that nothing hides: in the buffer, or in a sealed segment
in which the id is live. -/
def HasLive (entries : Seg → List (Id × Item)) (c : Contents Id Item Seg) (id : Id)
    (item : Item) : Prop :=
  (id, item) ∈ c.buffer ∨
    ∃ p ∈ c.sealed, (id, item) ∈ entries p.2 ∧ c.isLiveIn p.1 id = true

/-- Only what is not in the map is tombstoned, what is in the map has a copy of
its value, and copies of anything else are tombstoned. -/
structure Covers (entries : Seg → List (Id × Item)) (c : Contents Id Item Seg)
    (m : Id → Option Item) : Prop where
  ownerless : c.Ownerless
  bufferValue : ∀ id item, (id, item) ∈ c.buffer → m id = some item
  deleted : ∀ id ∈ c.tombstones, m id = none
  value : ∀ id item, m id = some item →
    (id, item) ∈ c.buffer ∨ ∃ p ∈ c.sealed, (id, item) ∈ entries p.2
  absent : ∀ id, m id = none →
    id ∈ c.tombstones ∨ ∀ p ∈ c.sealed, ∀ item, (id, item) ∉ entries p.2

namespace Covers

variable {m : Id → Option Item}

theorem hasLive (h : c.Covers entries m) {id : Id} {item : Item} (hvalue : m id = some item) :
    c.HasLive entries id item := by
  have htomb : id ∉ c.tombstones := fun hid =>
    absurd ((h.deleted id hid).symm.trans hvalue) (by simp)
  refine (h.value id item hvalue).imp_right ?_
  rintro ⟨p, hp, hmem⟩
  exact ⟨p, hp, hmem, (h.ownerless.isLiveIn_iff p.1 id).mpr htomb⟩

theorem not_hasLive (h : c.Covers entries m) {id : Id} (hgone : m id = none) (item : Item) :
    ¬ c.HasLive entries id item := by
  rintro (hmem | ⟨p, hp, hmem, hlive⟩)
  · exact absurd (hgone.symm.trans (h.bufferValue id item hmem)) (by simp)
  · rcases h.absent id hgone with htomb | hno
    · exact (h.ownerless.isLiveIn_iff p.1 id).mp hlive htomb
    · exact hno p hp item hmem

/-- A write makes one copy, or one tombstone. -/
theorem apply (h : c.Covers entries m) (op : Op Id Item) :
    (c.apply op).Covers entries (op.write.run m) := by
  have hself : op.write.run m op.id = op.write.value := by
    rw [Write.run_apply]
    cases op with
    | add id item => exact if_pos rfl
    | delete id => exact if_pos rfl
  refine ⟨h.ownerless.apply op, fun id item hmem => ?_, fun id htomb => ?_,
    fun id item hvalue => ?_, fun id hgone => ?_⟩
  · rcases (h.ownerless.buffered.mem_apply op id item).mp hmem with ⟨hne, hmem⟩ | rfl
    · rw [Op.run_of_ne hne]
      exact h.bufferValue id item hmem
    · exact hself
  · by_cases hne : id = op.id
    · subst hne
      cases op with
      | add id item =>
          rw [apply_add_tombstones, List.mem_filter] at htomb
          simp at htomb
      | delete id => exact hself
    · rw [Op.run_of_ne hne]
      exact h.deleted id ((mem_apply_tombstones op hne).mp htomb)
  · rw [apply_sealed]
    by_cases hne : id = op.id
    · subst hne
      rw [hself] at hvalue
      cases op with
      | add id item' =>
          obtain rfl : item' = item := Option.some.inj hvalue
          exact .inl ((h.ownerless.buffered.mem_apply _ _ _).mpr (.inr rfl))
      | delete id => cases hvalue
    · rw [Op.run_of_ne hne] at hvalue
      exact (h.value id item hvalue).imp_left fun hmem =>
        (h.ownerless.buffered.mem_apply op id item).mpr (.inl ⟨hne, hmem⟩)
  · rw [apply_sealed]
    by_cases hne : id = op.id
    · subst hne
      rw [hself] at hgone
      cases op with
      | add id item => cases hgone
      | delete id =>
          rw [apply_delete_tombstones, Op.id_delete, List.mem_insert_iff]
          exact .inl (.inl rfl)
    · rw [Op.run_of_ne hne] at hgone
      rw [mem_apply_tombstones op hne]
      exact h.absent id hgone

/-- A seal moves the copies of the buffer into a segment. -/
theorem flushBuffer (h : c.Covers entries m) (hst : st.Unlisted entries) :
    (c.flushBuffer st).Covers entries m := by
  by_cases hbuffer : c.buffer = []
  · rwa [flushBuffer_of_empty _ _ hbuffer]
  have hsealed : (c.flushBuffer st).sealed =
      c.sealed ++ [(c.nextSegId, st.buildSegment c.buffer)] :=
    flushBuffer_sealed _ h.ownerless.shape hbuffer
  have hownerless := h.ownerless.flushBuffer hst.itemIds
  have htomb : (c.flushBuffer st).tombstones = c.tombstones := by
    rw [h.ownerless.flushBuffer_eq hst.itemIds hbuffer]
  refine ⟨hownerless, fun id item hmem => ?_, fun id hid => ?_, fun id item hvalue => ?_,
    fun id hgone => ?_⟩
  · rw [flushBuffer_buffer] at hmem
    exact absurd hmem List.not_mem_nil
  · exact h.deleted id (htomb ▸ hid)
  · rw [hsealed]
    refine .inr ?_
    rcases h.value id item hvalue with hmem | ⟨p, hp, hmem⟩
    · exact ⟨_, List.mem_append_right _ (List.mem_singleton.mpr rfl), (hst.build _ _).mpr hmem⟩
    · exact ⟨p, List.mem_append_left _ hp, hmem⟩
  · rw [hsealed, htomb]
    refine (h.absent id hgone).imp_right fun hno p hp item hmem => ?_
    rcases List.mem_append.mp hp with hp | hp
    · exact hno p hp item hmem
    · rw [List.mem_singleton.mp hp, hst.build] at hmem
      exact absurd (hgone.symm.trans (h.bufferValue id item hmem)) (by simp)

theorem sealFull (h : c.Covers entries m) (hst : st.Unlisted entries) (flushThreshold : Nat) :
    (c.sealFull st flushThreshold).Covers entries m := by
  rw [Contents.sealFull]
  split
  · exact h.flushBuffer hst
  · exact h

/-- What is sealed after a merge: the other segments, and what the group has and
no tombstone hides. -/
theorem mem_sealed_merge (h : c.Covers entries m) (hst : st.Unlisted entries)
    (indices : List Nat) (e : Id × Item) :
    (∃ p ∈ (c.merge st indices).sealed, e ∈ entries p.2) ↔
      (∃ p ∈ dropIndices indices c.sealed, e ∈ entries p.2) ∨
        (∃ p ∈ pick c.sealed indices, e ∈ entries p.2) ∧ e.1 ∉ c.tombstones := by
  rw [merge_sealed _ h.ownerless.shape, ← h.ownerless.mem_mergedSegment hst]
  simp only [List.mem_append, or_and_right, exists_or]
  refine or_congr Iff.rfl ⟨?_, fun hmem => ?_⟩
  · rintro ⟨p, hp, hmem⟩
    split at hp
    · rwa [List.mem_singleton.mp hp] at hmem
    · cases hp
  · have hlen : 0 < st.segmentLen (c.mergedSegment st indices) := by
      rw [hst.len]
      exact List.length_pos_of_mem hmem
    rw [if_pos hlen]
    exact ⟨_, List.mem_singleton.mpr rfl, hmem⟩

/-- A merge of any group. -/
theorem merge (h : c.Covers entries m) (hst : st.Unlisted entries) (indices : List Nat) :
    (c.merge st indices).Covers entries m := by
  refine ⟨h.ownerless.merge hst.itemIds indices, ?_, ?_, fun id item hvalue => ?_,
    fun id hgone => ?_⟩
  · rw [merge_buffer]
    exact h.bufferValue
  · rw [merge_tombstones]
    exact h.deleted
  · rw [merge_buffer, h.mem_sealed_merge hst]
    have htomb : id ∉ c.tombstones := fun hid =>
      absurd ((h.deleted id hid).symm.trans hvalue) (by simp)
    refine (h.value id item hvalue).imp_right ?_
    rintro ⟨p, hp, hmem⟩
    rcases mem_pick_or_mem_dropIndices hp indices with hp | hp
    · exact .inr ⟨⟨p, hp, hmem⟩, htomb⟩
    · exact .inl ⟨p, hp, hmem⟩
  · rw [merge_tombstones]
    refine (h.absent id hgone).imp_right fun hno p hp item hmem => ?_
    rcases (h.mem_sealed_merge hst indices (id, item)).mp ⟨p, hp, hmem⟩ with
      ⟨q, hq, hmem⟩ | ⟨⟨q, hq, hmem⟩, -⟩
    · exact hno q ((dropIndices_sublist _ _).mem hq) item hmem
    · exact hno q (pick_subset hq) item hmem

/-- Forgetting the tombstones that hide nothing. -/
theorem purge (h : c.Covers entries m)
    (hclear : ∀ id ∈ c.tombstones, ∀ p ∈ c.sealed, ∀ item, (id, item) ∉ entries p.2) :
    c.purge.Covers entries m where
  ownerless := h.ownerless.purge
  bufferValue := h.bufferValue
  deleted := fun _ hid => absurd hid List.not_mem_nil
  value := h.value
  absent := fun id hgone => .inr ((h.absent id hgone).elim (hclear id) (fun hno => hno))

/-- The merge of everything leaves no deleted id in any segment. -/
theorem compacted (h : c.Covers entries m) (hst : st.Unlisted entries) :
    (c.compacted st).Covers entries m := by
  rw [Contents.compacted]
  split
  · have hlen : c.segments.length = c.sealed.length := by
      rw [PubState.sealed, List.length_zip, h.ownerless.shape.len, Nat.min_self]
    refine (h.merge hst _).purge fun id htomb p hp item hmem => ?_
    rw [merge_tombstones] at htomb
    rcases (h.mem_sealed_merge hst _ (id, item)).mp ⟨p, hp, hmem⟩ with ⟨q, hq, -⟩ | ⟨-, hid⟩
    · rw [hlen, dropIndices_range] at hq
      exact List.not_mem_nil hq
    · exact hid htomb
  · rename_i hneeds
    refine h.purge fun id htomb p hp => ?_
    rw [(clean_of_sealed hneeds hp).1] at htomb
    exact absurd htomb List.not_mem_nil

theorem retainSuperseded (h : c.Covers entries m) : c.retainSuperseded.Covers entries m :=
  ⟨h.ownerless.retainSuperseded, h.bufferValue, h.deleted, h.value, h.absent⟩

theorem replay (h : c.Covers entries m) (hst : st.Unlisted entries) (flushThreshold : Nat)
    (ops : List (Op Id Item)) :
    (c.replay st flushThreshold ops).Covers entries (history m ops) := by
  induction ops generalizing c m with
  | nil => exact h
  | cons op ops ih => exact ih ((h.apply op).sealFull hst flushThreshold)

end Covers

end Contents

end Segstore
