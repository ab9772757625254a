import Segstore.Model.Contents

/-!
# The shape of the memory

For every `Store`: segments and segment ids run in parallel, the ids strictly
increase and lie below `nextSegId`.  The operations on the memory keep this
shape, and a segment id never changes what it stands for: `Grows c c'` says
that every sealed segment of `c'` is one of `c` or has an id that `c` had not
yet allocated.
-/

namespace Segstore

variable {Id Item Seg : Type}

namespace Contents

/-- Parallel lists, strictly increasing ids below `nextSegId`. -/
structure Shape (c : Contents Id Item Seg) : Prop where
  len : c.segmentIds.length = c.segments.length
  sorted : c.segmentIds.Pairwise (· < ·)
  below : ∀ k ∈ c.segmentIds, k < c.nextSegId

/-- Sealed segments are those of before or have new ids. -/
structure Grows (c c' : Contents Id Item Seg) : Prop where
  next_le : c.nextSegId ≤ c'.nextSegId
  mem_sealed : ∀ p ∈ c'.sealed, p ∈ c.sealed ∨ c.nextSegId ≤ p.1

theorem Grows.refl (c : Contents Id Item Seg) : Grows c c :=
  ⟨Nat.le_refl _, fun _ hp => .inl hp⟩

theorem Grows.trans {c₁ c₂ c₃ : Contents Id Item Seg} (h₁ : Grows c₁ c₂) (h₂ : Grows c₂ c₃) :
    Grows c₁ c₃ := by
  refine ⟨h₁.next_le.trans h₂.next_le, fun p hp => ?_⟩
  rcases h₂.mem_sealed p hp with hp | hp
  · exact h₁.mem_sealed p hp
  · exact .inr (h₁.next_le.trans hp)

theorem fst_mem_of_mem_sealed {v : PubState Id Seg} {p : Nat × Seg} (hp : p ∈ v.sealed) :
    p.1 ∈ v.segmentIds :=
  (List.of_mem_zip hp).1

/-- With distinct ids a sealed segment is determined by its id. -/
theorem sealed_unique {v : PubState Id Seg} (hsorted : v.segmentIds.Pairwise (· < ·))
    {k : Nat} {seg seg' : Seg} (h : (k, seg) ∈ v.sealed) (h' : (k, seg') ∈ v.sealed) :
    seg = seg' := by
  obtain ⟨i, hi, hget⟩ := List.mem_iff_getElem.mp h
  obtain ⟨j, hj, hget'⟩ := List.mem_iff_getElem.mp h'
  simp only [PubState.sealed, List.getElem_zip, Prod.mk.injEq] at hget hget'
  have hnd : v.segmentIds.Nodup := hsorted.imp fun h => Nat.ne_of_lt h
  have hij : i = j := (List.Nodup.getElem_inj_iff hnd).mp (hget.1.trans hget'.1.symm)
  subst hij
  exact hget.2.symm.trans hget'.2

/-- Every segment id has its segment. -/
theorem exists_mem_sealed {v : PubState Id Seg}
    (hlen : v.segmentIds.length = v.segments.length) {k : Nat} (hk : k ∈ v.segmentIds) :
    ∃ seg, (k, seg) ∈ v.sealed := by
  obtain ⟨i, hi, rfl⟩ := List.mem_iff_getElem.mp hk
  refine ⟨v.segments.get ⟨i, hlen ▸ hi⟩, List.mem_iff_getElem.mpr ⟨i, ?_, ?_⟩⟩
  · simp only [PubState.sealed, List.length_zip]
    omega
  · simp only [PubState.sealed, List.getElem_zip, List.get_eq_getElem]

theorem map_fst_sealed {v : PubState Id Seg}
    (hlen : v.segmentIds.length = v.segments.length) :
    v.sealed.map Prod.fst = v.segmentIds :=
  List.map_fst_zip (Nat.le_of_eq hlen)

/-! ## Operations -/

variable [DecidableEq Id] (c : Contents Id Item Seg) (st : Store Id Item Seg)

@[simp] theorem supersedeSealedCopy_segments (id : Id) :
    (c.supersedeSealedCopy id).segments = c.segments := by
  rw [supersedeSealedCopy]
  split <;> rfl

@[simp] theorem supersedeSealedCopy_segmentIds (id : Id) :
    (c.supersedeSealedCopy id).segmentIds = c.segmentIds := by
  rw [supersedeSealedCopy]
  split <;> rfl

@[simp] theorem supersedeSealedCopy_nextSegId (id : Id) :
    (c.supersedeSealedCopy id).nextSegId = c.nextSegId := by
  rw [supersedeSealedCopy]
  split <;> rfl

@[simp] theorem apply_segments (op : Op Id Item) : (c.apply op).segments = c.segments := by
  cases op <;> simp only [apply] <;> split <;> simp

@[simp] theorem apply_segmentIds (op : Op Id Item) :
    (c.apply op).segmentIds = c.segmentIds := by
  cases op <;> simp only [apply] <;> split <;> simp

@[simp] theorem apply_nextSegId (op : Op Id Item) : (c.apply op).nextSegId = c.nextSegId := by
  cases op <;> simp only [apply] <;> split <;> simp

theorem apply_sealed (op : Op Id Item) : (c.apply op).sealed = c.sealed := by
  simp [PubState.sealed]

theorem apply_delete_buffer_length_le (id : Id) :
    (c.apply (.delete id)).buffer.length ≤ c.buffer.length := by
  have hsuper : ∀ c : Contents Id Item Seg, (c.supersedeSealedCopy id).buffer = c.buffer := by
    intro c
    rw [supersedeSealedCopy]
    split <;> rfl
  simp only [apply, hsuper]
  split
  · exact List.length_filter_le _ _
  · exact Nat.le_refl _

/-- An operation buffers one entry at most. -/
theorem apply_buffer_length_le (op : Op Id Item) :
    (c.apply op).buffer.length ≤ c.buffer.length + 1 := by
  cases op with
  | add id item =>
      have hsuper : ∀ c : Contents Id Item Seg, (c.supersedeSealedCopy id).buffer = c.buffer := by
        intro c
        rw [supersedeSealedCopy]
        split <;> rfl
      simp only [apply, hsuper, List.length_append, List.length_singleton]
      split
      · exact Nat.add_le_add_right (List.length_filter_le _ _) 1
      · exact Nat.le_refl _
  | delete id => exact (apply_delete_buffer_length_le c id).trans (Nat.le_succ _)

theorem flushBuffer_of_empty (h : c.buffer = []) : c.flushBuffer st = c := by
  simp [flushBuffer, h]

@[simp] theorem flushBuffer_buffer : (c.flushBuffer st).buffer = [] := by
  rw [flushBuffer]
  split
  · rename_i h
    simpa using h
  · rfl

@[simp] theorem flushBuffer_tombstones : (c.flushBuffer st).tombstones = c.tombstones := by
  rw [flushBuffer]
  split <;> rfl

@[simp] theorem flushBuffer_superseded : (c.flushBuffer st).superseded = c.superseded := by
  rw [flushBuffer]
  split <;> rfl

variable {c}

theorem flushBuffer_segmentIds (h : c.buffer ≠ []) :
    (c.flushBuffer st).segmentIds = c.segmentIds ++ [c.nextSegId] := by
  simp [flushBuffer, h, allocId]

theorem flushBuffer_segments (h : c.buffer ≠ []) :
    (c.flushBuffer st).segments = c.segments ++ [st.buildSegment c.buffer] := by
  simp [flushBuffer, h, allocId]

theorem flushBuffer_nextSegId (h : c.buffer ≠ []) :
    (c.flushBuffer st).nextSegId = c.nextSegId + 1 := by
  simp [flushBuffer, h, allocId]

theorem flushBuffer_sealed (hc : c.Shape) (h : c.buffer ≠ []) :
    (c.flushBuffer st).sealed = c.sealed ++ [(c.nextSegId, st.buildSegment c.buffer)] := by
  rw [PubState.sealed, flushBuffer_segmentIds st h, flushBuffer_segments st h,
    List.zip_append hc.len]
  rfl

/-- Appending a segment under a new id keeps the shape. -/
theorem sorted_concat {ids : List Nat} {k : Nat} (hs : ids.Pairwise (· < ·))
    (hk : ∀ j ∈ ids, j < k) : (ids ++ [k]).Pairwise (· < ·) := by
  rw [List.pairwise_append]
  exact ⟨hs, List.pairwise_singleton _ _, by simpa using hk⟩

theorem Shape.apply (hc : c.Shape) (op : Op Id Item) : (c.apply op).Shape where
  len := by simpa using hc.len
  sorted := by simpa using hc.sorted
  below := by simpa using hc.below

theorem Shape.flushBuffer (hc : c.Shape) : (c.flushBuffer st).Shape := by
  by_cases h : c.buffer = []
  · rwa [flushBuffer_of_empty c st h]
  · refine ⟨?_, ?_, ?_⟩
    · simp [flushBuffer_segmentIds st h, flushBuffer_segments st h, hc.len]
    · rw [flushBuffer_segmentIds st h]
      exact sorted_concat hc.sorted hc.below
    · rw [flushBuffer_segmentIds st h, flushBuffer_nextSegId st h]
      intro k hk
      rcases List.mem_append.mp hk with hk | hk
      · exact Nat.lt_succ_of_lt (hc.below k hk)
      · rw [List.mem_singleton.mp hk]
        exact Nat.lt_succ_self _

theorem Grows.apply (op : Op Id Item) : Grows c (c.apply op) :=
  ⟨by simp, fun p hp => .inl (by rwa [apply_sealed] at hp)⟩

theorem Grows.flushBuffer (hc : c.Shape) : Grows c (c.flushBuffer st) := by
  by_cases h : c.buffer = []
  · rw [flushBuffer_of_empty c st h]
    exact .refl c
  · refine ⟨by rw [flushBuffer_nextSegId st h]; exact Nat.le_succ _, fun p hp => ?_⟩
    rw [flushBuffer_sealed st hc h, List.mem_append, List.mem_singleton] at hp
    rcases hp with hp | rfl
    · exact .inl hp
    · exact .inr (Nat.le_refl _)

theorem Shape.sealFull (hc : c.Shape) (flushThreshold : Nat) :
    (c.sealFull st flushThreshold).Shape := by
  rw [Contents.sealFull]
  split
  · exact hc.flushBuffer st
  · exact hc

theorem Grows.sealFull (hc : c.Shape) (flushThreshold : Nat) :
    Grows c (c.sealFull st flushThreshold) := by
  rw [Contents.sealFull]
  split
  · exact .flushBuffer st hc
  · exact .refl c

/-- Replay keeps the shape and seals under new ids only. -/
theorem Shape.replay (hc : c.Shape) (flushThreshold : Nat) (ops : List (Op Id Item)) :
    (c.replay st flushThreshold ops).Shape ∧ Grows c (c.replay st flushThreshold ops) := by
  induction ops generalizing c with
  | nil => exact ⟨hc, .refl c⟩
  | cons op ops ih =>
      have hstep := (hc.apply op).sealFull st flushThreshold
      obtain ⟨hshape, hgrows⟩ := ih hstep
      exact ⟨hshape,
        ((Grows.apply op).trans (.sealFull st (hc.apply op) flushThreshold)).trans hgrows⟩

omit [DecidableEq Id] in
theorem Shape.allocId (hc : c.Shape) : c.allocId.Shape :=
  ⟨hc.len, hc.sorted, fun k hk => Nat.lt_succ_of_lt (hc.below k hk)⟩

omit [DecidableEq Id] in
theorem Grows.allocId : Grows c c.allocId :=
  ⟨Nat.le_succ _, fun _ hp => .inl hp⟩

omit [DecidableEq Id] in
theorem Shape.purge (hc : c.Shape) : c.purge.Shape := ⟨hc.len, hc.sorted, hc.below⟩

omit [DecidableEq Id] in
theorem Grows.purge : Grows c c.purge := ⟨Nat.le_refl _, fun _ hp => .inl hp⟩

omit [DecidableEq Id] in
theorem Shape.retainSuperseded (hc : c.Shape) : c.retainSuperseded.Shape :=
  ⟨hc.len, hc.sorted, hc.below⟩

omit [DecidableEq Id] in
theorem Grows.retainSuperseded : Grows c c.retainSuperseded :=
  ⟨Nat.le_refl _, fun _ hp => .inl hp⟩

/-! ## Merging -/

theorem installMerged_none_sealed (hlen : c.segmentIds.length = c.segments.length)
    (indices : List Nat) (merged : Seg) :
    (c.installMerged st indices merged none).sealed = dropIndices indices c.sealed :=
  (dropIndices_zip indices c.segmentIds c.segments hlen).symm

theorem installMerged_some_sealed (hlen : c.segmentIds.length = c.segments.length)
    (indices : List Nat) (merged : Seg) (id : Nat) :
    (c.installMerged st indices merged (some id)).sealed =
      dropIndices indices c.sealed ++ [(id, merged)] := by
  have hdrop := length_dropIndices_congr indices hlen
  rw [PubState.sealed, PubState.sealed, dropIndices_zip indices c.segmentIds c.segments hlen]
  exact List.zip_append hdrop

@[simp] theorem installMerged_nextSegId (indices : List Nat) (merged : Seg)
    (mergedId : Option Nat) :
    (c.installMerged st indices merged mergedId).nextSegId = c.nextSegId := by
  cases mergedId <;> rfl

@[simp] theorem installMerged_buffer (indices : List Nat) (merged : Seg)
    (mergedId : Option Nat) :
    (c.installMerged st indices merged mergedId).buffer = c.buffer := by
  cases mergedId <;> rfl

@[simp] theorem merge_buffer (indices : List Nat) :
    (c.merge st indices).buffer = c.buffer := by
  rw [merge]
  split <;> simp [Contents.allocId]

theorem Shape.installMerged_none (hc : c.Shape) (indices : List Nat) (merged : Seg) :
    (c.installMerged st indices merged none).Shape where
  len := length_dropIndices_congr indices hc.len
  sorted := hc.sorted.sublist (dropIndices_sublist _ _)
  below := fun k hk => hc.below k ((dropIndices_sublist _ _).mem hk)

theorem Shape.installMerged_some (hc : c.Shape) (indices : List Nat) (merged : Seg) :
    (c.allocId.installMerged st indices merged (some c.nextSegId)).Shape where
  len := by
    show (dropIndices indices c.segmentIds ++ [c.nextSegId]).length =
      (dropIndices indices c.segments ++ [merged]).length
    rw [List.length_append, List.length_append, length_dropIndices_congr indices hc.len]
    rfl
  sorted := sorted_concat (hc.sorted.sublist (dropIndices_sublist indices _))
    fun k hk => hc.below k ((dropIndices_sublist _ _).mem hk)
  below := by
    intro k hk
    show k < c.nextSegId + 1
    rcases List.mem_append.mp hk with hk | hk
    · exact Nat.lt_succ_of_lt (hc.below k ((dropIndices_sublist _ _).mem hk))
    · rw [List.mem_singleton.mp hk]
      exact Nat.lt_succ_self _

theorem Shape.merge (hc : c.Shape) (indices : List Nat) : (c.merge st indices).Shape := by
  rw [Contents.merge]
  split
  · exact hc.installMerged_some st indices _
  · exact hc.installMerged_none st indices _

/-- What is sealed after a merge: the segments outside the group, then the
result unless it is empty. -/
theorem merge_sealed (hc : c.Shape) (indices : List Nat) :
    (c.merge st indices).sealed = dropIndices indices c.sealed ++
      (if 0 < st.segmentLen (c.mergedSegment st indices) then
        [(c.nextSegId, c.mergedSegment st indices)] else []) := by
  rw [Contents.merge]
  split
  · exact installMerged_some_sealed (c := c.allocId) st hc.len indices _ _
  · rw [List.append_nil]
    exact installMerged_none_sealed st hc.len indices _

theorem Grows.merge (hc : c.Shape) (indices : List Nat) : Grows c (c.merge st indices) := by
  constructor
  · rw [Contents.merge]
    split
    · rw [installMerged_nextSegId]
      exact Nat.le_succ _
    · rw [installMerged_nextSegId]
  · intro p hp
    rw [merge_sealed st hc, List.mem_append] at hp
    rcases hp with hp | hp
    · exact .inl ((dropIndices_sublist _ _).mem hp)
    · split at hp
      · rw [List.mem_singleton.mp hp]
        exact .inr (Nat.le_refl _)
      · cases hp

theorem merge_segments (c : Contents Id Item Seg) (indices : List Nat) :
    (c.merge st indices).segments = dropIndices indices c.segments ++
      (if 0 < st.segmentLen (c.mergedSegment st indices) then
        [c.mergedSegment st indices] else []) := by
  rw [merge]
  split
  · rfl
  · rw [List.append_nil]
    rfl

/-- A merge takes its group away and adds its result unless that is empty. -/
theorem merge_length_add {indices : List Nat} (hpos : Positions c.segments.length indices) :
    (c.merge st indices).segments.length + indices.length = c.segments.length +
      (if 0 < st.segmentLen (c.mergedSegment st indices) then 1 else 0) := by
  have hadd := length_dropIndices_add hpos
  have hlen : (c.merge st indices).segments.length = (dropIndices indices c.segments).length +
      (if 0 < st.segmentLen (c.mergedSegment st indices) then 1 else 0) := by
    rw [merge_segments, List.length_append]
    split
    · rfl
    · rfl
  omega

/-- A merge of at least two segments leaves fewer. -/
theorem merge_length_lt {indices : List Nat} (hpos : Positions c.segments.length indices)
    (h2 : 2 ≤ indices.length) : (c.merge st indices).segments.length < c.segments.length := by
  have hadd := merge_length_add st hpos
  split at hadd
  · omega
  · omega

end Contents

end Segstore
