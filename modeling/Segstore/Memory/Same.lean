import Segstore.Memory.Sealing

/-!
# The same memory

Two memories are the same when they agree in everything that can be asked of
them.  Hash maps and hash sets are compared by what they contain.
-/

namespace Segstore

variable {Id Item : Type} [DecidableEq Id]

namespace Contents

/-- The same segments, ids, buffer, tombstones, superseded sets and owners. -/
structure Same (c c' : Contents Id Item (List (Id × Item))) : Prop where
  segments : c'.segments = c.segments
  segmentIds : c'.segmentIds = c.segmentIds
  nextSegId : c'.nextSegId = c.nextSegId
  buffer : c'.buffer = c.buffer
  bufferIds : ∀ id, id ∈ c'.bufferIds ↔ id ∈ c.bufferIds
  tombstones : c'.tombstones = c.tombstones
  marked : ∀ seg id, Marked c'.superseded seg id ↔ Marked c.superseded seg id
  known : c'.owners.isSome = c.owners.isSome
  owner : ∀ id, c'.liveSegmentOf id = c.liveSegmentOf id

namespace Same

variable {c c' c'' : Contents Id Item (List (Id × Item))}

theorem refl (c : Contents Id Item (List (Id × Item))) : Same c c :=
  ⟨rfl, rfl, rfl, rfl, fun _ => Iff.rfl, rfl, fun _ _ => Iff.rfl, rfl, fun _ => rfl⟩

theorem symm (h : Same c c') : Same c' c :=
  ⟨h.segments.symm, h.segmentIds.symm, h.nextSegId.symm, h.buffer.symm,
    fun id => (h.bufferIds id).symm, h.tombstones.symm, fun seg id => (h.marked seg id).symm,
    h.known.symm, fun id => (h.owner id).symm⟩

theorem sealed_eq (h : Same c c') : c'.sealed = c.sealed := by
  rw [PubState.sealed, PubState.sealed, h.segments, h.segmentIds]

theorem lists_iff (h : Same c c') (seg : Nat) (id : Id) : c'.Lists seg id ↔ c.Lists seg id :=
  lists_congr h.sealed_eq seg id

theorem isLiveIn_eq (h : Same c c') (seg : Nat) (id : Id) :
    c'.isLiveIn seg id = c.isLiveIn seg id := by
  rw [Bool.eq_iff_iff, isLiveIn_iff, isLiveIn_iff, h.tombstones, h.marked]

theorem buried_iff (h : Same c c') (id : Id) : c'.Buried id ↔ c.Buried id := by
  rw [Buried, Buried, h.tombstones]
  simp only [h.lists_iff, h.marked]

theorem liveCopy_iff (h : Same c c') (place : Option Nat) (id : Id) (item : Item) :
    c'.LiveCopy place id item ↔ c.LiveCopy place id item := by
  cases place with
  | none => rw [LiveCopy, LiveCopy, h.buffer]
  | some seg => rw [LiveCopy, LiveCopy, h.sealed_eq, h.isLiveIn_eq]

theorem shape (h : Same c c') (hc : c.Shape) : c'.Shape := by
  refine ⟨?_, ?_, ?_⟩
  · rw [h.segmentIds, h.segments]
    exact hc.len
  · rw [h.segmentIds]
    exact hc.sorted
  · rw [h.segmentIds, h.nextSegId]
    exact hc.below

theorem tracked (h : Same c c') (hc : c.Tracked) : c'.Tracked where
  shape := h.shape hc.shape
  liveNodup := by
    rw [h.sealed_eq]
    simpa only [h.isLiveIn_eq] using hc.liveNodup
  bufferNodup := by
    rw [h.buffer]
    exact hc.bufferNodup
  bufferIds := by
    intro id
    rw [h.bufferIds, h.buffer]
    exact hc.bufferIds id
  buffered := by
    intro id hid
    rw [h.tombstones]
    exact hc.buffered id ((h.bufferIds id).mp hid)
  apart := by
    intro id hid seg hlists
    rw [h.isLiveIn_eq]
    exact hc.apart id ((h.bufferIds id).mp hid) seg ((h.lists_iff seg id).mp hlists)
  marked := fun seg id hmark =>
    (h.lists_iff seg id).mpr (hc.marked seg id ((h.marked seg id).mp hmark))
  known := h.known.trans hc.known
  owner := by
    intro id seg
    rw [h.owner, h.lists_iff, h.isLiveIn_eq]
    exact hc.owner id seg

theorem stores (h : Same c c') {m : Id → Option Item} (hc : c.Stores m) : c'.Stores m where
  tracked := h.tracked hc.tracked
  tidy := ⟨by rw [h.sealed_eq]; exact hc.tidy.distinct,
    fun id => (h.buried_iff id).not.mpr (hc.tidy.unburied id)⟩
  map := hc.map.congr h.liveCopy_iff

/-! ## What follows is the same, too -/

theorem apply (h : Same c c') (op : Op Id Item) : Same (c.apply op) (c'.apply op) := by
  have hcontains : ∀ id, c'.bufferIds.contains id = c.bufferIds.contains id := by
    intro id
    rw [Bool.eq_iff_iff]
    simpa using h.bufferIds id
  refine ⟨?_, ?_, ?_, ?_, fun id => ?_, ?_, fun seg id => ?_, ?_, fun id => ?_⟩
  · simpa using h.segments
  · simpa using h.segmentIds
  · simpa using h.nextSegId
  · cases op with
    | add id item => rw [apply_add_buffer, apply_add_buffer, hcontains, h.buffer]
    | delete id => rw [apply_delete_buffer, apply_delete_buffer, hcontains, h.buffer]
  · cases op with
    | add id' item => rw [mem_apply_add_bufferIds, mem_apply_add_bufferIds, h.bufferIds]
    | delete id' => rw [mem_apply_delete_bufferIds, mem_apply_delete_bufferIds, h.bufferIds]
  · cases op with
    | add id item => rw [apply_add_tombstones, apply_add_tombstones, h.tombstones]
    | delete id => rw [apply_delete_tombstones, apply_delete_tombstones, h.tombstones]
  · rw [apply_marked, apply_marked, h.owner, h.marked]
  · rw [apply_known, apply_known, h.known]
  · rw [apply_liveSegmentOf, apply_liveSegmentOf, h.owner]

theorem flushBuffer (h : Same c c') :
    Same (c.flushBuffer (defaultStore Id Item)) (c'.flushBuffer (defaultStore Id Item)) := by
  by_cases hne : c.buffer = []
  · rwa [flushBuffer_of_empty c _ hne, flushBuffer_of_empty c' _ (h.buffer.trans hne)]
  · have hne' : c'.buffer ≠ [] := by rwa [h.buffer]
    rw [flushBuffer_default hne, flushBuffer_default hne', h.buffer, h.nextSegId]
    refine ⟨?_, ?_, rfl, rfl, fun _ => Iff.rfl, h.tombstones, h.marked, ?_, fun id => ?_⟩
    · exact congrArg (· ++ [c.buffer]) h.segments
    · exact congrArg (· ++ [c.nextSegId]) h.segmentIds
    · simpa using h.known
    · have hknown := h.known
      have howner := h.owner id
      simp only [liveSegmentOf] at howner ⊢
      cases ho : c.owners with
      | none =>
          rw [ho] at hknown
          rw [Option.isNone_iff_eq_none.mp (Option.isSome_eq_false_iff.mp hknown)]
      | some o =>
          rw [ho] at hknown howner
          obtain ⟨o', ho'⟩ := Option.isSome_iff_exists.mp hknown
          rw [ho'] at howner ⊢
          simp only [Option.map_some, Option.bind_some, FinMap.lookup_insertAll] at howner ⊢
          rw [howner]

theorem sealFull (h : Same c c') (flushThreshold : Nat) :
    Same (c.sealFull (defaultStore Id Item) flushThreshold)
      (c'.sealFull (defaultStore Id Item) flushThreshold) := by
  rw [Contents.sealFull, Contents.sealFull, h.buffer]
  split
  · exact h.flushBuffer
  · exact h

end Same

end Contents

end Segstore
