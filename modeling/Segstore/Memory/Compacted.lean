import Segstore.Model.Open
import Segstore.Memory.Sealing

/-!
# What a full compaction leaves

Where no segment is empty, a full compaction brings the memory into a normal
form that the live pairs determine up to one segment id: nothing is dead, and
all pairs are in one segment.  In the normal form a compaction changes nothing.
-/

namespace Segstore

variable {Id Item : Type}

/-! ## Segments with entries -/

/-- No segment is empty. -/
def Filled (segments : List (List (Id × Item))) : Prop :=
  ∀ segment ∈ segments, segment ≠ []

namespace Contents

variable [DecidableEq Id] {c : Contents Id Item (List (Id × Item))}

theorem filled_apply (h : Filled c.segments) (op : Op Id Item) :
    Filled (c.apply op).segments := by
  rwa [apply_segments]

theorem filled_flushBuffer (h : Filled c.segments) :
    Filled (c.flushBuffer (defaultStore Id Item)).segments := by
  by_cases hne : c.buffer = []
  · rwa [flushBuffer_of_empty c _ hne]
  · rw [flushBuffer_segments _ hne]
    intro segment hmem
    rcases List.mem_append.mp hmem with hmem | hmem
    · exact h segment hmem
    · rw [List.mem_singleton.mp hmem]
      exact hne

theorem filled_merge (h : Filled c.segments) (indices : List Nat) :
    Filled (c.merge (defaultStore Id Item) indices).segments := by
  have hdrop : Filled (dropIndices indices c.segments) := fun segment hmem =>
    h segment ((dropIndices_sublist _ _).mem hmem)
  rw [merge]
  split
  · rename_i hlen
    intro segment hmem
    rcases List.mem_append.mp hmem with hmem | hmem
    · exact hdrop segment hmem
    · rw [List.mem_singleton.mp hmem]
      exact List.length_pos_iff.mp hlen
  · exact hdrop

theorem filled_compacted (h : Filled c.segments) :
    Filled (c.compacted (defaultStore Id Item)).segments := by
  rw [compacted]
  split
  · exact filled_merge h _
  · exact h

theorem filled_replay (h : Filled c.segments) (flushThreshold : Nat) (ops : List (Op Id Item)) :
    Filled (c.replay (defaultStore Id Item) flushThreshold ops).segments := by
  induction ops generalizing c with
  | nil => exact h
  | cons op ops ih =>
      refine ih ?_
      show Filled ((c.apply op).sealFull (defaultStore Id Item) flushThreshold).segments
      rw [sealFull]
      split
      · exact filled_flushBuffer (filled_apply h op)
      · exact filled_apply h op

end Contents

/-- Nothing is buffered before replay, and the segments are the given ones. -/
theorem boot_segments [DecidableEq Id] {Seg : Type} {st : Store Id Item Seg}
    {m : LoadedManifest Id} {segs : List Seg} {boot : Contents Id Item Seg}
    (h : m.boot st segs = .ok boot) : boot.segments = segs := by
  rw [LoadedManifest.boot] at h
  split at h
  · cases h
    rfl
  · cases h

namespace Contents

variable [DecidableEq Id] {c : Contents Id Item (List (Id × Item))}

/-! ## Live pairs -/

/-- What is all live is its own live part. -/
theorem filter_isLiveIn {seg : Nat} {entries : List (Id × Item)}
    (h : ∀ e ∈ entries, c.isLiveIn seg e.1 = true) :
    entries.filter (fun e => c.isLiveIn seg e.1) = entries :=
  List.filter_eq_self.mpr h

theorem Tracked.livePairs_flushBuffer (h : c.Tracked) :
    (c.flushBuffer (defaultStore Id Item)).livePairs = c.livePairs := by
  by_cases hne : c.buffer = []
  · rw [flushBuffer_of_empty c _ hne]
  · have hbuffer : c.buffer.filter (fun e => c.isLiveIn c.nextSegId e.1) = c.buffer := by
      refine filter_isLiveIn fun e he => isLiveIn_iff.mpr ⟨?_, h.not_marked_next e.1⟩
      exact h.buffered e.1 ((h.bufferIds e.1).mpr (List.mem_map_of_mem he))
    simp only [livePairs, isLiveIn_flushBuffer]
    rw [flushBuffer_sealed _ h.shape hne, flushBuffer_buffer, List.append_nil,
      List.flatMap_append, List.flatMap_singleton]
    exact congrArg _ hbuffer

/-- The merge of all segments makes the live pairs of an empty buffer. -/
theorem mergedSegment_range (hc : c.Shape) (hbuffer : c.buffer = []) :
    c.mergedSegment (defaultStore Id Item) (List.range c.segments.length) = c.livePairs := by
  have hlen : c.segments.length = c.sealed.length := by
    rw [PubState.sealed, List.length_zip, hc.len, Nat.min_self]
  rw [mergedSegment_default hc.len, hlen, pick_range, livePairs, hbuffer, List.append_nil]

/-! ## The normal form -/

/-- Nothing is dead, and the pairs are in one segment. -/
structure Normal (c : Contents Id Item (List (Id × Item))) (pairs : List (Id × Item)) : Prop where
  buffer : c.buffer = []
  tombstones : c.tombstones = []
  superseded : c.superseded = ∅
  none : pairs = [] → c.segmentIds = [] ∧ c.segments = []
  one : pairs ≠ [] → ∃ k, c.segmentIds = [k] ∧ c.segments = [pairs]

/-- A compaction that merges. -/
theorem merge_range (hc : c.Shape) (hbuffer : c.buffer = []) :
    (c.merge (defaultStore Id Item) (List.range c.segments.length)).purge.Normal c.livePairs := by
  have hids : dropIndices (List.range c.segments.length) c.segmentIds = [] := by
    rw [← hc.len]
    exact dropIndices_range _
  have hmerged := mergedSegment_range hc hbuffer
  refine ⟨(merge_buffer _ _).trans hbuffer, rfl, rfl, fun hnone => ?_, fun hone => ?_⟩
  · have hempty : ¬ 0 < (defaultStore Id Item).segmentLen
        (c.mergedSegment (defaultStore Id Item) (List.range c.segments.length)) := by
      rw [hmerged, hnone]
      exact Nat.lt_irrefl 0
    rw [merge, if_neg hempty]
    exact ⟨hids, dropIndices_range _⟩
  · have hsome : 0 < (defaultStore Id Item).segmentLen
        (c.mergedSegment (defaultStore Id Item) (List.range c.segments.length)) := by
      rw [hmerged]
      exact List.length_pos_iff.mpr hone
    rw [merge, if_pos hsome]
    refine ⟨c.nextSegId, ?_, ?_⟩
    · exact congrArg (· ++ [c.nextSegId]) hids
    · rw [hmerged]
      exact congrArg (· ++ [c.livePairs]) (dropIndices_range c.segments)

/-- A compaction that has nothing to merge. -/
theorem purge_normal (hc : c.Shape) (hbuffer : c.buffer = []) (hfilled : Filled c.segments)
    (hneeds : ¬ c.needsCompact) : c.purge.Normal c.livePairs := by
  have hlen := hc.len
  cases hsegs : c.segments with
  | nil =>
      rw [hsegs, List.length_nil, List.length_eq_zero_iff] at hlen
      have hpairs : c.livePairs = [] := by
        simp [livePairs, PubState.sealed, hlen, hbuffer]
      exact ⟨hbuffer, rfl, rfl, fun _ => ⟨hlen, hsegs⟩, fun hone => absurd hpairs hone⟩
  | cons segment rest =>
      have hrest : rest = [] := by
        rw [needsCompact, hsegs] at hneeds
        cases rest with
        | nil => rfl
        | cons segment' rest => simp at hneeds
      subst hrest
      rw [hsegs, List.length_singleton, List.length_eq_one_iff] at hlen
      obtain ⟨k, hids⟩ := hlen
      have hsealed : c.sealed = [(k, segment)] := by
        rw [PubState.sealed, hids, hsegs]
        rfl
      -- no metadata, hence no dead copy
      have hpairs : c.livePairs = segment := by
        rw [livePairs, hsealed, hbuffer, List.append_nil, List.flatMap_singleton]
        refine filter_isLiveIn fun e he => isLiveIn_iff.mpr ?_
        have hlists : c.Lists k e.1 :=
          ⟨segment, hsealed ▸ List.mem_singleton.mpr rfl, List.mem_map_of_mem he⟩
        obtain ⟨htomb, hsuper⟩ := clean_of_not_needsCompact hneeds hlists
        refine ⟨by simp [htomb], ?_⟩
        rintro ⟨ids, hlookup, -⟩
        have hkey : k ∈ c.superseded.keys :=
          AList.mem_keys.mp (AList.lookup_isSome.mp (by rw [hlookup]; rfl))
        rw [hsuper] at hkey
        exact List.not_mem_nil hkey
      have hne : segment ≠ [] := hfilled segment (hsegs ▸ List.mem_singleton.mpr rfl)
      refine ⟨hbuffer, rfl, rfl, fun hnone => absurd (hpairs.symm.trans hnone) hne, fun _ => ?_⟩
      rw [hpairs]
      exact ⟨k, hids, hsegs⟩

/-- A full compaction of an empty buffer makes the normal form. -/
theorem compacted_normal (hc : c.Shape) (hbuffer : c.buffer = []) (hfilled : Filled c.segments) :
    (c.compacted (defaultStore Id Item)).Normal c.livePairs := by
  rw [compacted]
  split
  · exact merge_range hc hbuffer
  · rename_i hneeds
    exact purge_normal hc hbuffer hfilled hneeds

namespace Normal

variable {pairs : List (Id × Item)}

omit [DecidableEq Id] in
/-- There is nothing left to merge. -/
theorem not_needsCompact (h : c.Normal pairs) : ¬ c.needsCompact := by
  have hlen : c.segments.length ≤ 1 := by
    by_cases hpairs : pairs = []
    · rw [(h.none hpairs).2]
      exact Nat.zero_le 1
    · obtain ⟨k, -, hsegs⟩ := h.one hpairs
      rw [hsegs]
      exact Nat.le_refl 1
  simp [needsCompact, h.tombstones, h.superseded, Nat.not_lt_of_le hlen]

theorem flushBuffer (h : c.Normal pairs) : c.flushBuffer (defaultStore Id Item) = c :=
  flushBuffer_of_empty c _ h.buffer

omit [DecidableEq Id] in
theorem purge (h : c.Normal pairs) : c.purge = c := by
  rw [Contents.purge, ← h.tombstones, ← h.superseded]

omit [DecidableEq Id] in
theorem retainSuperseded (h : c.Normal pairs) : c.retainSuperseded = c := by
  have hnone : (∅ : FinMap Nat (List Id)).retain (fun seg => c.segmentIds.contains seg) = ∅ := rfl
  rw [Contents.retainSuperseded, h.superseded, hnone, ← h.superseded]

end Normal

end Contents

end Segstore
