import Segstore.Kernel.Potential
import Segstore.Memory.Shares

/-!
# The account of a memory

A segment weighs its items, or the flush threshold when it has fewer.  For a
consumer whose segments hold no more items than went into them, the weights of
the segments and the buffer are an account: operations and seals bring items in, the
merges of tiers are paid from the potential, and other merges lose potential
only.
-/

namespace Segstore

variable {Id Item Seg F : Type}

/-- A segment holds the items it is built from at most, a merged one those of the
merged segments. -/
structure Store.Sized (st : Store Id Item Seg) : Prop where
  build : ∀ batch, st.segmentLen (st.buildSegment batch) ≤ batch.length
  merge : ∀ segs live, st.segmentLen (st.mergeSegments segs live) ≤ (segs.map st.segmentLen).sum

theorem defaultStore_sized (Id Item : Type) : (defaultStore Id Item).Sized where
  build := fun _ => Nat.le_refl _
  merge := fun segs live => by
    refine (List.length_filter_le _ segs.flatten).trans ?_
    rw [List.length_flatten]
    exact Nat.le_refl _

namespace Contents

variable [DecidableEq Id] {st : Store Id Item Seg} {c : Contents Id Item Seg}

/-- The items of a merged segment were in the group. -/
theorem segmentLen_mergedSegment_le (hst : st.Sized) (c : Contents Id Item Seg)
    (indices : List Nat) : st.segmentLen (c.mergedSegment st indices) ≤
      ((pick c.segments indices).map st.segmentLen).sum := by
  rw [mergedSegment]
  dsimp only
  split
  · -- each segment of the group is filtered for itself first
    refine (hst.merge _ _).trans ?_
    rw [List.map_map]
    calc (((pick c.segments indices).zip (pick c.segmentIds indices)).map
          (st.segmentLen ∘ fun p =>
            st.mergeSegments [p.1] (copyIsLive c.tombstones c.superseded p.2))).sum
        ≤ (((pick c.segments indices).zip (pick c.segmentIds indices)).map fun p =>
            st.segmentLen p.1).sum := by
          refine List.sum_le_sum fun p _ => (hst.merge _ _).trans ?_
          rw [List.map_singleton, List.sum_singleton]
      _ = ((((pick c.segments indices).zip (pick c.segmentIds indices)).map Prod.fst).map
            st.segmentLen).sum := by
          rw [List.map_map]
          rfl
      _ ≤ ((pick c.segments indices).map st.segmentLen).sum := by
          rw [List.zip_eq_zip_take_min, List.map_fst_zip (by simp)]
          exact ((List.take_sublist _ _).map _).sum_le_sum fun _ _ => Nat.zero_le _
  · exact hst.merge _ _

/-- The weights of segments. -/
noncomputable def weights (st : Store Id Item Seg) (floor : Nat) (segs : List Seg) : List ℝ :=
  segs.map fun seg => ((weight st floor seg : Nat) : ℝ)

omit [DecidableEq Id] in
theorem weights_append (floor : Nat) (segs segs' : List Seg) :
    weights st floor (segs ++ segs') = weights st floor segs ++ weights st floor segs' :=
  List.map_append

omit [DecidableEq Id] in
theorem sum_weights (floor : Nat) (segs : List Seg) :
    (weights st floor segs).sum = ((segs.map (weight st floor)).sum : Nat) := by
  rw [Nat.cast_list_sum, List.map_map]
  rfl

/-- The account of the memory. -/
def Accounted (st : Store Id Item Seg) (limit g : ℝ) (floor budget work : Nat)
    (c : Contents Id Item Seg) : Prop :=
  Account limit floor g budget work (weights st floor c.segments) c.buffer.length

/-- What the memory holds. -/
def holdings (st : Store Id Item Seg) (floor : Nat) (c : Contents Id Item Seg) : Nat :=
  (c.segments.map (weight st floor)).sum + c.buffer.length

omit [DecidableEq Id] in
theorem floor_le_weights (floor : Nat) (segs : List Seg) :
    ∀ x ∈ weights st floor segs, (floor : ℝ) ≤ x := by
  intro x hx
  obtain ⟨seg, -, rfl⟩ := List.mem_map.mp hx
  exact Nat.cast_le.mpr (le_max_right _ _)

namespace Accounted

variable {limit g : ℝ} {floor budget work extra : Nat} {c' : Contents Id Item Seg}

omit [DecidableEq Id] in
theorem start (hfloor : 1 ≤ floor) (c : Contents Id Item Seg) :
    Accounted st limit g floor (holdings st floor c) 0 c := by
  have hstart : Account limit floor g ((weights st floor c.segments).sum + c.buffer.length) 0
      (weights st floor c.segments) c.buffer.length :=
    .start (Nat.cast_pos.mpr hfloor) (floor_le_weights floor _) (Nat.cast_nonneg _)
  rw [sum_weights, ← Nat.cast_add] at hstart
  rw [Accounted, Nat.cast_zero]
  exact hstart

omit [DecidableEq Id] in
/-- There are no more segments than what came in. -/
theorem length_le (hfloor : 1 ≤ floor) (h : Accounted st limit g floor budget work c) :
    c.segments.length ≤ budget := by
  have hsum : (weights st floor c.segments).sum ≤ budget :=
    (le_add_of_nonneg_right h.nonneg).trans h.mass
  rw [sum_weights] at hsum
  have hone : ∀ n ∈ c.segments.map (weight st floor), 1 ≤ n := by
    intro n hn
    obtain ⟨seg, -, rfl⟩ := List.mem_map.mp hn
    exact hfloor.trans (le_max_right _ _)
  have hlen := List.length_le_sum_of_one_le _ hone
  rw [List.length_map] at hlen
  exact hlen.trans (Nat.cast_le.mp hsum)

omit [DecidableEq Id] in
/-- The buffer grows by no more than what comes in. -/
theorem accept (hroom : Real.log floor ≤ limit) (h : Accounted st limit g floor budget work c)
    (hsegments : c'.segments = c.segments)
    (hbuffer : c'.buffer.length ≤ c.buffer.length + extra) :
    Accounted st limit g floor (budget + extra) work c' := by
  rw [Accounted, hsegments]
  refine Account.accept h hroom (Nat.cast_nonneg _) ?_
  have hle : (c'.buffer.length : ℝ) ≤ c.buffer.length + extra := by exact_mod_cast hbuffer
  rw [Nat.cast_add]
  linarith

/-- A seal brings in what the buffer lacks of the threshold. -/
theorem flushBuffer (hst : st.Sized) (hfloor : 1 ≤ floor) (hroom : Real.log floor ≤ limit)
    (hlimit : Real.log (budget + extra : Nat) + 1 ≤ limit)
    (hextra : c.buffer ≠ [] → floor ≤ c.buffer.length + extra)
    (h : Accounted st limit g floor budget work c) :
    Accounted st limit g floor (budget + extra) work (c.flushBuffer st) := by
  by_cases hbuffer : c.buffer = []
  · rw [flushBuffer_of_empty c st hbuffer]
    exact h.accept hroom rfl (Nat.le_add_right _ _)
  · have hf : (0 : ℝ) < floor := Nat.cast_pos.mpr hfloor
    have hfull : floor ≤ max c.buffer.length floor := le_max_right _ _
    have hmore : Account limit floor g (budget + extra : Nat) work
        (weights st floor c.segments) (max c.buffer.length floor : Nat) := by
      refine Account.accept h hroom (Nat.cast_nonneg _) ?_
      have hle : max c.buffer.length floor ≤ c.buffer.length + extra :=
        max_le (Nat.le_add_right _ _) (hextra hbuffer)
      have hcast : ((max c.buffer.length floor : Nat) : ℝ) ≤ c.buffer.length + extra := by
        exact_mod_cast hle
      rw [Nat.cast_add]
      linarith
    have hsealed := (hmore.sealed hf (Nat.cast_le.mpr hfull)).perm List.perm_append_comm
    -- the segment weighs what was in the buffer, or less
    have hcombined := hsealed.combine hf hlimit (List.cons_ne_nil _ _)
      (.inr ⟨(weight st floor (st.buildSegment c.buffer) : Nat), rfl,
        Nat.cast_le.mpr (le_max_right _ _), by
          rw [List.sum_singleton]
          exact Nat.cast_le.mpr (max_le_max_right _ (hst.build _))⟩)
    rw [Accounted, flushBuffer_segments st hbuffer, flushBuffer_buffer, weights_append,
      List.length_nil, Nat.cast_zero]
    exact hcombined

/-- A merge puts one part, or none, in the place of a group. -/
theorem group (hst : st.Sized) (h : Accounted st limit g floor budget work c)
    {indices : List Nat} (hpos : Positions c.segments.length indices) (hne : indices ≠ []) :
    Account limit floor g budget work (weights st floor (pick c.segments indices) ++
        weights st floor (dropIndices indices c.segments)) c.buffer.length ∧
      weights st floor (pick c.segments indices) ≠ [] ∧
      ((st.segmentLen (c.mergedSegment st indices) : Nat) : ℝ) ≤
        (weights st floor (pick c.segments indices)).sum ∧
      ∃ new, weights st floor (c.merge st indices).segments =
          weights st floor (dropIndices indices c.segments) ++ new ∧
        (new = [] ∨ ∃ t, new = [t] ∧ (floor : ℝ) ≤ t ∧
          t ≤ (weights st floor (pick c.segments indices)).sum) := by
  obtain ⟨i, hi⟩ := List.exists_mem_of_ne_nil indices hne
  obtain ⟨seg, hseg⟩ : ∃ seg, seg ∈ pick c.segments indices :=
    ⟨_, mem_pick.mpr ⟨i, hi, List.getElem?_eq_getElem (hpos.2 i hi)⟩⟩
  have hlen : st.segmentLen (c.mergedSegment st indices) ≤
      ((pick c.segments indices).map (weight st floor)).sum :=
    (segmentLen_mergedSegment_le hst c indices).trans
      (List.sum_le_sum fun _ _ => le_max_left _ _)
  have hfull : floor ≤ ((pick c.segments indices).map (weight st floor)).sum :=
    (le_max_right _ _).trans
      (List.single_le_sum (fun _ _ => Nat.zero_le _) _ (List.mem_map_of_mem hseg))
  refine ⟨?_, ?_, ?_, ?_⟩
  · refine Account.perm h ?_
    rw [← weights_append]
    exact (pick_append_dropIndices_perm hpos).map _
  · exact List.ne_nil_of_mem (List.mem_map_of_mem hseg)
  · rw [sum_weights]
    exact Nat.cast_le.mpr hlen
  · rw [merge_segments, weights_append]
    refine ⟨_, rfl, ?_⟩
    split
    · refine .inr ⟨_, rfl, Nat.cast_le.mpr (le_max_right _ _), ?_⟩
      rw [sum_weights]
      exact Nat.cast_le.mpr (max_le hlen hfull)
    · exact .inl rfl

/-- Any merge keeps the account. -/
theorem merge (hst : st.Sized) (hfloor : 1 ≤ floor) (hlimit : Real.log budget + 1 ≤ limit)
    {indices : List Nat} (hpos : Positions c.segments.length indices) (hne : indices ≠ [])
    (h : Accounted st limit g floor budget work c) :
    Accounted st limit g floor budget work (c.merge st indices) := by
  obtain ⟨hparts, hgroup, -, new, hnew, hsmall⟩ := h.group hst hpos hne
  rw [Accounted, hnew, merge_buffer]
  exact hparts.combine (Nat.cast_pos.mpr hfloor) hlimit hgroup hsmall

omit [DecidableEq Id] in
/-- Only the segments and the buffer count. -/
theorem congr (h : Accounted st limit g floor budget work c)
    (hsegments : c'.segments = c.segments) (hbuffer : c'.buffer = c.buffer) :
    Accounted st limit g floor budget work c' := by
  rw [Accounted, hsegments, hbuffer]
  exact h

/-- Rounds of merges keep the account. -/
theorem mergesBy (hst : st.Sized) (hfloor : 1 ≤ floor) (hlimit : Real.log budget + 1 ≤ limit)
    {next : Contents Id Item Seg → Option (List Nat)} (hnext : Picks next) (fuel : Nat)
    (h : Accounted st limit g floor budget work c) :
    Accounted st limit g floor budget work (c.mergesBy st next fuel).1 := by
  induction fuel generalizing c with
  | zero => exact h
  | succ fuel ih =>
      rw [Contents.mergesBy]
      split
      · exact h
      · rename_i group hgroup
        obtain ⟨hpos, htwo⟩ := hnext hgroup
        exact ih (h.merge hst hfloor hlimit hpos
          (List.ne_nil_of_length_pos (Nat.lt_of_lt_of_le Nat.zero_lt_two htwo)))

/-- A full compaction keeps the account. -/
theorem compacted (hst : st.Sized) (hfloor : 1 ≤ floor) (hlimit : Real.log budget + 1 ≤ limit)
    (h : Accounted st limit g floor budget work c) :
    Accounted st limit g floor budget work (c.compacted st) := by
  rw [Contents.compacted]
  split
  · rename_i hneeds
    have hsome : 0 < c.segments.length := by
      simp only [needsCompact, Bool.or_eq_true, Bool.and_eq_true, decide_eq_true_eq] at hneeds
      omega
    refine congr (h.merge hst hfloor hlimit (positions_range _) ?_) rfl rfl
    exact List.ne_nil_of_length_pos (by rwa [List.length_range])
  · exact h.congr rfl rfl

/-- A merge of small shares pays for the items it writes. -/
theorem mergeShares (hst : st.Sized) (hfloor : 1 ≤ floor)
    (hlimit : Real.log budget + 1 ≤ limit) (hg : 1 ≤ g) {indices : List Nat}
    (hpos : Positions c.segments.length indices) (hne : indices ≠ [])
    (hshare : ∀ x ∈ weights st floor (pick c.segments indices),
      g * x ≤ (weights st floor (pick c.segments indices)).sum)
    (h : Accounted st limit g floor budget work c) :
    Accounted st limit g floor budget
      (work + st.segmentLen (c.mergedSegment st indices)) (c.merge st indices) := by
  obtain ⟨hparts, hgroup, hwork, new, hnew, hsmall⟩ := h.group hst hpos hne
  rw [Accounted, hnew, merge_buffer, Nat.cast_add]
  exact hparts.merge (Nat.cast_pos.mpr hfloor) hlimit hgroup hg hshare hwork hsmall

end Accounted

end Contents

end Segstore
