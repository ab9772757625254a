import Mathlib.Data.List.Sort
import Mathlib.Data.List.Perm.Subperm
import Segstore.Kernel.BinarySearch

/-!
# Elements of a list by position

`pick` collects the elements at given positions, `dropIndices` the elements at
all other positions.  The second one looks every position up in the sorted
list of positions to drop.
-/

namespace Segstore

universe u v

variable {α : Type u} {β : Type v}

/-- The elements at the given positions, in the order of the positions. -/
def pick (xs : List α) (indices : List Nat) : List α :=
  indices.filterMap (fun i => xs[i]?)

/-- The elements at the other positions, in their order. -/
def dropIndices (indices : List Nat) (xs : List α) : List α :=
  let mergedIdx := indices.insertionSort (· ≤ ·)
  (xs.zipIdx.filter (fun p => (binarySearch mergedIdx p.2).isNone)).map Prod.fst

/-- Positions that occur once and lie inside a list of length `n`. -/
def Positions (n : Nat) (indices : List Nat) : Prop :=
  indices.Nodup ∧ ∀ i ∈ indices, i < n

theorem positions_range (n : Nat) : Positions n (List.range n) :=
  ⟨List.nodup_range, fun _ hi => List.mem_range.mp hi⟩

theorem mem_pick {indices : List Nat} {xs : List α} {x : α} :
    x ∈ pick xs indices ↔ ∃ i ∈ indices, xs[i]? = some x := by
  simp [pick, List.mem_filterMap]

theorem pick_range (xs : List α) : pick xs (List.range xs.length) = xs := by
  apply List.ext_getElem?
  intro i
  induction xs generalizing i with
  | nil => rfl
  | cons x xs ih =>
      have hcons : pick (x :: xs) (List.range (xs.length + 1)) =
          x :: pick xs (List.range xs.length) := by
        rw [pick, List.range_succ_eq_map, List.filterMap_cons, List.filterMap_map]
        rfl
      rw [List.length_cons, hcons]
      cases i with
      | zero => rfl
      | succ i => exact ih i

theorem pick_zip (xs : List α) (ys : List β) (indices : List Nat)
    (hlen : xs.length = ys.length) :
    pick (xs.zip ys) indices = (pick xs indices).zip (pick ys indices) := by
  induction indices with
  | nil => rfl
  | cons i indices ih =>
      simp only [pick] at ih ⊢
      by_cases hi : i < xs.length
      · have hzip : (xs.zip ys)[i]? = some (xs[i], ys.get ⟨i, hlen ▸ hi⟩) := by
          rw [List.getElem?_eq_getElem (by simpa [← hlen] using hi), List.getElem_zip,
            List.get_eq_getElem]
        rw [List.filterMap_cons_some hzip,
          List.filterMap_cons_some (List.getElem?_eq_getElem hi),
          List.filterMap_cons_some (List.getElem?_eq_getElem (hlen ▸ hi)), ih]
        rfl
      · have hx : xs[i]? = none := List.getElem?_eq_none (by omega)
        have hy : ys[i]? = none := List.getElem?_eq_none (by omega)
        have hzip : (xs.zip ys)[i]? = none :=
          List.getElem?_eq_none (by simp only [List.length_zip]; omega)
        rw [List.filterMap_cons_none hzip, List.filterMap_cons_none hx,
          List.filterMap_cons_none hy, ih]

/-- A position is dropped exactly when it is listed. -/
theorem isNone_binarySearch_insertionSort (indices : List Nat) (i : Nat) :
    (binarySearch (indices.insertionSort (· ≤ ·)) i).isNone = decide (i ∉ indices) := by
  have hmem := binarySearch_isSome (List.pairwise_insertionSort (· ≤ ·) indices) i
  rw [List.mem_insertionSort] at hmem
  by_cases hi : i ∈ indices
  · have hsome := hmem.mpr hi
    simp only [hi, not_true_eq_false, decide_false]
    cases h : binarySearch (indices.insertionSort (· ≤ ·)) i with
    | none => simp [h] at hsome
    | some j => rfl
  · have hnone := mt hmem.mp hi
    simp only [hi, not_false_eq_true, decide_true]
    simpa using hnone

theorem dropIndices_eq (indices : List Nat) (xs : List α) :
    dropIndices indices xs =
      (xs.zipIdx.filter (fun p => decide (p.2 ∉ indices))).map Prod.fst := by
  simp only [dropIndices, isNone_binarySearch_insertionSort]

theorem mem_dropIndices {indices : List Nat} {xs : List α} {x : α} :
    x ∈ dropIndices indices xs ↔ ∃ i, i ∉ indices ∧ xs[i]? = some x := by
  rw [dropIndices_eq]
  simp only [List.mem_map, List.mem_filter, List.mem_zipIdx_iff_getElem?, decide_eq_true_eq]
  constructor
  · rintro ⟨⟨y, i⟩, ⟨hy, hi⟩, rfl⟩
    exact ⟨i, hi, hy⟩
  · rintro ⟨i, hi, hx⟩
    exact ⟨(x, i), ⟨hx, hi⟩, rfl⟩

theorem dropIndices_sublist (indices : List Nat) (xs : List α) :
    (dropIndices indices xs).Sublist xs := by
  have h := List.Sublist.map Prod.fst
    (List.filter_sublist (p := fun p : α × Nat => decide (p.2 ∉ indices)) (l := xs.zipIdx))
  rwa [List.zipIdx_map_fst, ← dropIndices_eq] at h

theorem dropIndices_map (f : α → β) (xs : List α) (indices : List Nat) :
    dropIndices indices (xs.map f) = (dropIndices indices xs).map f := by
  have hfilter : (xs.zipIdx.map (Prod.map f id)).filter (fun p => decide (p.2 ∉ indices)) =
      (xs.zipIdx.filter fun p => decide (p.2 ∉ indices)).map (Prod.map f id) := List.filter_map
  rw [dropIndices_eq, dropIndices_eq, List.zipIdx_map, hfilter, List.map_map, List.map_map]
  rfl

/-- Every element is picked or stays. -/
theorem mem_pick_or_mem_dropIndices {xs : List α} {x : α} (h : x ∈ xs) (indices : List Nat) :
    x ∈ pick xs indices ∨ x ∈ dropIndices indices xs := by
  obtain ⟨i, hi⟩ := List.getElem?_of_mem h
  by_cases hmem : i ∈ indices
  · exact .inl (mem_pick.mpr ⟨i, hmem, hi⟩)
  · exact .inr (mem_dropIndices.mpr ⟨i, hmem, hi⟩)

/-- Nothing stays when all positions are dropped. -/
theorem dropIndices_range (xs : List α) : dropIndices (List.range xs.length) xs = [] := by
  rw [dropIndices_eq, List.map_eq_nil_iff, List.filter_eq_nil_iff]
  intro p hp
  have hlt := List.snd_lt_of_mem_zipIdx hp
  simpa using hlt

theorem dropIndices_zip (indices : List Nat) (xs : List α) (ys : List β)
    (hlen : xs.length = ys.length) :
    dropIndices indices (xs.zip ys) = (dropIndices indices xs).zip (dropIndices indices ys) := by
  simp only [dropIndices_eq]
  suffices h : ∀ n, (((xs.zip ys).zipIdx n).filter
        (fun p => decide (p.2 ∉ indices))).map Prod.fst =
      (((xs.zipIdx n).filter (fun p => decide (p.2 ∉ indices))).map Prod.fst).zip
        (((ys.zipIdx n).filter (fun p => decide (p.2 ∉ indices))).map Prod.fst) from h 0
  induction xs generalizing ys with
  | nil =>
      intro n
      rfl
  | cons x xs ih =>
      cases ys with
      | nil => simp at hlen
      | cons y ys =>
          intro n
          have htail := ih ys (by simpa using hlen) (n + 1)
          by_cases hn : n ∈ indices
          · simpa [hn] using htail
          · simpa [hn] using htail

theorem length_dropIndices (indices : List Nat) (xs : List α) :
    (dropIndices indices xs).length =
      ((List.range xs.length).filter (fun i => decide (i ∉ indices))).length := by
  rw [dropIndices_eq, List.length_map, List.range_eq_range', ← List.zipIdx_map_snd 0 xs,
    List.filter_map, List.length_map]
  rfl

theorem length_dropIndices_congr (indices : List Nat) {xs : List α} {ys : List β}
    (hlen : xs.length = ys.length) :
    (dropIndices indices xs).length = (dropIndices indices ys).length := by
  rw [length_dropIndices, length_dropIndices, hlen]

/-- What is dropped and what stays add up. -/
theorem length_dropIndices_add {indices : List Nat} {xs : List α}
    (hpos : Positions xs.length indices) :
    (dropIndices indices xs).length + indices.length = xs.length := by
  have hperm : ((List.range xs.length).filter (fun i => decide (i ∈ indices))).Perm indices := by
    refine (List.perm_ext_iff_of_nodup (List.nodup_range.filter _) hpos.1).mpr fun i => ?_
    simp only [List.mem_filter, List.mem_range, decide_eq_true_eq, and_iff_right_iff_imp]
    exact hpos.2 i
  have hsplit := List.length_eq_length_filter_add (l := List.range xs.length)
    (fun i => decide (i ∈ indices))
  rw [List.length_range, hperm.length_eq] at hsplit
  rw [length_dropIndices]
  simp only [decide_not] at hsplit ⊢
  omega

/-- What stays is picked as well, at the positions that are not listed. -/
theorem dropIndices_eq_pick (indices : List Nat) (xs : List α) :
    dropIndices indices xs =
      pick xs ((List.range xs.length).filter fun i => decide (i ∉ indices)) := by
  rw [dropIndices_eq, pick, List.range_eq_range', ← List.zipIdx_map_snd 0 xs, List.filter_map,
    List.filterMap_map, ← List.filterMap_eq_map]
  refine List.filterMap_congr fun p hp => ?_
  exact (List.mem_zipIdx_iff_getElem?.mp (List.mem_of_mem_filter hp)).symm

theorem pick_append_dropIndices_perm {indices : List Nat} {xs : List α}
    (hpos : Positions xs.length indices) :
    (pick xs indices ++ dropIndices indices xs).Perm xs := by
  have hlisted : indices.Perm ((List.range xs.length).filter fun i => decide (i ∈ indices)) := by
    refine (List.perm_ext_iff_of_nodup hpos.1 (List.nodup_range.filter _)).mpr fun i => ?_
    simp only [List.mem_filter, List.mem_range, decide_eq_true_eq]
    exact ⟨fun hi => ⟨hpos.2 i hi, hi⟩, fun hi => hi.2⟩
  have hall : (indices ++ (List.range xs.length).filter fun i => decide (i ∉ indices)).Perm
      (List.range xs.length) := by
    refine (hlisted.append_right _).trans ?_
    simpa only [decide_not] using List.filter_append_perm (fun i => decide (i ∈ indices)) _
  calc pick xs indices ++ dropIndices indices xs
      = pick xs (indices ++ (List.range xs.length).filter fun i => decide (i ∉ indices)) := by
        rw [dropIndices_eq_pick, pick, pick, pick, List.filterMap_append]
    List.Perm _ (pick xs (List.range xs.length)) := hall.filterMap _
    _ = xs := pick_range xs

theorem pick_map (f : α → β) (xs : List α) (indices : List Nat) :
    pick (xs.map f) indices = (pick xs indices).map f := by
  rw [pick, pick, List.map_filterMap]
  exact List.filterMap_congr fun i _ => by simp

/-- With distinct keys, the elements at the other positions are those whose key
has not been picked. -/
theorem mem_dropIndices_iff {f : α → β} {xs : List α} (hnd : (xs.map f).Nodup)
    {indices : List Nat} {x : α} :
    x ∈ dropIndices indices xs ↔ x ∈ xs ∧ f x ∉ pick (xs.map f) indices := by
  have hkey : ∀ {i : Nat}, xs[i]? = some x → (xs.map f)[i]? = some (f x) := fun h => by
    rw [List.getElem?_map, h]
    rfl
  rw [mem_dropIndices, mem_pick]
  constructor
  · rintro ⟨i, hi, hx⟩
    refine ⟨List.mem_of_getElem? hx, ?_⟩
    rintro ⟨j, hj, hjx⟩
    obtain ⟨hlt, -⟩ := List.getElem?_eq_some_iff.mp (hkey hx)
    have hij := (List.getElem?_inj hlt hnd).mp ((hkey hx).trans hjx.symm)
    exact hi (hij ▸ hj)
  · rintro ⟨hx, hnot⟩
    obtain ⟨i, hi⟩ := List.getElem?_of_mem hx
    exact ⟨i, fun hmem => hnot ⟨i, hmem, hkey hi⟩, hi⟩

theorem pick_subset {xs : List α} {indices : List Nat} {x : α} (h : x ∈ pick xs indices) :
    x ∈ xs := by
  obtain ⟨i, -, hx⟩ := mem_pick.mp h
  exact List.mem_of_getElem? hx

/-- Distinct positions of distinct elements. -/
theorem pick_nodup {xs : List α} (hnd : xs.Nodup) {indices : List Nat} (hidx : indices.Nodup) :
    (pick xs indices).Nodup := by
  refine List.Nodup.filterMap ?_ hidx
  intro i j x hi hj
  obtain ⟨hlt, -⟩ := List.getElem?_eq_some_iff.mp hi
  exact (List.getElem?_inj hlt hnd).mp (Eq.trans hi hj.symm)

end Segstore
