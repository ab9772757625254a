import Mathlib.Order.Lattice

/-!
# Binary search in a sorted list

The loop halves the length of the window and never ends early, as the
standard library's `binary_search` on slices does.  On a list in ascending
order, repetitions allowed, it finds an element exactly when there is one.
-/

namespace Segstore

universe u

variable {α : Type u} [LinearOrder α]

/-- The start of the last window.  The window has `size` elements from `base`. -/
def searchWindow (xs : List α) (x : α) : Nat → Nat → Nat → Nat
  | 0, base, _ => base
  | fuel + 1, base, size =>
      if size ≤ 1 then
        base
      else
        let half := size / 2
        let mid := base + half
        let greater := xs[mid]?.any (fun y => decide (x < y))
        searchWindow xs x fuel (if greater then base else mid) (size - half)

/-- `slice::binary_search`: the index of an occurrence. -/
def binarySearch (xs : List α) (x : α) : Option Nat :=
  let base := searchWindow xs x xs.length 0 xs.length
  if xs[base]? = some x then some base else none

theorem getElem_le_of_sorted {xs : List α} (hs : xs.Pairwise (· ≤ ·)) {i j : Nat}
    (hj : j < xs.length) (hij : i ≤ j) : xs[i] ≤ xs[j] := by
  obtain rfl | hlt := Nat.eq_or_lt_of_le hij
  · exact le_rfl
  · exact List.pairwise_iff_getElem.mp hs i j _ hj hlt

/-- The window keeps an occurrence once it has one. -/
theorem searchWindow_finds {xs : List α} {x : α} (hs : xs.Pairwise (· ≤ ·)) :
    ∀ {fuel base size : Nat}, size ≤ fuel → base + size ≤ xs.length →
      (∃ i, base ≤ i ∧ i < base + size ∧ xs[i]? = some x) →
      xs[searchWindow xs x fuel base size]? = some x := by
  intro fuel
  induction fuel with
  | zero =>
      rintro base size hfuel _ ⟨i, hlo, hhi, _⟩
      omega
  | succ fuel ih =>
      rintro base size hfuel hlen ⟨i, hlo, hhi, hi⟩
      rw [searchWindow]
      by_cases hsize : size ≤ 1
      · rw [if_pos hsize]
        have hbase : i = base := by omega
        rwa [hbase] at hi
      · rw [if_neg hsize]
        have hmid : base + size / 2 < xs.length := by omega
        have hx : xs[i] = x := by
          rw [List.getElem?_eq_getElem (by omega)] at hi
          exact Option.some.inj hi
        by_cases hgreater : x < xs[base + size / 2]
        · -- everything from the middle on is too large
          have hany : xs[base + size / 2]?.any (fun y => decide (x < y)) = true := by
            simp [List.getElem?_eq_getElem hmid, hgreater]
          simp only [hany, if_true]
          refine ih (by omega) (by omega) ⟨i, hlo, ?_, hi⟩
          by_contra hnot
          have hle : xs[base + size / 2] ≤ xs[i] :=
            getElem_le_of_sorted hs (by omega) (by omega)
          rw [hx] at hle
          exact absurd hgreater (not_lt.mpr hle)
        · have hany : xs[base + size / 2]?.any (fun y => decide (x < y)) = false := by
            simp [List.getElem?_eq_getElem hmid, not_lt.mp hgreater]
          simp only [hany, Bool.false_eq_true, if_false]
          refine ih (by omega) (by omega) ?_
          by_cases hright : base + size / 2 ≤ i
          · exact ⟨i, hright, by omega, hi⟩
          · -- the occurrence is on the left, so the middle is one as well
            have hle : xs[i] ≤ xs[base + size / 2] :=
              getElem_le_of_sorted hs hmid (by omega)
            rw [hx] at hle
            have heq : xs[base + size / 2] = x := le_antisymm (not_lt.mp hgreater) hle
            exact ⟨base + size / 2, Nat.le_refl _, by omega,
              by rw [List.getElem?_eq_getElem hmid, heq]⟩

/-- On a sorted list the search succeeds exactly on the elements. -/
theorem binarySearch_isSome {xs : List α} (hs : xs.Pairwise (· ≤ ·)) (x : α) :
    (binarySearch xs x).isSome ↔ x ∈ xs := by
  rw [binarySearch]
  constructor
  · intro h
    by_cases hx : xs[searchWindow xs x xs.length 0 xs.length]? = some x
    · exact List.mem_of_getElem? hx
    · simp [hx] at h
  · intro h
    obtain ⟨i, hi, hx⟩ := List.mem_iff_getElem.mp h
    have hfound := searchWindow_finds hs (Nat.le_refl xs.length)
      (Nat.le_of_eq (Nat.zero_add _))
      ⟨i, Nat.zero_le _, by omega, by rw [List.getElem?_eq_getElem hi, hx]⟩
    simp [hfound]

end Segstore
