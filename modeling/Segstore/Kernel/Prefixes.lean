import Mathlib.Data.List.Basic

/-!
# Batches of which a prefix survives

Actions are issued in batches.  Of each batch a prefix survives, and all of it when it
was acknowledged, so what is lost leaves no gaps.
-/

namespace Segstore

universe u

variable {α : Type u}

/-- `Prefixes batches survived`: a prefix of each batch has survived. -/
inductive Prefixes : List (List α × Bool) → List α → Prop
  | nil : Prefixes [] []
  | concat {batches : List (List α × Bool)} {survived : List α} (actions : List α)
      (acked : Bool) (n : Nat) (hn : acked = true → actions.length ≤ n) :
      Prefixes batches survived →
        Prefixes (batches ++ [(actions, acked)]) (survived ++ actions.take n)

namespace Prefixes

variable {batches : List (List α × Bool)} {actions survived : List α} {acked : Bool}

theorem concat_iff : Prefixes (batches ++ [(actions, acked)]) survived ↔
    ∃ before n, Prefixes batches before ∧ (acked = true → actions.length ≤ n) ∧
      survived = before ++ actions.take n := by
  constructor
  · intro h
    generalize hbatches : batches ++ [(actions, acked)] = all at h
    cases h with
    | nil => simp at hbatches
    | @concat batches' before actions' acked' n hn h =>
        obtain ⟨rfl, hlast⟩ := List.append_inj' hbatches rfl
        cases hlast
        exact ⟨before, n, h, hn, rfl⟩
  · rintro ⟨before, n, h, hn, rfl⟩
    exact h.concat actions acked n hn

/-- A batch begins. -/
theorem begin (h : Prefixes batches survived) (acked : Bool) :
    Prefixes (batches ++ [([], acked)]) survived := by
  have hempty := h.concat [] acked 0 fun _ => Nat.le_refl 0
  rwa [List.take_nil, List.append_nil] at hempty

/-- Less may be asked of a batch. -/
theorem unacked (h : Prefixes (batches ++ [(actions, true)]) survived) (acked : Bool) :
    Prefixes (batches ++ [(actions, acked)]) survived := by
  obtain ⟨before, n, hbefore, hn, rfl⟩ := concat_iff.mp h
  exact hbefore.concat actions acked n fun _ => hn rfl

/-- More of a batch is issued, and survives. -/
theorem keep (h : Prefixes (batches ++ [(actions, true)]) survived) (a : α) (acked : Bool) :
    Prefixes (batches ++ [(actions ++ [a], acked)]) (survived ++ [a]) := by
  obtain ⟨before, n, hbefore, hn, rfl⟩ := concat_iff.mp h
  have hall := hbefore.concat (actions ++ [a]) acked (actions.length + 1) fun _ => by simp
  rw [List.take_of_length_le (hn rfl)]
  rwa [List.take_of_length_le (by simp), ← List.append_assoc] at hall

/-- More of a batch is issued, and lost. -/
theorem lose (h : Prefixes (batches ++ [(actions, false)]) survived) (more : List α) :
    Prefixes (batches ++ [(actions ++ more, false)]) survived := by
  obtain ⟨before, n, hbefore, -, rfl⟩ := concat_iff.mp h
  have hmin := hbefore.concat (actions ++ more) false (min n actions.length) (by simp)
  rwa [List.take_append_of_le_length (Nat.min_le_right _ _), ← List.take_take,
    List.take_of_length_le (Nat.le_refl actions.length)] at hmin

end Prefixes

end Segstore
