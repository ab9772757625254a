import Mathlib.Data.List.Forall2

/-!
# Last write wins

The specification of an updatable map: a history of writes, applied in order,
where the last write to a key decides what the key holds.

The second half is about histories that survive a failure.  Every issued write
carries a flag saying whether it was acknowledged.  `Kept issued survived`
says that `survived` is what is left of `issued` when any of the
unacknowledged writes, and none of the acknowledged ones, are lost.  It is
stated for arbitrary actions.
-/

namespace Segstore

universe u v

/-- One write to a map. -/
inductive Write (κ : Type u) (ν : Type v)
  | put (key : κ) (value : ν)
  | remove (key : κ)
deriving DecidableEq

namespace Write

variable {κ : Type u} {ν : Type v}

/-- The key a write is about. -/
def key : Write κ ν → κ
  | put k _ => k
  | remove k => k

/-- What the written key holds afterwards. -/
def value : Write κ ν → Option ν
  | put _ v => some v
  | remove _ => none

variable [DecidableEq κ]

/-- The map after one write. -/
def run (w : Write κ ν) (m : κ → Option ν) : κ → Option ν :=
  Function.update m w.key w.value

theorem run_apply (w : Write κ ν) (m : κ → Option ν) (k : κ) :
    w.run m k = if k = w.key then w.value else m k :=
  Function.update_apply m w.key w.value k

/-- The map after a history of writes, oldest first. -/
def runAll (m : κ → Option ν) (ws : List (Write κ ν)) : κ → Option ν :=
  ws.foldl (fun m w => w.run m) m

@[simp] theorem runAll_append (m : κ → Option ν) (ws vs : List (Write κ ν)) :
    runAll m (ws ++ vs) = runAll (runAll m ws) vs := by
  simp [runAll, List.foldl_append]

theorem runAll_concat (m : κ → Option ν) (ws : List (Write κ ν)) (w : Write κ ν) :
    runAll m (ws ++ [w]) = w.run (runAll m ws) := by
  simp [runAll]

end Write

section Acknowledged

variable {α : Type u}

/-- `Kept issued survived`: only unacknowledged actions have been lost. -/
inductive Kept : List (α × Bool) → List α → Prop
  | nil : Kept [] []
  | keep {a : α} {acked : Bool} {issued : List (α × Bool)} {survived : List α} :
      Kept issued survived → Kept ((a, acked) :: issued) (a :: survived)
  | lose {a : α} {issued : List (α × Bool)} {survived : List α} :
      Kept issued survived → Kept ((a, false) :: issued) survived

/-- The issued actions with the same flag on all of them. -/
def flagged (acked : Bool) (actions : List α) : List (α × Bool) :=
  actions.map (fun a => (a, acked))

@[simp] theorem flagged_nil (acked : Bool) : flagged acked ([] : List α) = [] := rfl

@[simp] theorem flagged_cons (acked : Bool) (a : α) (l : List α) :
    flagged acked (a :: l) = (a, acked) :: flagged acked l := rfl

@[simp] theorem flagged_append (acked : Bool) (l k : List α) :
    flagged acked (l ++ k) = flagged acked l ++ flagged acked k := by
  simp [flagged]

namespace Kept

theorem append {i₁ i₂ : List (α × Bool)} {l₁ l₂ : List α}
    (h₁ : Kept i₁ l₁) (h₂ : Kept i₂ l₂) : Kept (i₁ ++ i₂) (l₁ ++ l₂) := by
  induction h₁ with
  | nil => exact h₂
  | keep _ ih => exact keep ih
  | lose _ ih => exact lose ih

/-- The newest action survived. -/
theorem concat_keep {i : List (α × Bool)} {l : List α} (h : Kept i l)
    (a : α) (acked : Bool) : Kept (i ++ [(a, acked)]) (l ++ [a]) :=
  h.append (keep nil)

/-- The newest action, not acknowledged, was lost. -/
theorem concat_lose {i : List (α × Bool)} {l : List α} (h : Kept i l)
    (a : α) : Kept (i ++ [(a, false)]) l := by
  simpa using h.append (lose (a := a) nil)

/-- Everything unacknowledged may be lost. -/
theorem append_lost {i : List (α × Bool)} {l : List α} (h : Kept i l)
    (actions : List α) : Kept (i ++ flagged false actions) l := by
  induction actions generalizing i with
  | nil => simpa using h
  | cons a actions ih =>
      have := ih (h.concat_lose a)
      simpa using this

/-- When everything was acknowledged, everything survived. -/
theorem eq_of_all_acked {actions survived : List α}
    (h : Kept (flagged true actions) survived) : survived = actions := by
  induction actions generalizing survived with
  | nil =>
      cases h
      rfl
  | cons a actions ih =>
      cases h with
      | keep h => rw [ih h]

/-- Fewer acknowledgements ask for less. -/
theorem weaken {i j : List (α × Bool)} {l : List α} (h : Kept i l)
    (hij : List.Forall₂ (fun p q => p.1 = q.1 ∧ (q.2 = true → p.2 = true)) i j) :
    Kept j l := by
  induction h generalizing j with
  | nil =>
      cases hij
      exact nil
  | keep _ ih =>
      cases hij with
      | @cons p q _ _ hpq htail =>
          obtain ⟨a, acked⟩ := q
          obtain ⟨rfl, _⟩ := hpq
          exact keep (ih htail)
  | lose _ ih =>
      cases hij with
      | @cons p q _ _ hpq htail =>
          obtain ⟨a, acked⟩ := q
          obtain ⟨rfl, hflag⟩ := hpq
          have hfalse : acked = false := by
            cases acked with
            | false => rfl
            | true => exact absurd (hflag rfl) (by simp)
          subst hfalse
          exact lose (ih htail)

end Kept

end Acknowledged

end Segstore
