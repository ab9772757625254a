import Segstore.Kernel.Effect

/-!
# Calls that return

`Achieves P p Q` says that from every state with `P` the call returns, with a
value and a state related by `Q`.  Unlike `Returns` this follows a state that
is not the same before and after.
-/

namespace Segstore

variable {ε σ τ α β : Type}

/-- From every state with `P` the call returns, and `Q` tells with what. -/
def Achieves (P : σ → Prop) (p : Eff ε σ α) (Q : α → σ → Prop) : Prop :=
  ∀ s, P s → ∃ a t, p s = (.ok a, t) ∧ Q a t

namespace Achieves

variable {P P' : σ → Prop} {p : Eff ε σ α} {Q R : α → σ → Prop}

theorem pure {a : α} (h : ∀ s, P s → Q a s) : Achieves P (Pure.pure a : Eff ε σ α) Q :=
  fun s hs => ⟨a, s, rfl, h s hs⟩

theorem mono (h : Achieves P p R) (hRQ : ∀ a s, R a s → Q a s) : Achieves P p Q := by
  intro s hs
  obtain ⟨a, t, hrun, ht⟩ := h s hs
  exact ⟨a, t, hrun, hRQ a t ht⟩

theorem strengthen (h : Achieves P' p Q) (hP : ∀ s, P s → P' s) : Achieves P p Q :=
  fun s hs => h s (hP s hs)

theorem bind {f : α → Eff ε σ β} {S : β → σ → Prop} (hp : Achieves P p R)
    (hf : ∀ a, Achieves (R a) (f a) S) : Achieves P (p >>= f) S := by
  intro s hs
  obtain ⟨a, t, hrun, ht⟩ := hp s hs
  rw [Eff.bind_of_ok hrun]
  exact hf a t ht

theorem get_bind {f : σ → Eff ε σ α} (hf : ∀ s, P s → Achieves (· = s) (f s) Q) :
    Achieves P (Eff.get >>= f) Q :=
  fun s hs => hf s hs s rfl

theorem update {f : σ → σ} {Q : Unit → σ → Prop} (h : ∀ s, P s → Q () (f s)) :
    Achieves P (Eff.update f : Eff ε σ Unit) Q :=
  fun s hs => ⟨(), f s, rfl, h s hs⟩

/-- The call runs on a part of the state. -/
theorem zoom {view : σ → τ} {put : σ → τ → σ} {p : Eff ε τ α}
    (hp : ∀ s, P s → Achieves (· = view s) p fun a t => Q a (put s t)) :
    Achieves P (Eff.zoom view put p) Q := by
  intro s hs
  obtain ⟨a, t, hrun, ht⟩ := hp s hs (view s) rfl
  exact ⟨a, put s t, Eff.zoom_of_run hrun, ht⟩

end Achieves

end Segstore
