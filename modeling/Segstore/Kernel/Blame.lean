import Segstore.Kernel.Effect

/-!
# What failures go back to

A call fails with an error, or because the process stops.  Each failure is to have a
cause in the state that the call starts from.  The same goes for a flag that a failed
call leaves raised.
-/

namespace Segstore

variable {ε σ α β : Type}

/-- A failure: an error, or a stop. -/
abbrev Failure (ε : Type) : Type := Option ε

/-- Every failure of the call has a cause in its first state, and what would be a cause
in the state that it returns from was one already. -/
structure BlamesAt (C : σ → Failure ε → Prop) (s : σ) (r : Outcome ε α) (t : σ) : Prop where
  error : ∀ e, r = .err e → C s (some e)
  stop : r = .crash → C s none
  onward : ∀ a, r = .ok a → ∀ failure, C t failure → C s failure

/-- The failures of a call have causes, whatever it starts from. -/
def Blames (C : σ → Failure ε → Prop) (p : Eff ε σ α) : Prop :=
  ∀ s, Ends p s (BlamesAt C s)

namespace Blames

variable {C : σ → Failure ε → Prop}

theorem pure (a : α) : Blames C (Pure.pure a : Eff ε σ α) :=
  fun _ => ⟨by rintro _ ⟨⟩, by rintro ⟨⟩, fun _ _ _ h => h⟩

theorem get : Blames C (Eff.get : Eff ε σ σ) :=
  fun _ => ⟨by rintro _ ⟨⟩, by rintro ⟨⟩, fun _ _ _ h => h⟩

theorem update {g : σ → σ} (hg : ∀ s failure, C (g s) failure → C s failure) :
    Blames C (Eff.update g : Eff ε σ Unit) :=
  fun s => ⟨by rintro _ ⟨⟩, by rintro ⟨⟩, fun _ _ => hg s⟩

theorem fail {e : ε} {s : σ} (h : C s (some e)) :
    Ends (Eff.fail e : Eff ε σ α) s (BlamesAt C s) :=
  Ends.fail_iff.mpr ⟨by rintro _ ⟨⟩; exact h, by rintro ⟨⟩, by rintro _ ⟨⟩⟩

theorem bind {p : Eff ε σ α} {f : α → Eff ε σ β} (hp : Blames C p) (hf : ∀ a, Blames C (f a)) :
    Blames C (p >>= f) := by
  intro s
  refine Ends.bind (hp s) (fun a t ht => (hf a t).mono fun r u hu => ?_) ?_ ?_
  · have honward := ht.onward a rfl
    exact ⟨fun e he => honward _ (hu.error e he), fun hr => honward _ (hu.stop hr),
      fun b hb failure h => honward _ (hu.onward b hb failure h)⟩
  · exact fun e t ht => ⟨fun _ he => ht.error _ (by cases he; rfl), by rintro ⟨⟩, by rintro _ ⟨⟩⟩
  · exact fun t ht => ⟨by rintro _ ⟨⟩, fun _ => ht.stop rfl, by rintro _ ⟨⟩⟩

theorem compositional : Compositional (ε := ε) (fun {_} p => Blames C p) where
  pure := pure
  get := get
  bind := bind

end Blames

/-! ## What a failure leaves behind -/

/-- A flag that the call raises is due to an error with a cause in the first state; and
what would be a cause in the state that the call returns from was one already. -/
structure RaisesAt (flag : σ → Bool) (C : σ → ε → Prop) (s : σ) (r : Outcome ε α) (t : σ) :
    Prop where
  raised : flag t = true → flag s = true ∨ ∃ e, r = .err e ∧ C s e
  onward : ∀ a, r = .ok a → ∀ e, C t e → C s e

/-- The flag is raised for a cause only. -/
def Raises (flag : σ → Bool) (C : σ → ε → Prop) (p : Eff ε σ α) : Prop :=
  ∀ s, Ends p s (RaisesAt flag C s)

namespace Raises

variable {flag : σ → Bool} {C : σ → ε → Prop}

/-- A call that leaves flag and causes alone. -/
theorem of_respects {p : Eff ε σ α}
    (hp : Respects (fun s t => (flag t = true → flag s = true) ∧ ∀ e, C t e → C s e) p) :
    Raises flag C p :=
  fun s => (hp s).mono fun _ _ ht => ⟨fun h => .inl (ht.1 h), fun _ _ => ht.2⟩

theorem pure (a : α) : Raises flag C (Pure.pure a : Eff ε σ α) :=
  fun _ => ⟨.inl, fun _ _ _ h => h⟩

theorem get : Raises flag C (Eff.get : Eff ε σ σ) :=
  fun _ => ⟨.inl, fun _ _ _ h => h⟩

theorem bind {p : Eff ε σ α} {f : α → Eff ε σ β} (hp : Raises flag C p)
    (hf : ∀ a, Raises flag C (f a)) : Raises flag C (p >>= f) := by
  intro s
  refine Ends.bind (hp s) (fun a t ht => (hf a t).mono fun r u hu => ?_) ?_ ?_
  · have honward := ht.onward a rfl
    refine ⟨fun h => ?_, fun b hb e he => honward e (hu.onward b hb e he)⟩
    rcases hu.raised h with hflag | ⟨e, he, hcause⟩
    · exact .inl ((ht.raised hflag).resolve_right (by rintro ⟨e, ⟨⟩, -⟩))
    · exact .inr ⟨e, he, honward e hcause⟩
  · refine fun e t ht => ⟨fun h => (ht.raised h).imp_right ?_, by rintro _ ⟨⟩⟩
    rintro ⟨e', ⟨⟩, hcause⟩
    exact ⟨e, rfl, hcause⟩
  · exact fun t ht => ⟨fun h => .inl ((ht.raised h).resolve_right (by rintro ⟨e, ⟨⟩, -⟩)),
      by rintro _ ⟨⟩⟩

theorem compositional : Compositional (ε := ε) (fun {_} p => Raises flag C p) where
  pure := pure
  get := get
  bind := bind

end Raises

end Segstore
