import Segstore.Kernel.Effect

/-!
# Two calls side by side

`Tandem R p q` says that two calls which start in related states return the same
value and end in related states.  The rules go through both calls at once; a
part that only one of them has is set beside `pure`.  What the states are and
how they are related is left open.
-/

namespace Segstore

variable {ε σ τ σ' τ' α β : Type}

/-- From related states both calls return the same value, in related states. -/
def Tandem (R : σ → τ → Prop) (p : Eff ε σ α) (q : Eff ε τ α) : Prop :=
  ∀ s t, R s t → ∃ a s' t', p s = (.ok a, s') ∧ q t = (.ok a, t') ∧ R s' t'

namespace Tandem

variable {R : σ → τ → Prop} {p : Eff ε σ α} {q : Eff ε τ α}

theorem pure (a : α) : Tandem R (Pure.pure a : Eff ε σ α) (Pure.pure a : Eff ε τ α) :=
  fun s t h => ⟨a, s, t, rfl, rfl, h⟩

theorem symm {R : σ → σ → Prop} [Std.Symm R] {p q : Eff ε σ α} (h : Tandem R p q) :
    Tandem R q p := by
  intro s t hst
  obtain ⟨a, t', s', hp, hq, hend⟩ := h t s (Std.Symm.symm s t hst)
  exact ⟨a, s', t', hq, hp, Std.Symm.symm t' s' hend⟩

theorem bind {f : α → Eff ε σ β} {g : α → Eff ε τ β} (hpq : Tandem R p q)
    (hfg : ∀ a, Tandem R (f a) (g a)) : Tandem R (p >>= f) (q >>= g) := by
  intro s t hst
  obtain ⟨a, s', t', hp, hq, hend⟩ := hpq s t hst
  rw [Eff.bind_of_ok hp, Eff.bind_of_ok hq]
  exact hfg a s' t' hend

/-- A part that only the left call has. -/
theorem left {p : Eff ε σ Unit} {f : Unit → Eff ε σ β} {q : Eff ε τ β}
    (hp : Tandem R p (Pure.pure ())) (hf : Tandem R (f ()) q) : Tandem R (p >>= f) q :=
  hp.bind (g := fun _ => q) fun _ => hf

/-- A part that only the right call has. -/
theorem right {q : Eff ε τ Unit} {g : Unit → Eff ε τ β} {p : Eff ε σ β}
    (hq : Tandem R (Pure.pure ()) q) (hg : Tandem R p (g ())) : Tandem R p (q >>= g) :=
  hq.bind (f := fun _ => p) fun _ => hg

/-- Both calls look at their states. -/
theorem get_bind {f : σ → Eff ε σ β} {g : τ → Eff ε τ β}
    (hfg : ∀ s t, R s t → Tandem R (f s) (g t)) : Tandem R (Eff.get >>= f) (Eff.get >>= g) :=
  fun s t hst => hfg s t hst s t hst

theorem read_bind {h : σ → α} {k : τ → α} {f : α → Eff ε σ β} {g : α → Eff ε τ β}
    (hhk : ∀ s t, R s t → h s = k t) (hfg : ∀ a, Tandem R (f a) (g a)) :
    Tandem R (Eff.read h >>= f) (Eff.read k >>= g) :=
  bind (fun s t hst => ⟨h s, s, t, rfl, by rw [hhk s t hst]; rfl, hst⟩) hfg

theorem update {f : σ → σ} {g : τ → τ} (hfg : ∀ s t, R s t → R (f s) (g t)) :
    Tandem R (Eff.update f : Eff ε σ Unit) (Eff.update g) :=
  fun s t hst => ⟨(), f s, g t, rfl, rfl, hfg s t hst⟩

theorem ite {c : Prop} [Decidable c] {p' : Eff ε σ α} {q' : Eff ε τ α}
    (hpq : c → Tandem R p q) (hpq' : ¬ c → Tandem R p' q') :
    Tandem R (if c then p else p') (if c then q else q') := by
  split
  · exact hpq ‹c›
  · exact hpq' ‹¬ c›

/-- There is nothing to catch. -/
theorem attempt_bind {f : Except ε α → Eff ε σ β} {g : Except ε α → Eff ε τ β}
    (hpq : Tandem R p q) (hfg : ∀ a, Tandem R (f (.ok a)) (g (.ok a))) :
    Tandem R (Eff.attempt p >>= f) (Eff.attempt q >>= g) := by
  intro s t hst
  obtain ⟨a, s', t', hp, hq, hend⟩ := hpq s t hst
  rw [Eff.bind_of_ok (show Eff.attempt p s = (.ok (.ok a), s') by rw [Eff.attempt, hp]),
    Eff.bind_of_ok (show Eff.attempt q t = (.ok (.ok a), t') by rw [Eff.attempt, hq])]
  exact hfg a s' t' hend

theorem mapErr {f g : ε → ε} (hpq : Tandem R p q) :
    Tandem R (Eff.mapErr f p) (Eff.mapErr g q) := by
  intro s t hst
  obtain ⟨a, s', t', hp, hq, hend⟩ := hpq s t hst
  exact ⟨a, s', t', by rw [Eff.mapErr, hp], by rw [Eff.mapErr, hq], hend⟩

/-- Both calls run on parts of their states. -/
theorem zoom {R' : σ' → τ' → Prop} {view : σ → σ'} {put : σ → σ' → σ} {view' : τ → τ'}
    {put' : τ → τ' → τ} {p : Eff ε σ' α} {q : Eff ε τ' α} (hpq : Tandem R' p q)
    (hview : ∀ s t, R s t → R' (view s) (view' t))
    (hput : ∀ s t, R s t → ∀ u v, R' u v → R (put s u) (put' t v)) :
    Tandem R (Eff.zoom view put p) (Eff.zoom view' put' q) := by
  intro s t hst
  obtain ⟨a, u, v, hp, hq, hend⟩ := hpq _ _ (hview s t hst)
  exact ⟨a, put s u, put' t v, Eff.zoom_of_run hp, Eff.zoom_of_run hq, hput s t hst u v hend⟩

end Tandem

end Segstore
