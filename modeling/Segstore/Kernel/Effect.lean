import Mathlib.Order.Defs.Unbundled

/-!
# Effects of calls that may fail or be cut short

A call runs on a state `σ`.  It ends with a value, with an error of type `ε`,
or because the process stopped in the middle of it.  The state reached is kept
in all three cases: an error does not roll anything back, and what a stopped
process leaves behind is what the next process finds.

The rules below are those of a weakest-precondition calculus.  `Ends p s Q`
says that the run of `p` from `s` ends in an outcome and a state related by
`Q`.  Nothing here mentions what the state is.
-/

namespace Segstore

/-- How a call ends. -/
inductive Outcome (ε α : Type)
  | ok (value : α)
  | err (error : ε)
  | crash
deriving DecidableEq, Repr

/-- A call on the state `σ`. -/
def Eff (ε σ α : Type) : Type := σ → Outcome ε α × σ

namespace Eff

variable {ε σ τ α β : Type}

/-- Return a value, touching nothing. -/
def ret (a : α) : Eff ε σ α := fun s => (.ok a, s)

/-- Sequencing: an error or a stop ends the whole call. -/
def andThen (p : Eff ε σ α) (f : α → Eff ε σ β) : Eff ε σ β := fun s =>
  match p s with
  | (.ok a, t) => f a t
  | (.err e, t) => (.err e, t)
  | (.crash, t) => (.crash, t)

instance : Monad (Eff ε σ) where
  pure := ret
  bind := andThen

/-- The order of sequencing does not matter. -/
instance : LawfulMonad (Eff ε σ) := by
  refine LawfulMonad.mk' _ (fun x => ?_) (fun _ _ => rfl) fun x f g => ?_
  · funext s
    show Eff.andThen x ret s = x s
    unfold andThen
    rcases x s with ⟨- | - | -, t⟩ <;> rfl
  · funext s
    show Eff.andThen (Eff.andThen x f) g s = Eff.andThen x (fun a => Eff.andThen (f a) g) s
    unfold andThen
    rcases x s with ⟨- | - | -, t⟩ <;> rfl

/-- Read a part of the state. -/
def read (f : σ → α) : Eff ε σ α := fun s => (.ok (f s), s)

/-- Read the whole state. -/
def get : Eff ε σ σ := fun s => (.ok s, s)

/-- Change the state. -/
def update (f : σ → σ) : Eff ε σ Unit := fun s => (.ok (), f s)

/-- Raise an error. -/
def fail (e : ε) : Eff ε σ α := fun s => (.err e, s)

/-- Raise an error when the condition holds. -/
def reject (c : Prop) [Decidable c] (e : ε) : Eff ε σ Unit :=
  if c then fail e else ret ()

/-- A value that has to be there.  A panic ends the call like a stop. -/
def expect : Option α → Eff ε σ α
  | some a => ret a
  | none => fun s => (.crash, s)

/-- A computed result. -/
def ofExcept : Except ε α → Eff ε σ α
  | .ok a => ret a
  | .error e => fail e

/-- Turn an error into a value.  A stop is not an error and is not caught. -/
def attempt (p : Eff ε σ α) : Eff ε σ (Except ε α) := fun s =>
  match p s with
  | (.ok a, t) => (.ok (.ok a), t)
  | (.err e, t) => (.ok (.error e), t)
  | (.crash, t) => (.crash, t)

/-- Rewrite the error of a call. -/
def mapErr (f : ε → ε) (p : Eff ε σ α) : Eff ε σ α := fun s =>
  match p s with
  | (.ok a, t) => (.ok a, t)
  | (.err e, t) => (.err (f e), t)
  | (.crash, t) => (.crash, t)

/-- Run a call on the part `τ` of the state. -/
def zoom (view : σ → τ) (put : σ → τ → σ) (p : Eff ε τ α) : Eff ε σ α := fun s =>
  ((p (view s)).1, put s (p (view s)).2)

/-- Run a call on a state of its own, which is dropped at the end. -/
def within (t : τ) (p : Eff ε τ α) : Eff ε σ α :=
  zoom (fun _ => t) (fun s _ => s) p

end Eff

variable {ε σ τ α β : Type}

/-- The run of `p` from `s` ends in an outcome and a state related by `Q`. -/
def Ends (p : Eff ε σ α) (s : σ) (Q : Outcome ε α → σ → Prop) : Prop :=
  Q (p s).1 (p s).2

namespace Ends

variable {s : σ} {Q R : Outcome ε α → σ → Prop}

/-- Weaken what is known of the end of a run. -/
theorem mono {p : Eff ε σ α} (h : Ends p s R)
    (hRQ : ∀ r t, R r t → Q r t) : Ends p s Q :=
  hRQ _ _ h

/-- What is known of the end of a run, at the end it has. -/
theorem of_run {p : Eff ε σ α} (h : Ends p s Q) {r : Outcome ε α} {t : σ}
    (hrun : p s = (r, t)) : Q r t := by
  rw [Ends, hrun] at h
  exact h

/-- Two facts about one run. -/
theorem and {p : Eff ε σ α} (hQ : Ends p s Q) (hR : Ends p s R) :
    Ends p s (fun r t => Q r t ∧ R r t) :=
  ⟨hQ, hR⟩

/-- Sequencing: continue from every value, pass errors and stops on. -/
theorem bind {p : Eff ε σ α} {f : α → Eff ε σ β}
    {Q : Outcome ε β → σ → Prop}
    (hp : Ends p s R)
    (hok : ∀ a t, R (.ok a) t → Ends (f a) t Q)
    (herr : ∀ e t, R (.err e) t → Q (.err e) t)
    (hcrash : ∀ t, R .crash t → Q .crash t) :
    Ends (p >>= f) s Q := by
  show Ends (Eff.andThen p f) s Q
  unfold Ends Eff.andThen
  unfold Ends at hp
  match h : p s with
  | (.ok a, t) =>
      rw [h] at hp
      exact hok a t hp
  | (.err e, t) =>
      rw [h] at hp
      exact herr e t hp
  | (.crash, t) =>
      rw [h] at hp
      exact hcrash t hp

/-- What holds of the state whatever the result is. -/
theorem bind_pure {p : Eff ε σ α} {g : α → β} {Q : σ → Prop}
    (hp : Ends p s (fun _ t => Q t)) : Ends (p >>= fun a => pure (g a)) s (fun _ t => Q t) :=
  hp.bind (fun _ _ h => h) (fun _ _ h => h) fun _ h => h

@[simp] theorem pure_iff {a : α} :
    Ends (pure a : Eff ε σ α) s Q ↔ Q (.ok a) s :=
  Iff.rfl

@[simp] theorem fail_iff {e : ε} :
    Ends (Eff.fail e : Eff ε σ α) s Q ↔ Q (.err e) s :=
  Iff.rfl

@[simp] theorem read_bind_iff {g : σ → β} {f : β → Eff ε σ α} :
    Ends (Eff.read g >>= f) s Q ↔ Ends (f (g s)) s Q :=
  Iff.rfl

@[simp] theorem get_bind_iff {f : σ → Eff ε σ α} :
    Ends (Eff.get >>= f) s Q ↔ Ends (f s) s Q :=
  Iff.rfl

@[simp] theorem update_bind_iff {g : σ → σ} {f : Unit → Eff ε σ α} :
    Ends (Eff.update g >>= f) s Q ↔ Ends (f ()) (g s) Q :=
  Iff.rfl

@[simp] theorem update_iff {g : σ → σ} {Q : Outcome ε Unit → σ → Prop} :
    Ends (Eff.update g) s Q ↔ Q (.ok ()) (g s) :=
  Iff.rfl

@[simp] theorem pure_bind_iff {b : β} {f : β → Eff ε σ α} :
    Ends (pure b >>= f) s Q ↔ Ends (f b) s Q :=
  Iff.rfl

@[simp] theorem fail_bind_iff {e : ε} {f : β → Eff ε σ α} :
    Ends (Eff.fail e >>= f) s Q ↔ Q (.err e) s :=
  Iff.rfl

/-- A run on a part of the state. -/
theorem zoom {view : σ → τ} {put : σ → τ → σ} {p : Eff ε τ α}
    (h : Ends p (view s) (fun r t => Q r (put s t))) :
    Ends (Eff.zoom view put p) s Q :=
  h

/-- Continue from a caught error as from a value; a stop is not caught. -/
theorem attempt_bind {p : Eff ε σ α} {f : Except ε α → Eff ε σ β}
    {Q : Outcome ε β → σ → Prop}
    (hp : Ends p s R)
    (hok : ∀ a t, R (.ok a) t → Ends (f (.ok a)) t Q)
    (herr : ∀ e t, R (.err e) t → Ends (f (.error e)) t Q)
    (hcrash : ∀ t, R .crash t → Q .crash t) :
    Ends (Eff.attempt p >>= f) s Q := by
  show Ends (Eff.andThen (Eff.attempt p) f) s Q
  unfold Ends Eff.andThen Eff.attempt
  unfold Ends at hp
  match h : p s with
  | (.ok a, t) =>
      rw [h] at hp
      exact hok a t hp
  | (.err e, t) =>
      rw [h] at hp
      exact herr e t hp
  | (.crash, t) =>
      rw [h] at hp
      exact hcrash t hp

/-- Rewriting the error changes nothing else. -/
theorem mapErr {p : Eff ε σ α} {g : ε → ε}
    (hp : Ends p s R)
    (hok : ∀ a t, R (.ok a) t → Q (.ok a) t)
    (herr : ∀ e t, R (.err e) t → Q (.err (g e)) t)
    (hcrash : ∀ t, R .crash t → Q .crash t) :
    Ends (Eff.mapErr g p) s Q := by
  unfold Ends Eff.mapErr
  unfold Ends at hp
  match h : p s with
  | (.ok a, t) =>
      rw [h] at hp
      exact hok a t hp
  | (.err e, t) =>
      rw [h] at hp
      exact herr e t hp
  | (.crash, t) =>
      rw [h] at hp
      exact hcrash t hp

end Ends

/-- A sequence goes on from what its first part returns. -/
theorem Eff.bind_of_ok {p : Eff ε σ α} {s t : σ} {a : α} (h : p s = (.ok a, t))
    (f : α → Eff ε σ β) : (p >>= f) s = f a t := by
  show Eff.andThen p f s = f a t
  rw [Eff.andThen, h]

theorem Ends.of_ok {p : Eff ε σ α} {f : α → Eff ε σ β} {s t : σ} {a : α}
    {Q : Outcome ε β → σ → Prop} (h : p s = (.ok a, t)) :
    Ends (p >>= f) s Q ↔ Ends (f a) t Q := by
  rw [Ends, Ends, Eff.bind_of_ok h]

theorem Eff.zoom_of_run {view : σ → τ} {put : σ → τ → σ} {p : Eff ε τ α} {s : σ}
    {r : Outcome ε α} {t : τ} (h : p (view s) = (r, t)) :
    Eff.zoom view put p s = (r, put s t) := by
  rw [Eff.zoom, h]

/-- Dropping the value of a call changes nothing else. -/
theorem Eff.drop_eq_ok {p : Eff ε σ α} {s t : σ} :
    (p >>= fun _ => pure ()) s = (.ok (), t) ↔ ∃ a, p s = (.ok a, t) := by
  show Eff.andThen p (fun _ => Eff.ret ()) s = _ ↔ _
  unfold Eff.andThen Eff.ret
  rcases p s with ⟨a | e | -, u⟩ <;> simp

/-- A sequence that fails has failed in its first part or after it. -/
theorem Eff.bind_eq_err {p : Eff ε σ α} {f : α → Eff ε σ β} {s t : σ} {e : ε} :
    (p >>= f) s = (.err e, t) ↔
      p s = (.err e, t) ∨ ∃ a u, p s = (.ok a, u) ∧ f a u = (.err e, t) := by
  show Eff.andThen p f s = _ ↔ _
  unfold Eff.andThen
  match p s with
  | (.ok a, u) =>
      refine ⟨fun h => .inr ⟨a, u, rfl, h⟩, ?_⟩
      rintro (h | ⟨_, _, ⟨⟩, h⟩)
      · cases h
      · exact h
  | (.err e', u) => simp
  | (.crash, u) => simp

/-! ## Calls that return -/

/-- From every state with `I` the call returns a value, in a state with `I`. -/
def Returns (I : σ → Prop) (p : Eff ε σ α) : Prop :=
  ∀ s, I s → Ends p s (fun r t => (∃ a, r = .ok a) ∧ I t)

namespace Returns

variable {I : σ → Prop}

theorem pure (a : α) : Returns I (Pure.pure a : Eff ε σ α) :=
  fun _ hs => ⟨⟨a, rfl⟩, hs⟩

theorem bind {p : Eff ε σ α} {f : α → Eff ε σ β} (hp : Returns I p)
    (hf : ∀ a, Returns I (f a)) : Returns I (p >>= f) := by
  intro s hs
  refine Ends.bind (hp s hs) ?_ ?_ ?_
  · rintro a t ⟨-, ht⟩
    exact hf a t ht
  · rintro e t ⟨⟨a, ha⟩, -⟩
    cases ha
  · rintro t ⟨⟨a, ha⟩, -⟩
    cases ha

theorem read_bind {g : σ → β} {f : β → Eff ε σ α} (hf : ∀ b, Returns I (f b)) :
    Returns I (Eff.read g >>= f) :=
  fun s hs => hf (g s) s hs

theorem get_bind {f : σ → Eff ε σ α} (hf : ∀ s, Returns I (f s)) :
    Returns I (Eff.get >>= f) :=
  fun s hs => hf s s hs

theorem update {g : σ → σ} (hg : ∀ s, I s → I (g s)) :
    Returns I (Eff.update g : Eff ε σ Unit) :=
  fun s hs => ⟨⟨(), rfl⟩, hg s hs⟩

/-- There is nothing to catch. -/
theorem attempt_bind {p : Eff ε σ α} {f : Except ε α → Eff ε σ β} (hp : Returns I p)
    (hf : ∀ a, Returns I (f (.ok a))) : Returns I (Eff.attempt p >>= f) := by
  intro s hs
  refine Ends.attempt_bind (hp s hs) ?_ ?_ ?_
  · rintro a t ⟨-, ht⟩
    exact hf a t ht
  · rintro e t ⟨⟨a, ha⟩, -⟩
    cases ha
  · rintro t ⟨⟨a, ha⟩, -⟩
    cases ha

theorem mapErr {p : Eff ε σ α} {g : ε → ε} (hp : Returns I p) :
    Returns I (Eff.mapErr g p) := by
  intro s hs
  refine Ends.mapErr (hp s hs) (fun _ _ h => h) ?_ ?_
  · rintro e t ⟨⟨a, ha⟩, -⟩
    cases ha
  · rintro t ⟨⟨a, ha⟩, -⟩
    cases ha

theorem zoom {J : τ → Prop} {view : σ → τ} {put : σ → τ → σ} {p : Eff ε τ α}
    (hp : Returns J p) (hview : ∀ s, I s → J (view s))
    (hput : ∀ s t, I s → J t → I (put s t)) : Returns I (Eff.zoom view put p) := by
  intro s hs
  obtain ⟨hr, ht⟩ := hp (view s) (hview s hs)
  exact Ends.zoom ⟨hr, hput s _ hs ht⟩

end Returns

/-! ## What a call leaves alone -/

/-- However the call ends, it ends in a state related to the first. -/
def Respects (R : σ → σ → Prop) (p : Eff ε σ α) : Prop :=
  ∀ s, Ends p s (fun _ t => R s t)

/-- When the call fails, it ends in a state related to the first. -/
def RespectsOnError (R : σ → σ → Prop) (p : Eff ε σ α) : Prop :=
  ∀ s, Ends p s (fun r t => ∀ e, r = .err e → R s t)

namespace Respects

variable {R : σ → σ → Prop}

theorem pure [Std.Refl R] (a : α) : Respects R (Pure.pure a : Eff ε σ α) :=
  fun s => Std.Refl.refl s

theorem fail [Std.Refl R] (e : ε) : Respects R (Eff.fail e : Eff ε σ α) :=
  fun s => Std.Refl.refl s

theorem update {g : σ → σ} (hg : ∀ s, R s (g s)) : Respects R (Eff.update g : Eff ε σ Unit) :=
  hg

theorem bind [IsTrans σ R] {p : Eff ε σ α} {f : α → Eff ε σ β} (hp : Respects R p)
    (hf : ∀ a, Respects R (f a)) : Respects R (p >>= f) := fun s =>
  Ends.bind (hp s) (fun a t ht => (hf a t).mono fun _ _ hu => IsTrans.trans _ _ _ ht hu)
    (fun _ _ ht => ht) fun _ ht => ht

theorem read_bind {g : σ → β} {f : β → Eff ε σ α} (hf : ∀ b, Respects R (f b)) :
    Respects R (Eff.read g >>= f) :=
  fun s => hf (g s) s

theorem ofExcept_bind [Std.Refl R] {x : Except ε α} {f : α → Eff ε σ β}
    (hf : ∀ a, x = .ok a → Respects R (f a)) : Respects R (Eff.ofExcept x >>= f) := by
  cases x with
  | ok a => exact hf a rfl
  | error e => exact fail e

theorem get_bind {f : σ → Eff ε σ α} (hf : ∀ s, Respects R (f s)) :
    Respects R (Eff.get >>= f) :=
  fun s => hf s s

theorem attempt_bind [IsTrans σ R] {p : Eff ε σ α} {f : Except ε α → Eff ε σ β}
    (hp : Respects R p) (hf : ∀ a, Respects R (f a)) : Respects R (Eff.attempt p >>= f) :=
  fun s => Ends.attempt_bind (hp s)
    (fun a t ht => (hf (.ok a) t).mono fun _ _ hu => IsTrans.trans _ _ _ ht hu)
    (fun e t ht => (hf (.error e) t).mono fun _ _ hu => IsTrans.trans _ _ _ ht hu)
    fun _ ht => ht

theorem mapErr {p : Eff ε σ α} {g : ε → ε} (hp : Respects R p) :
    Respects R (Eff.mapErr g p) :=
  fun s => Ends.mapErr (hp s) (fun _ _ h => h) (fun _ _ h => h) fun _ h => h

theorem zoom {R' : τ → τ → Prop} {view : σ → τ} {put : σ → τ → σ} {p : Eff ε τ α}
    (hp : Respects R' p) (hput : ∀ s t, R' (view s) t → R s (put s t)) :
    Respects R (Eff.zoom view put p) :=
  fun s => Ends.zoom (hput s _ (hp (view s)))

end Respects

namespace RespectsOnError

variable {R : σ → σ → Prop}

/-- A call that does not fail. -/
theorem of_noError {p : Eff ε σ α} (hp : ∀ s, Ends p s (fun r _ => ∀ e, r ≠ .err e)) :
    RespectsOnError R p :=
  fun s => (hp s).mono fun _ _ hr e he => absurd he (hr e)

/-- A call that fails in its first part, if at all. -/
theorem bind {p : Eff ε σ α} {f : α → Eff ε σ β} (hp : RespectsOnError R p)
    (hf : ∀ a s, Ends (f a) s (fun r _ => ∀ e, r ≠ .err e)) : RespectsOnError R (p >>= f) :=
  fun s => Ends.bind (hp s) (fun a t _ => (hf a t).mono fun _ _ hr e he => absurd he (hr e))
    (fun e _ ht _ _ => ht e rfl) fun _ _ e he => by cases he

/-- A call that may fail in its second part. -/
theorem later [IsTrans σ R] {p : Eff ε σ α} {f : α → Eff ε σ β} (hp : Respects R p)
    (hf : ∀ a, RespectsOnError R (f a)) : RespectsOnError R (p >>= f) := fun s =>
  Ends.bind (hp s)
    (fun a t ht => (hf a t).mono fun _ _ hu e he => IsTrans.trans _ _ _ ht (hu e he))
    (fun _ _ ht _ _ => ht) fun _ ht _ _ => ht

theorem get_bind {f : σ → Eff ε σ α} (hf : ∀ s, RespectsOnError R (f s)) :
    RespectsOnError R (Eff.get >>= f) :=
  fun s => hf s s

end RespectsOnError

/-! ## What a call keeps and brings about -/

/-- From a state with `I`: a call that is stopped leaves a state with `J`, every
other one a state with `I`, and a value stands in the relation `R` to the two
states. -/
def Upholds (I J : σ → Prop) (R : σ → α → σ → Prop) (p : Eff ε σ α) : Prop :=
  ∀ s, I s → Ends p s (fun r t =>
    (r = .crash → J t) ∧ (r ≠ .crash → I t) ∧ ∀ a, r = .ok a → R s a t)

namespace Upholds

variable {I J : σ → Prop} {R : σ → α → σ → Prop}

theorem mono {R' : σ → α → σ → Prop} {p : Eff ε σ α} (hp : Upholds I J R p)
    (hR : ∀ s a t, R s a t → R' s a t) : Upholds I J R' p :=
  fun s hs => (hp s hs).mono fun _ _ h => ⟨h.1, h.2.1, fun a ha => hR _ _ _ (h.2.2 a ha)⟩

theorem pure (a : α) (hR : ∀ s, R s a s) : Upholds I J R (Pure.pure a : Eff ε σ α) :=
  fun s hs => Ends.pure_iff.mpr ⟨by simp, fun _ => hs, by rintro _ ⟨⟩; exact hR s⟩

theorem fail (e : ε) : Upholds I J R (Eff.fail e : Eff ε σ α) :=
  fun _ hs => Ends.fail_iff.mpr ⟨by simp, fun _ => hs, by simp⟩

theorem update {g : σ → σ} {R : σ → Unit → σ → Prop} (hI : ∀ s, I s → I (g s))
    (hR : ∀ s, R s () (g s)) : Upholds I J R (Eff.update g : Eff ε σ Unit) :=
  fun s hs => Ends.update_iff.mpr ⟨by simp, fun _ => hI s hs, fun _ _ => hR s⟩

/-- Sequencing. -/
theorem bind {R₁ : σ → α → σ → Prop} {R₂ : α → σ → β → σ → Prop} {R₃ : σ → β → σ → Prop}
    {p : Eff ε σ α} {f : α → Eff ε σ β} (hp : Upholds I J R₁ p)
    (hf : ∀ a, Upholds I J (R₂ a) (f a))
    (hR : ∀ {s a u b t}, R₁ s a u → R₂ a u b t → R₃ s b t) : Upholds I J R₃ (p >>= f) := by
  intro s hs
  refine Ends.bind (hp s hs) ?_ ?_ ?_
  · rintro a u ⟨-, hu, hsu⟩
    refine (hf a u (hu (by simp))).mono fun r t ht => ⟨ht.1, ht.2.1, fun b hb => ?_⟩
    exact hR (hsu a rfl) (ht.2.2 b hb)
  · exact fun e u hu => ⟨by simp, fun _ => hu.2.1 (by simp), by simp⟩
  · exact fun u hu => ⟨fun _ => hu.1 rfl, by simp, by simp⟩

theorem read_bind {g : σ → β} {f : β → Eff ε σ α} (hf : ∀ b, Upholds I J R (f b)) :
    Upholds I J R (Eff.read g >>= f) :=
  fun s hs => hf (g s) s hs

/-- The state that was read is the one to start from. -/
theorem get_bind {f : σ → Eff ε σ α}
    (hf : ∀ u, Upholds I J (fun s a t => s = u → R s a t) (f u)) :
    Upholds I J R (Eff.get >>= f) :=
  fun s hs => Ends.get_bind_iff.mpr
    ((hf s s hs).mono fun _ _ h => ⟨h.1, h.2.1, fun a ha => h.2.2 a ha rfl⟩)

theorem mapErr {p : Eff ε σ α} {g : ε → ε} (hp : Upholds I J R p) :
    Upholds I J R (Eff.mapErr g p) :=
  fun s hs => Ends.mapErr (hp s hs) (fun _ _ h => h)
    (fun _ _ h => ⟨by simp, fun _ => h.2.1 (by simp), by simp⟩) fun _ h => h

end Upholds

/-! ## Properties of composed calls -/

/-- A property of calls that composed calls have when their parts have it. -/
structure Compositional (P : ∀ {α : Type}, Eff ε σ α → Prop) : Prop where
  pure : ∀ {α : Type} (a : α), P (Pure.pure a : Eff ε σ α)
  get : P (Eff.get : Eff ε σ σ)
  bind : ∀ {α β : Type} {p : Eff ε σ α} {f : α → Eff ε σ β},
    P p → (∀ a, P (f a)) → P (p >>= f)

theorem Returns.compositional (I : σ → Prop) :
    Compositional (ε := ε) (fun {_} p => Returns I p) where
  pure := .pure
  get := fun s hs => ⟨⟨s, rfl⟩, hs⟩
  bind := .bind

theorem Respects.compositional (R : σ → σ → Prop) [Std.Refl R] [IsTrans σ R] :
    Compositional (ε := ε) (fun {_} p => Respects R p) where
  pure := .pure
  get := fun s => Std.Refl.refl s
  bind := .bind

theorem Upholds.compositional (I J : σ → Prop) :
    Compositional (ε := ε) (fun {_} p => Upholds I J (fun _ _ _ => True) p) where
  pure := fun a => .pure a fun _ => trivial
  get := fun s hs => ⟨by simp [Eff.get], fun _ => hs, fun _ _ => trivial⟩
  bind := fun hp hf => .bind hp hf fun _ _ => trivial

end Segstore
