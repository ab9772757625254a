import Mathlib.Data.List.Basic
import Segstore.Kernel.Effect

/-!
# Readers

A reader hands out bytes from the front until it is at its end or meets a fault.
`Parses p s Q` says which values a call on a reader returns, and what is left
then: the rules turn a parser into the grammar it accepts.  `Takes n p` bounds
how far a call reads, whether it succeeds or not.
-/

namespace Segstore

variable {ε σ τ α β : Type}

/-- A source of bytes: those to come, and the error that comes after them, if it
is not the end. -/
structure Reader (ε : Type) where
  left : List UInt8
  fault : Option ε
deriving DecidableEq

namespace Reader

/-- `Read::read_exact` into a buffer of `n` bytes. -/
def readExact (eof : ε) (n : Nat) : Eff ε (Reader ε) (List UInt8) := fun r =>
  if n ≤ r.left.length then
    (.ok (r.left.take n), { r with left := r.left.drop n })
  else
    (.err (r.fault.getD eof), { r with left := [] })

/-- `Read::take` and then `Read::read_to_end`, which appends to the buffer.  The
bytes before a fault are kept. -/
def readToEnd (limit : Nat) : Eff ε (Reader ε × List UInt8) Nat := fun s =>
  if limit ≤ s.1.left.length then
    (.ok limit, ({ s.1 with left := s.1.left.drop limit }, s.2 ++ s.1.left.take limit))
  else
    (match s.1.fault with
      | none => .ok s.1.left.length
      | some e => .err e, ({ s.1 with left := [] }, s.2 ++ s.1.left))

end Reader

/-! ## What is accepted -/

/-- The call does not stop.  It returns the values and ends in the states of
`Q`, all of them and no other. -/
def Parses (p : Eff ε σ α) (s : σ) (Q : α → σ → Prop) : Prop :=
  (p s).1 ≠ .crash ∧ ∀ a t, p s = (.ok a, t) ↔ Q a t

namespace Parses

variable {p : Eff ε σ α} {s : σ} {Q Q' : α → σ → Prop}

theorem congr (h : Parses p s Q) (hQ : ∀ a t, Q a t ↔ Q' a t) : Parses p s Q' :=
  ⟨h.1, fun a t => (h.2 a t).trans (hQ a t)⟩

theorem ok_iff (h : Parses p s Q) (a : α) : (p s).1 = .ok a ↔ ∃ t, Q a t := by
  constructor
  · exact fun ha => ⟨(p s).2, (h.2 a _).mp (Prod.ext ha rfl)⟩
  · rintro ⟨t, ht⟩
    rw [(h.2 a t).mpr ht]

/-- What is not accepted fails. -/
theorem exists_err (h : Parses p s Q) (hno : ∀ a t, ¬ Q a t) : ∃ e t, p s = (.err e, t) := by
  cases hr : p s with
  | mk r t =>
      cases r with
      | ok a => exact absurd ((h.2 a t).mp hr) (hno a t)
      | err e => exact ⟨e, t, rfl⟩
      | crash => exact absurd (congrArg Prod.fst hr) h.1

theorem pure (a : α) : Parses (Pure.pure a : Eff ε σ α) s (fun b t => b = a ∧ t = s) := by
  refine ⟨by simp [Pure.pure, Eff.ret], fun b t => ?_⟩
  simp [Pure.pure, Eff.ret, eq_comm]

theorem get : Parses (Eff.get : Eff ε σ σ) s (fun b t => b = s ∧ t = s) :=
  pure s

theorem fail (e : ε) : Parses (Eff.fail e : Eff ε σ α) s (fun _ _ => False) :=
  ⟨by simp [Eff.fail], fun a t => by simp [Eff.fail]⟩

theorem bind {f : α → Eff ε σ β} {R : α → σ → β → σ → Prop} (hp : Parses p s Q)
    (hf : ∀ a t, Q a t → Parses (f a) t (R a t)) :
    Parses (p >>= f) s (fun b u => ∃ a t, Q a t ∧ R a t b u) := by
  show Parses (Eff.andThen p f) s _
  unfold Parses Eff.andThen
  cases hr : p s with
  | mk r t =>
      cases r with
      | ok a =>
          have ha := (hp.2 a t).mp hr
          refine ⟨(hf a t ha).1, fun b u => ((hf a t ha).2 b u).trans ⟨?_, ?_⟩⟩
          · exact fun hb => ⟨a, t, ha, hb⟩
          · rintro ⟨a', t', ha', hb⟩
            have heq := (hp.2 a' t').mpr ha'
            rw [hr] at heq
            cases heq
            exact hb
      | err e =>
          refine ⟨by simp, fun b u => iff_of_false (by simp) ?_⟩
          rintro ⟨a, t', ha, -⟩
          have heq := (hp.2 a t').mpr ha
          rw [hr] at heq
          cases heq
      | crash => exact absurd (congrArg Prod.fst hr) hp.1

/-- Whatever comes after a check is reached when the check passes. -/
theorem reject_bind {c : Prop} [Decidable c] {e : ε} (h : ¬ c → Parses p s Q) :
    Parses (Eff.reject c e >>= fun _ => p) s (fun a t => ¬ c ∧ Q a t) := by
  by_cases hc : c
  · rw [Eff.reject, if_pos hc]
    refine ⟨?_, fun a t => iff_of_false ?_ fun ha => ha.1 hc⟩
    · exact fun h => by cases h
    · exact fun h => by cases h
  · rw [Eff.reject, if_neg hc]
    exact (h hc).congr fun a t => (and_iff_right hc).symm

theorem reject {c : Prop} [Decidable c] {e : ε} :
    Parses (Eff.reject c e : Eff ε σ Unit) s (fun _ t => ¬ c ∧ t = s) := by
  rw [← bind_pure (Eff.reject c e)]
  exact congr (reject_bind fun _ => pure ()) fun _ _ => by simp

theorem expect_bind {x : Option β} {b : β} {f : β → Eff ε σ α} (hx : x = some b)
    (h : Parses (f b) s Q) : Parses (Eff.expect x >>= f) s Q := by
  rw [hx]
  exact h

theorem ofExcept_bind {x : Except ε β} {f : β → Eff ε σ α} {R : β → α → σ → Prop}
    (hf : ∀ b, x = .ok b → Parses (f b) s (R b)) :
    Parses (Eff.ofExcept x >>= f) s (fun a t => ∃ b, x = .ok b ∧ R b a t) := by
  cases x with
  | ok b =>
      refine congr (hf b rfl) fun a t => ⟨fun ha => ⟨b, rfl, ha⟩, ?_⟩
      rintro ⟨_, ⟨⟩, ha⟩
      exact ha
  | error e =>
      refine congr (fail e) fun a t => iff_of_false id ?_
      rintro ⟨_, ⟨⟩, -⟩

theorem attempt (hp : Parses p s Q) : Parses (Eff.attempt p) s (fun x t =>
    (∃ a, x = .ok a ∧ Q a t) ∨ ∃ e, x = .error e ∧ p s = (.err e, t)) := by
  unfold Parses Eff.attempt
  cases hr : p s with
  | mk r t =>
      cases r with
      | ok a =>
          refine ⟨by simp, fun x u => ?_⟩
          simp only [← hp.2, hr, Prod.mk.injEq, Outcome.ok.injEq, reduceCtorEq]
          constructor
          · rintro ⟨rfl, rfl⟩
            exact .inl ⟨a, rfl, rfl, rfl⟩
          · rintro (⟨_, rfl, rfl, rfl⟩ | ⟨_, -, ⟨⟩, -⟩)
            exact ⟨rfl, rfl⟩
      | err e =>
          refine ⟨by simp, fun x u => ?_⟩
          simp only [← hp.2, hr, Prod.mk.injEq, Outcome.ok.injEq, Outcome.err.injEq, reduceCtorEq]
          constructor
          · rintro ⟨rfl, rfl⟩
            exact .inr ⟨e, rfl, rfl, rfl⟩
          · rintro (⟨_, -, ⟨⟩, -⟩ | ⟨_, rfl, rfl, rfl⟩)
            exact ⟨rfl, rfl⟩
      | crash => exact absurd (congrArg Prod.fst hr) hp.1

/-- A caught error that is raised again. -/
theorem attempt_bind {f : Except ε α → Eff ε σ β} {R : α → σ → β → σ → Prop}
    (hp : Parses p s Q) (hok : ∀ a t, Q a t → Parses (f (.ok a)) t (R a t))
    (herr : ∀ e t, Parses (f (.error e)) t fun _ _ => False) :
    Parses (Eff.attempt p >>= f) s (fun b u => ∃ a t, Q a t ∧ R a t b u) := by
  refine congr (bind hp.attempt (R := fun x t b u => ∃ a, x = .ok a ∧ R a t b u) ?_) ?_
  · rintro _ t (⟨a, rfl, ha⟩ | ⟨e, rfl, -⟩)
    · exact congr (hok a t ha) fun b u => by simp
    · exact congr (herr e t) fun b u => by simp
  · intro b u
    constructor
    · rintro ⟨_, t, ⟨a, rfl, ha⟩ | ⟨e, rfl, -⟩, a', ⟨⟩, hb⟩
      exact ⟨a, t, ha, hb⟩
    · rintro ⟨a, t, ha, hb⟩
      exact ⟨_, t, .inl ⟨a, rfl, ha⟩, a, rfl, hb⟩

/-- A call on a part of the state. -/
theorem zoom {view : σ → τ} {put : σ → τ → σ} {p : Eff ε τ α} {Q : α → τ → Prop}
    (h : Parses p (view s) Q) :
    Parses (Eff.zoom view put p) s (fun a t => ∃ u, Q a u ∧ t = put s u) := by
  refine ⟨h.1, fun a t => ?_⟩
  rw [Eff.zoom, Prod.mk.injEq]
  constructor
  · rintro ⟨ha, rfl⟩
    exact ⟨_, (h.2 a _).mp (Prod.ext ha rfl), rfl⟩
  · rintro ⟨u, hu, rfl⟩
    rw [(h.2 a u).mpr hu]
    exact ⟨rfl, rfl⟩

/-- A call on a state of its own. -/
theorem within {t : τ} {p : Eff ε τ α} {Q : α → τ → Prop} (h : Parses p t Q) :
    Parses (Eff.within t p : Eff ε σ α) s (fun a s' => (∃ u, Q a u) ∧ s' = s) :=
  congr (zoom h) fun a s' => ⟨by rintro ⟨u, hu, rfl⟩; exact ⟨⟨u, hu⟩, rfl⟩,
    by rintro ⟨⟨u, hu⟩, rfl⟩; exact ⟨u, hu, rfl⟩⟩

/-- As many bytes as asked for are taken off the front. -/
theorem readExact (eof : ε) (n : Nat) (r : Reader ε) :
    Parses (Reader.readExact eof n) r (fun bytes r' =>
      bytes.length = n ∧ r.left = bytes ++ r'.left ∧ r'.fault = r.fault) := by
  unfold Parses Reader.readExact
  split
  · rename_i hlong
    refine ⟨by simp, fun bytes r' => ?_⟩
    rw [Prod.mk.injEq]
    constructor
    · rintro ⟨⟨⟩, rfl⟩
      exact ⟨List.length_take_of_le hlong, (List.take_append_drop n r.left).symm, rfl⟩
    · rintro ⟨rfl, hleft, hfault⟩
      rw [hleft, List.take_left' rfl, List.drop_left' rfl, ← hfault]
      exact ⟨rfl, rfl⟩
  · rename_i hshort
    refine ⟨by simp, fun bytes r' => iff_of_false (by simp) ?_⟩
    rintro ⟨rfl, hleft, -⟩
    rw [hleft, List.length_append] at hshort
    omega

/-- Up to the limit, or up to the end when that comes first. -/
theorem readToEnd (limit : Nat) (r : Reader ε) (buffer : List UInt8) :
    Parses (Reader.readToEnd limit) (r, buffer) (fun n t => t.1.fault = r.fault ∧
      ∃ bytes, r.left = bytes ++ t.1.left ∧ t.2 = buffer ++ bytes ∧ bytes.length = n ∧
        (n = limit ∨ n < limit ∧ t.1.left = [] ∧ r.fault = none)) := by
  unfold Parses Reader.readToEnd
  dsimp only
  split
  · rename_i hlong
    refine ⟨by simp, fun n t => ?_⟩
    rw [Prod.mk.injEq]
    constructor
    · rintro ⟨⟨⟩, rfl⟩
      exact ⟨rfl, _, (List.take_append_drop limit r.left).symm, rfl,
        List.length_take_of_le hlong, .inl rfl⟩
    · rintro ⟨hfault, bytes, hleft, hbuffer, rfl, hn⟩
      have hlimit : bytes.length = limit := by
        rcases hn with hn | ⟨hn, hnil, -⟩
        · exact hn
        · rw [hleft, hnil, List.append_nil] at hlong
          omega
      rw [hleft, ← hlimit, List.take_left' rfl, List.drop_left' rfl, ← hbuffer, ← hfault]
      exact ⟨rfl, rfl⟩
  · rename_i hshort
    refine ⟨?_, fun n t => ?_⟩
    · cases r.fault <;> simp
    rw [Prod.mk.injEq]
    constructor
    · rintro ⟨hn, rfl⟩
      cases hfault : r.fault with
      | some e =>
          rw [hfault] at hn
          cases hn
      | none =>
          rw [hfault] at hn
          cases hn
          exact ⟨rfl, r.left, (List.append_nil _).symm, rfl, rfl,
            .inr ⟨Nat.lt_of_not_le hshort, rfl, rfl⟩⟩
    · rintro ⟨hfault, bytes, hleft, hbuffer, rfl, hn⟩
      rcases hn with hn | ⟨-, hnil, hnone⟩
      · rw [hleft, List.length_append] at hshort
        omega
      · rw [hnil, List.append_nil] at hleft
        exact ⟨by rw [hnone, hleft], by rw [hleft, ← hbuffer, ← hnil, ← hfault]⟩

end Parses

/-! ## How far a call reads -/

/-- The call takes at most `n` bytes off the front, however it ends. -/
def Takes (n : Nat) (p : Eff ε (Reader ε) α) : Prop :=
  ∀ r, Ends p r (fun _ r' => ∃ taken, r.left = taken ++ r'.left ∧ taken.length ≤ n)

namespace Takes

theorem pure (a : α) : Takes 0 (Pure.pure a : Eff ε (Reader ε) α) :=
  fun _ => ⟨[], rfl, Nat.le_refl 0⟩

theorem bind {n m : Nat} {p : Eff ε (Reader ε) α} {f : α → Eff ε (Reader ε) β}
    (hp : Takes n p) (hf : ∀ a, Takes m (f a)) : Takes (n + m) (p >>= f) := by
  intro r
  refine Ends.bind (hp r) ?_ ?_ ?_
  · rintro a r' ⟨taken, hleft, hn⟩
    refine (hf a r').mono ?_
    rintro - r'' ⟨taken', hleft', hm⟩
    refine ⟨taken ++ taken', by rw [hleft, hleft', List.append_assoc], ?_⟩
    rw [List.length_append]
    omega
  · rintro - r' ⟨taken, hleft, hn⟩
    exact ⟨taken, hleft, by omega⟩
  · rintro r' ⟨taken, hleft, hn⟩
    exact ⟨taken, hleft, by omega⟩

theorem reject_bind {n : Nat} {c : Prop} [Decidable c] {e : ε} {p : Eff ε (Reader ε) α}
    (hp : Takes n p) : Takes n (Eff.reject c e >>= fun _ => p) := by
  rw [Eff.reject]
  split
  · exact fun r => ⟨[], rfl, Nat.zero_le n⟩
  · exact hp

theorem expect_bind {n : Nat} {x : Option β} {f : β → Eff ε (Reader ε) α}
    (hf : ∀ b, Takes n (f b)) : Takes n (Eff.expect x >>= f) := by
  cases x with
  | none => exact fun r => ⟨[], rfl, Nat.zero_le n⟩
  | some b => exact hf b

theorem readExact (eof : ε) (n : Nat) : Takes n (Reader.readExact eof n) := by
  intro r
  unfold Ends Reader.readExact
  split
  · exact ⟨_, (List.take_append_drop n r.left).symm, List.length_take_le n r.left⟩
  · exact ⟨r.left, (List.append_nil _).symm, by omega⟩

end Takes

end Segstore
