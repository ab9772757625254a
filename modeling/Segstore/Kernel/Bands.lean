import Mathlib.Algebra.Order.Field.Basic
import Mathlib.Algebra.Order.Ring.Basic
import Mathlib.Data.List.Perm.Basic
import Mathlib.Tactic.ByContra
import Mathlib.Tactic.Linarith

/-!
# Bands

Items come in by ascending size, and each goes into the first band that takes
it or into a new one.  A band that refuses an item holds another one smaller by
a factor.  So every band lies a factor above each band before it, and there are
no more bands than powers of that factor between the smallest and the largest
size.
-/

namespace Segstore

variable {α β K : Type}

/-- How bands are formed: whether a band takes an item, the summary of a new
band, and the summary of a band of so many items after one more. -/
structure BandRule (α β : Type) where
  takes : β → α → Bool
  start : α → β
  grow : β → Nat → α → β

namespace BandRule

/-- Put an item into the first band that takes it, or into a new one. -/
def place (rule : BandRule α β) (x : α) : List (β × List α) → List (β × List α)
  | [] => [(rule.start x, [x])]
  | (b, xs) :: rest =>
      if rule.takes b x then
        (rule.grow b xs.length x, xs ++ [x]) :: rest
      else
        (b, xs) :: rule.place x rest

/-- The bands of a list of items. -/
def bands (rule : BandRule α β) (items : List α) (bs : List (β × List α)) : List (β × List α) :=
  items.foldl (fun bs x => rule.place x bs) bs

variable {rule : BandRule α β}

/-- An item goes into exactly one band. -/
theorem place_items (rule : BandRule α β) (x : α) (bs : List (β × List α)) :
    ((rule.place x bs).flatMap Prod.snd).Perm (x :: bs.flatMap Prod.snd) := by
  induction bs with
  | nil => exact List.Perm.refl _
  | cons p bs ih =>
      obtain ⟨b, xs⟩ := p
      rw [place]
      split
      · simp only [List.flatMap_cons, List.append_assoc, List.singleton_append]
        exact List.perm_middle
      · simp only [List.flatMap_cons]
        exact (ih.append_left xs).trans List.perm_middle

/-- Where the items of a band come from after one more was placed. -/
theorem mem_place {x : α} {bs : List (β × List α)} {p : β × List α}
    (hp : p ∈ rule.place x bs) :
    p ∈ bs ∨ p.2 = [x] ∨ ∃ q ∈ bs, p.2 = q.2 ++ [x] := by
  induction bs with
  | nil => exact .inr (.inl (List.mem_singleton.mp hp ▸ rfl))
  | cons q bs ih =>
      obtain ⟨b, xs⟩ := q
      rw [place] at hp
      split at hp
      · rcases List.mem_cons.mp hp with rfl | hp
        · exact .inr (.inr ⟨(b, xs), List.mem_cons_self, rfl⟩)
        · exact .inl (List.mem_cons_of_mem _ hp)
      · rcases List.mem_cons.mp hp with rfl | hp
        · exact .inl List.mem_cons_self
        · rcases ih hp with hp | hp | ⟨q, hq, hp⟩
          · exact .inl (List.mem_cons_of_mem _ hp)
          · exact .inr (.inl hp)
          · exact .inr (.inr ⟨q, List.mem_cons_of_mem _ hq, hp⟩)

end BandRule

/-! ## Bands that grow apart -/

section Graded

variable [Mul K] [LE K] (size : α → K) (g : K)

/-- The items of the second band are larger than one of the first by the
factor. -/
def Above (p q : β × List α) : Prop :=
  ∃ x ∈ p.2, ∀ y ∈ q.2, g * size x ≤ size y

/-- Bands with sound summaries, each above those before it. -/
structure Graded (J : β → List α → Prop) (bs : List (β × List α)) : Prop where
  nonempty : ∀ p ∈ bs, p.2 ≠ []
  sound : ∀ p ∈ bs, J p.1 p.2
  above : bs.Pairwise (Above size g)

/-- A rule that grades up to `N` admissible items: its summaries stay sound, and
a band that refuses an item holds one smaller by the factor. -/
structure BandRule.Grades (rule : BandRule α β) (D : α → Prop) (N : Nat)
    (J : β → List α → Prop) : Prop where
  start : ∀ {x}, 0 < N → D x → J (rule.start x) [x]
  grow : ∀ {b xs x}, J b xs → D x → (∀ y ∈ xs, size y ≤ size x) → rule.takes b x = true →
    xs.length < N → J (rule.grow b xs.length x) (xs ++ [x])
  refuse : ∀ {b xs x}, J b xs → D x → (∀ y ∈ xs, size y ≤ size x) →
    rule.takes b x = false → ∃ y ∈ xs, g * size y ≤ size x

variable {size g} {rule : BandRule α β} {D : α → Prop} {N : Nat} {J : β → List α → Prop}

theorem Graded.nil : Graded size g J ([] : List (β × List α)) :=
  ⟨by simp, by simp, List.Pairwise.nil⟩

theorem Graded.tail {p : β × List α} {bs : List (β × List α)}
    (h : Graded size g J (p :: bs)) : Graded size g J bs :=
  ⟨fun q hq => h.nonempty q (List.mem_cons_of_mem _ hq),
    fun q hq => h.sound q (List.mem_cons_of_mem _ hq), h.above.of_cons⟩

end Graded

section Ordered

variable [Mul K] [Preorder K] {size : α → K} {g : K} {rule : BandRule α β} {D : α → Prop}
  {N : Nat} {J : β → List α → Prop}

/-- A larger item leaves the bands graded. -/
theorem Graded.place (hrule : rule.Grades size g D N J) {bs : List (β × List α)}
    (h : Graded size g J bs) {x : α} (hx : D x)
    (hasc : ∀ p ∈ bs, ∀ y ∈ p.2, size y ≤ size x)
    (hN : (bs.flatMap Prod.snd).length < N) : Graded size g J (rule.place x bs) := by
  induction bs with
  | nil =>
      refine ⟨?_, ?_, List.pairwise_singleton _ _⟩
      · simp [BandRule.place]
      · intro p hp
        rw [List.mem_singleton.mp hp]
        exact hrule.start (Nat.zero_lt_of_lt hN) hx
  | cons p bs ih =>
      obtain ⟨b, xs⟩ := p
      rw [List.flatMap_cons, List.length_append] at hN
      have hxs := hasc (b, xs) List.mem_cons_self
      obtain ⟨hfirst, -⟩ := List.pairwise_cons.mp h.above
      rw [BandRule.place]
      split
      · rename_i htakes
        refine ⟨?_, ?_, List.pairwise_cons.mpr ⟨fun q hq => ?_, h.tail.above⟩⟩
        · intro q hq
          rcases List.mem_cons.mp hq with rfl | hq
          · simp
          · exact h.tail.nonempty q hq
        · intro q hq
          rcases List.mem_cons.mp hq with rfl | hq
          · exact hrule.grow (h.sound _ List.mem_cons_self) hx hxs htakes
              (by dsimp only at hN; omega)
          · exact h.tail.sound q hq
        · obtain ⟨y, hy, hle⟩ := hfirst q hq
          exact ⟨y, List.mem_append_left _ hy, hle⟩
      · rename_i hrefuse
        have hrest := ih h.tail (fun q hq => hasc q (List.mem_cons_of_mem _ hq)) (by omega)
        refine ⟨?_, ?_, List.pairwise_cons.mpr ⟨fun q hq => ?_, hrest.above⟩⟩
        · exact List.forall_mem_cons.mpr ⟨h.nonempty _ List.mem_cons_self, hrest.nonempty⟩
        · exact List.forall_mem_cons.mpr ⟨h.sound _ List.mem_cons_self, hrest.sound⟩
        rcases BandRule.mem_place hq with hq | hq | ⟨q', hq', hq⟩
        · exact hfirst q hq
        · obtain ⟨y, hy, hle⟩ := hrule.refuse (h.sound _ List.mem_cons_self) hx hxs
            (Bool.not_eq_true _ ▸ hrefuse)
          refine ⟨y, hy, ?_⟩
          rw [hq]
          simpa using hle
        · -- the band that took the item was already above, with an item below this one
          obtain ⟨y, hy, hle⟩ := hfirst q' hq'
          obtain ⟨z, hz⟩ := List.exists_mem_of_ne_nil _ (h.tail.nonempty q' hq')
          refine ⟨y, hy, ?_⟩
          rw [hq, List.forall_mem_append]
          refine ⟨hle, fun w hw => ?_⟩
          rw [List.mem_singleton.mp hw]
          exact (hle z hz).trans (hasc q' (List.mem_cons_of_mem _ hq') z hz)

/-- Items by ascending size come into graded bands. -/
theorem Graded.bands (hrule : rule.Grades size g D N J) (items : List α)
    {bs : List (β × List α)} (h : Graded size g J bs) (hitems : ∀ x ∈ items, D x)
    (hsorted : items.Pairwise (size · ≤ size ·))
    (hasc : ∀ p ∈ bs, ∀ y ∈ p.2, ∀ x ∈ items, size y ≤ size x)
    (hN : (bs.flatMap Prod.snd).length + items.length ≤ N) :
    Graded size g J (rule.bands items bs) := by
  induction items generalizing bs with
  | nil => exact h
  | cons x items ih =>
      obtain ⟨hx, hsorted⟩ := List.pairwise_cons.mp hsorted
      rw [List.length_cons] at hN
      have hplace := h.place hrule (hitems x List.mem_cons_self)
        (fun p hp y hy => hasc p hp y hy x List.mem_cons_self) (by omega)
      show Graded size g J (rule.bands items (rule.place x bs))
      refine ih hplace (fun y hy => hitems y (List.mem_cons_of_mem _ hy)) hsorted ?_ ?_
      · intro p hp y hy z hz
        have hmem : y ∈ x :: bs.flatMap Prod.snd :=
          (rule.place_items x bs).mem_iff.mp (List.mem_flatMap.mpr ⟨p, hp, hy⟩)
        rcases List.mem_cons.mp hmem with rfl | hmem
        · exact hx z hz
        · obtain ⟨q, hq, hy⟩ := List.mem_flatMap.mp hmem
          exact hasc q hq y hy z (List.mem_cons_of_mem _ hz)
      · have hlen := (rule.place_items x bs).length_eq
        rw [List.length_cons] at hlen
        omega

end Ordered

section Count

variable [CommSemiring K] [LinearOrder K] [IsStrictOrderedRing K] {size : α → K} {g : K}
  {J : β → List α → Prop}

/-- The last of the graded bands is as many factors above the smallest size as
there are bands before it. -/
theorem Graded.pow_le {bs : List (β × List α)} (h : Graded size g J bs) (hg : 0 ≤ g) {f : K}
    (hf : ∀ p ∈ bs, ∀ x ∈ p.2, f ≤ size x) (hne : bs ≠ []) :
    ∃ p ∈ bs, ∃ x ∈ p.2, f * g ^ (bs.length - 1) ≤ size x := by
  induction bs generalizing f with
  | nil => exact absurd rfl hne
  | cons p bs ih =>
      obtain ⟨x, hx⟩ := List.exists_mem_of_ne_nil _ (h.nonempty p List.mem_cons_self)
      rw [List.length_cons, Nat.add_sub_cancel]
      by_cases hbs : bs = []
      · refine ⟨p, List.mem_cons_self, x, hx, ?_⟩
        rw [hbs, List.length_nil, pow_zero, mul_one]
        exact hf p List.mem_cons_self x hx
      · have hfirst := (List.pairwise_cons.mp h.above).1
        obtain ⟨q, hq, y, hy, hle⟩ := ih h.tail (f := g * f) (by
          intro q hq y hy
          obtain ⟨z, hz, hle⟩ := hfirst q hq
          have hfz := mul_le_mul_of_nonneg_left (hf p List.mem_cons_self z hz) hg
          exact hfz.trans (hle y hy)) hbs
        refine ⟨q, List.mem_cons_of_mem _ hq, y, hy, ?_⟩
        have hpos : 0 < bs.length := List.length_pos_of_ne_nil hbs
        have hpow : f * g ^ bs.length = g * f * g ^ (bs.length - 1) := by
          rw [mul_right_comm, ← pow_succ', Nat.sub_add_cancel hpos, mul_comm]
        rwa [hpow]

/-- There are no more bands than powers of the factor below the largest size. -/
theorem Graded.length_le {bs : List (β × List α)} (h : Graded size g J bs) (hg : 1 ≤ g) {f : K}
    (h0 : 0 ≤ f) (hf : ∀ p ∈ bs, ∀ x ∈ p.2, f ≤ size x) {B : Nat}
    (htop : ∀ p ∈ bs, ∀ x ∈ p.2, size x < f * g ^ B) : bs.length ≤ B := by
  by_contra! hmany
  obtain ⟨p, hp, x, hx, hle⟩ := h.pow_le (zero_le_one.trans hg) hf
    (List.ne_nil_of_length_pos (by omega))
  have hpow : g ^ B ≤ g ^ (bs.length - 1) := pow_le_pow_right₀ hg (by omega)
  exact absurd ((mul_le_mul_of_nonneg_left hpow h0).trans hle) (not_le_of_gt (htop p hp x hx))

end Count

/-! ## Small shares -/

section Shares

variable [Field K] [LinearOrder K] [IsStrictOrderedRing K] {h : K} {l l' : List K}

/-- Each number but the first is at most `h` times the average of those before it. -/
def Balanced (h : K) (l : List K) : Prop :=
  ∀ before x after, l = before ++ x :: after → before ≠ [] → x * before.length ≤ h * before.sum

omit [IsStrictOrderedRing K] in
theorem Balanced.concat (hl : Balanced h l) {x : K} (hx : x * l.length ≤ h * l.sum) :
    Balanced h (l ++ [x]) := by
  intro before y after heq hne
  rcases List.eq_nil_or_concat after with rfl | ⟨after, z, rfl⟩
  · obtain ⟨rfl, hxy⟩ := List.append_inj' heq rfl
    rwa [← List.singleton_inj.mp hxy]
  · rw [List.concat_eq_append, ← List.cons_append, ← List.append_assoc] at heq
    obtain ⟨rfl, -⟩ := List.append_inj' heq rfl
    exact hl before y after rfl hne

omit [IsStrictOrderedRing K] in
theorem Balanced.of_prefix (hl : Balanced h l) (hpre : l' <+: l) : Balanced h l' := by
  obtain ⟨rest, rfl⟩ := hpre
  intro before x after heq
  exact hl before x (after ++ rest) (by simp [heq])

/-- A number is a small share of all when they ascend. -/
theorem Balanced.share (hl : Balanced h l) (hsorted : l.Pairwise (· ≤ ·)) (hh : 0 < h) {x : K}
    (hx : x ∈ l) (hx0 : 0 ≤ x) {m : Nat} (hm : m ≤ l.length) :
    (1 + ((m : K) - 1) / h) * x ≤ l.sum := by
  obtain ⟨before, last, rfl⟩ : ∃ before last, l = before ++ [last] := by
    obtain rfl | ⟨before, last, rfl⟩ := List.eq_nil_or_concat l
    · cases hx
    · exact ⟨before, last, List.concat_eq_append⟩
  have hlast : x ≤ last := by
    rcases List.mem_append.mp hx with hx | hx
    · exact (List.pairwise_append.mp hsorted).2.2 x hx last List.mem_cons_self
    · exact (List.mem_singleton.mp hx).le
  have hlen : ((m : K) - 1) ≤ before.length := by
    rw [List.length_append, List.length_singleton] at hm
    rw [sub_le_iff_le_add]
    exact_mod_cast hm
  have hbefore : (before.length : K) / h * last ≤ before.sum := by
    by_cases hne : before = []
    · simp [hne]
    · rw [div_mul_eq_mul_div, div_le_iff₀ hh, mul_comm _ last, mul_comm _ h]
      exact hl before last [] rfl hne
  have hpart : ((m : K) - 1) / h * x ≤ before.length / h * last := by
    have hle := mul_le_mul_of_nonneg_right
      (div_le_div_of_nonneg_right hlen hh.le) hx0
    exact hle.trans (mul_le_mul_of_nonneg_left hlast
      (div_nonneg (Nat.cast_nonneg _) hh.le))
  rw [List.sum_append, List.sum_singleton, add_mul, one_mul]
  linarith

end Shares

end Segstore
