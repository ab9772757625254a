import Mathlib.Algebra.Order.Ring.Rat
import Mathlib.Algebra.Order.Field.Basic
import Mathlib.Tactic.Linarith
import Mathlib.Tactic.Positivity
import Mathlib.Tactic.Ring
import Segstore.Kernel.Bands
import Segstore.Memory.Groups

/-!
# How many tiers there are

`next_merge_group` puts segments of ascending size into buckets whose band lies
around a running average.  With arithmetic that rounds, as floating-point
numbers do, the buckets still lie a factor apart.  When no bucket has enough
members to merge, few segments are left.
-/

namespace Segstore

variable {α Id Item Seg F : Type}

/-! ## Arithmetic that rounds -/

/-- Numbers with a value, `none` when there is none.  Whole numbers up to `big`
are exact, comparisons are those of the values, and an operation has a relative
error of at most `ε` when its exact result lies between `1 / big` and `big`. -/
structure Rounded (F : Type) [F64 F] where
  val : F → Option Rat
  ε : Rat
  big : Rat
  nonneg : 0 ≤ ε
  lt_one : ε < 1
  ofUsize : ∀ {n : Nat}, (n : Rat) ≤ big → val (F64.ofUsize n) = some (n : Rat)
  addUsize : ∀ {m n : Nat}, ((m + n : Nat) : Rat) ≤ big →
    (F64.add (F64.ofUsize m) (F64.ofUsize n) : F) = F64.ofUsize (m + n)
  totalLe : ∀ {m n : Nat}, (m : Rat) ≤ big → (n : Rat) ≤ big →
    F64.totalLe (F64.ofUsize m : F) (F64.ofUsize n) = decide (m ≤ n)
  lt : ∀ {a b : F} {x y : Rat}, val a = some x → val b = some y → F64.lt a b = decide (x < y)
  add : ∀ {a b : F} {x y : Rat}, val a = some x → val b = some y → 1 / big ≤ x + y →
    x + y ≤ big → ∃ z, val (F64.add a b) = some z ∧
      (1 - ε) * (x + y) ≤ z ∧ z ≤ (1 + ε) * (x + y)
  mul : ∀ {a b : F} {x y : Rat}, val a = some x → val b = some y → 1 / big ≤ x * y →
    x * y ≤ big → ∃ z, val (F64.mul a b) = some z ∧
      (1 - ε) * (x * y) ≤ z ∧ z ≤ (1 + ε) * (x * y)
  div : ∀ {a b : F} {x y : Rat}, val a = some x → val b = some y → 1 / big ≤ x / y →
    x / y ≤ big → ∃ z, val (F64.div a b) = some z ∧
      (1 - ε) * (x / y) ≤ z ∧ z ≤ (1 + ε) * (x / y)

/-- Exact arithmetic does not round. -/
def Rounded.exact (big : Rat) : Rounded Rat where
  val := some
  ε := 0
  big := big
  nonneg := le_refl 0
  lt_one := zero_lt_one
  ofUsize := fun _ => rfl
  addUsize := fun _ => (Nat.cast_add _ _).symm
  totalLe := fun _ _ => by
    show decide (_ ≤ _) = _
    simp only [F64.ofUsize, Nat.cast_le]
  lt := by
    rintro a b x y ⟨⟩ ⟨⟩
    rfl
  add := by
    rintro a b x y ⟨⟩ ⟨⟩ - -
    exact ⟨_, rfl, by rw [sub_zero, one_mul]; exact le_refl _,
      by rw [add_zero, one_mul]; exact le_refl _⟩
  mul := by
    rintro a b x y ⟨⟩ ⟨⟩ - -
    exact ⟨_, rfl, by rw [sub_zero, one_mul]; exact le_refl _,
      by rw [add_zero, one_mul]; exact le_refl _⟩
  div := by
    rintro a b x y ⟨⟩ ⟨⟩ - -
    exact ⟨_, rfl, by rw [sub_zero, one_mul]; exact le_refl _,
      by rw [add_zero, one_mul]; exact le_refl _⟩

namespace Rounded

variable [F64 F] (rnd : Rounded F)

/-- What the average of `n` sizes may have lost to three roundings each. -/
def down (n : Nat) : Rat := ((1 - rnd.ε) ^ 3) ^ n

/-- What it may have gained. -/
def up (n : Nat) : Rat := ((1 + rnd.ε) ^ 3) ^ n

theorem one_sub_pos : 0 < 1 - rnd.ε := sub_pos.mpr rnd.lt_one

theorem one_add_pos : 0 < 1 + rnd.ε := add_pos_of_pos_of_nonneg one_pos rnd.nonneg

theorem one_sub_le_one : 1 - rnd.ε ≤ 1 := sub_le_self _ rnd.nonneg

theorem one_le_one_add : 1 ≤ 1 + rnd.ε := le_add_of_nonneg_right rnd.nonneg

theorem down_pos (n : Nat) : 0 < rnd.down n := pow_pos (pow_pos rnd.one_sub_pos 3) n

theorem up_pos (n : Nat) : 0 < rnd.up n := pow_pos (pow_pos rnd.one_add_pos 3) n

theorem down_le_one (n : Nat) : rnd.down n ≤ 1 :=
  pow_le_one₀ (pow_pos rnd.one_sub_pos 3).le
    (pow_le_one₀ rnd.one_sub_pos.le rnd.one_sub_le_one)

theorem one_le_up (n : Nat) : 1 ≤ rnd.up n :=
  one_le_pow₀ (one_le_pow₀ rnd.one_le_one_add)

theorem down_anti {m n : Nat} (h : m ≤ n) : rnd.down n ≤ rnd.down m :=
  pow_le_pow_of_le_one (pow_pos rnd.one_sub_pos 3).le
    (pow_le_one₀ rnd.one_sub_pos.le rnd.one_sub_le_one) h

theorem up_mono {m n : Nat} (h : m ≤ n) : rnd.up m ≤ rnd.up n :=
  pow_le_pow_right₀ (one_le_pow₀ rnd.one_le_one_add) h

/-- One more size, between `a` and `b` as the average is, moves the computed
average by three roundings out of these bounds at most, and as far above the
average at most. -/
theorem mean {avg : F} {v a b : Rat} {n k : Nat} (hv : rnd.val avg = some v) (hn : 1 ≤ n)
    (hav : a ≤ v) (hak : a ≤ k) (hvb : v ≤ b) (hkb : (k : Rat) ≤ b) (ha : 0 < a)
    (htiny : 1 / rnd.big ≤ (1 - rnd.ε) ^ 3 * a)
    (hhuge : (1 + rnd.ε) ^ 3 * b * (n + 1 : Nat) ≤ rnd.big)
    (hbig : ((n + 1 : Nat) : Rat) ≤ rnd.big) :
    ∃ z, rnd.val (F64.div (F64.add (F64.mul avg (F64.ofUsize n)) (F64.ofUsize k))
        (F64.add (F64.ofUsize n) (F64.ofUsize 1))) = some z ∧
      (1 - rnd.ε) ^ 3 * a ≤ z ∧ z ≤ (1 + rnd.ε) ^ 3 * b ∧
      z * (n + 1) ≤ (1 + rnd.ε) ^ 3 * (v * n + k) := by
  have hd := rnd.one_sub_pos
  have hu := rnd.one_add_pos
  have hb : 0 < b := ha.trans_le (hav.trans hvb)
  have hn0 : (1 : Rat) ≤ n := by exact_mod_cast hn
  rw [Nat.cast_add, Nat.cast_one] at hhuge hbig
  have hn1 : (1 : Rat) ≤ n + 1 := by linarith
  -- fewer roundings stay inside
  have hdown : ∀ i ≤ 3, 1 / rnd.big ≤ (1 - rnd.ε) ^ i * a := fun i hi => htiny.trans
    (mul_le_mul_of_nonneg_right (pow_le_pow_of_le_one hd.le rnd.one_sub_le_one hi) ha.le)
  have hup : ∀ i ≤ 3, (1 + rnd.ε) ^ i * b * (n + 1) ≤ rnd.big := fun i hi =>
    (mul_le_mul_of_nonneg_right (mul_le_mul_of_nonneg_right
      (pow_le_pow_right₀ rnd.one_le_one_add hi) hb.le) (by linarith)).trans hhuge
  obtain ⟨z₁, hz₁, hlo₁, hhi₁⟩ := rnd.mul (x := v) (y := n) hv
    (rnd.ofUsize (by linarith)) (by
      have h0 := hdown 0 (by omega)
      have hle := le_mul_of_one_le_right ha.le hn0
      have hvn := mul_le_mul_of_nonneg_right hav (zero_le_one.trans hn0)
      rw [pow_zero, one_mul] at h0
      linarith) (by
      have h0 := hup 0 (by omega)
      have hvn := mul_le_mul_of_nonneg_right hvb (zero_le_one.trans hn0)
      rw [pow_zero, one_mul] at h0
      linarith)
  have hbk : (k : Rat) ≤ rnd.big := by
    have h0 := hup 0 (by omega)
    have hle := le_mul_of_one_le_right hb.le hn1
    rw [pow_zero, one_mul] at h0
    linarith
  have hsum_lo : (1 - rnd.ε) * a * (n + 1) ≤ z₁ + k := by
    have hvn := mul_le_mul_of_nonneg_left
      (mul_le_mul_of_nonneg_right hav (zero_le_one.trans hn0)) hd.le
    have hk := mul_le_of_le_one_left ha.le rnd.one_sub_le_one
    linarith
  have hsum_hi : z₁ + k ≤ (1 + rnd.ε) * b * (n + 1) := by
    have hvn := mul_le_mul_of_nonneg_left
      (mul_le_mul_of_nonneg_right hvb (zero_le_one.trans hn0)) hu.le
    have hk := le_mul_of_one_le_left hb.le rnd.one_le_one_add
    linarith
  obtain ⟨z₂, hz₂, hlo₂, hhi₂⟩ := rnd.add (x := z₁) (y := k) hz₁ (rnd.ofUsize hbk) (by
      have h1 := hdown 1 (by omega)
      have hle := le_mul_of_one_le_right (mul_pos hd ha).le hn1
      rw [pow_one] at h1
      linarith) (by
      have h1 := hup 1 (by omega)
      rw [pow_one] at h1
      linarith)
  have hpos : (0 : Rat) < n + 1 := by linarith
  have hquot_lo : (1 - rnd.ε) ^ 2 * a ≤ z₂ / (n + 1) := by
    rw [le_div_iff₀ hpos]
    have hle := mul_le_mul_of_nonneg_left hsum_lo hd.le
    linarith
  have hquot_hi : z₂ / (n + 1) ≤ (1 + rnd.ε) ^ 2 * b := by
    rw [div_le_iff₀ hpos]
    have hle := mul_le_mul_of_nonneg_left hsum_hi hu.le
    linarith
  have hden : rnd.val (F64.add (F64.ofUsize n) (F64.ofUsize 1) : F) = some ((n : Rat) + 1) := by
    rw [rnd.addUsize (by push_cast; exact hbig), rnd.ofUsize (by push_cast; exact hbig)]
    push_cast
    rfl
  obtain ⟨z, hz, hlo, hhi⟩ := rnd.div (x := z₂) hz₂ hden
    ((hdown 2 (by omega)).trans hquot_lo) (by
      have h2 := hup 2 (by omega)
      have hle := le_mul_of_one_le_right (mul_pos (pow_pos hu 2) hb).le hn1
      linarith)
  refine ⟨z, hz, ?_, ?_, ?_⟩
  · have hle := mul_le_mul_of_nonneg_left hquot_lo hd.le
    linarith
  · have hle := mul_le_mul_of_nonneg_left hquot_hi hu.le
    linarith
  · have hk0 : (0 : Rat) ≤ k := Nat.cast_nonneg k
    have hsum : z₁ + k ≤ (1 + rnd.ε) * (v * n + k) := by
      have hle := le_mul_of_one_le_left hk0 rnd.one_le_one_add
      linarith
    calc z * (n + 1) ≤ (1 + rnd.ε) * (z₂ / (n + 1)) * (n + 1) :=
          mul_le_mul_of_nonneg_right hhi hpos.le
      _ = (1 + rnd.ε) * z₂ := by rw [mul_assoc, div_mul_cancel₀ _ hpos.ne']
      _ ≤ (1 + rnd.ε) * ((1 + rnd.ε) * ((1 + rnd.ε) * (v * n + k))) :=
          mul_le_mul_of_nonneg_left (hhi₂.trans (mul_le_mul_of_nonneg_left hsum hu.le)) hu.le
      _ = (1 + rnd.ε) ^ 3 * (v * n + k) := by ring

end Rounded

/-- Arithmetic under which the bands of a configuration separate up to `count`
segments of floored size at most `top`: the lower edge of a band lies below
every size in it, and the upper edge the factor `gap` above its smallest. -/
structure Banding {F : Type} [F64 F] (cfg : TierConfig F) extends Rounded F where
  count : Nat
  top : Nat
  low : Rat
  high : Rat
  gap : Rat
  bucketLow : val cfg.bucketLow = some low
  bucketHigh : val cfg.bucketHigh = some high
  one_le_gap : 1 ≤ gap
  lower : (1 + ε) * (toRounded.up count * low) < 1
  upper : gap ≤ (1 - ε) * (toRounded.down count * high)
  tiny : 1 / big ≤ toRounded.down count * low
  huge : toRounded.up count * (top * count) ≤ big
  wide : toRounded.up count * (top * high) ≤ big

/-- With exact arithmetic every band around its average separates. -/
def Banding.exact (cfg : TierConfig Rat) (count top : Nat) (hlow : 0 < cfg.bucketLow)
    (hlow' : cfg.bucketLow < 1) (hhigh : 1 ≤ cfg.bucketHigh) : Banding cfg where
  toRounded := .exact (max (1 / cfg.bucketLow)
    (max ((top : Rat) * count) ((top : Rat) * cfg.bucketHigh)))
  count := count
  top := top
  low := cfg.bucketLow
  high := cfg.bucketHigh
  gap := cfg.bucketHigh
  bucketLow := rfl
  bucketHigh := rfl
  one_le_gap := hhigh
  lower := by
    simpa [Rounded.up, Rounded.exact] using hlow'
  upper := by
    simp [Rounded.down, Rounded.exact]
  tiny := by
    have hle := one_div_le_one_div_of_le (one_div_pos.mpr hlow)
      (le_max_left (1 / cfg.bucketLow) (max ((top : Rat) * count) ((top : Rat) * cfg.bucketHigh)))
    rw [one_div_one_div] at hle
    simpa [Rounded.down, Rounded.exact] using hle
  huge := by
    simp [Rounded.up, Rounded.exact]
  wide := by
    simp [Rounded.up, Rounded.exact]

namespace Contents

variable [F64 F] (cfg : TierConfig F) (floor : Nat)

/-- The floored size of a member. -/
def floored (m : Nat × Nat) : Nat := max m.1 floor

/-- The buckets of `next_merge_group` as bands of members. -/
def bucketRule : BandRule (Nat × Nat) F where
  takes avg m :=
    F64.lt (F64.mul avg cfg.bucketLow) (F64.ofUsize (floored floor m)) &&
      F64.lt (F64.ofUsize (floored floor m)) (F64.mul avg cfg.bucketHigh)
  start m := F64.ofUsize (floored floor m)
  grow avg n m :=
    F64.div (F64.add (F64.mul avg (F64.ofUsize n)) (F64.ofUsize (floored floor m)))
      (F64.add (F64.ofUsize n) (F64.ofUsize 1))

theorem addToBuckets_eq (m : Nat × Nat) (bs : List (F × List (Nat × Nat))) :
    addToBuckets cfg m.1 (F64.ofUsize (floored floor m)) m.2 bs =
      (bucketRule cfg floor).place m bs := by
  induction bs with
  | nil => rfl
  | cons b bs ih =>
      rw [addToBuckets, BandRule.place, ih]
      rfl

variable {cfg} (bd : Banding cfg)

/-- A computed average lies between the members, up to rounding. -/
structure Averages (floor : Nat) (avg : F) (ms : List (Nat × Nat)) : Prop where
  few : ms.length ≤ bd.count
  small : ∀ m ∈ ms, floored floor m ≤ bd.top
  value : ∃ v, bd.val avg = some v ∧
    (∃ m ∈ ms, bd.down ms.length * floored floor m ≤ v) ∧
    ∃ m ∈ ms, v ≤ bd.up ms.length * floored floor m

variable {bd floor} in
/-- The range of an average. -/
theorem Averages.range (hfloor : 1 ≤ floor) {avg : F} {ms : List (Nat × Nat)}
    (h : Averages bd floor avg ms) : ∃ v, bd.val avg = some v ∧
      bd.down bd.count ≤ v ∧ v ≤ bd.up bd.count * bd.top := by
  obtain ⟨v, hv, ⟨x, hx, hlo⟩, y, hy, hhi⟩ := h.value
  refine ⟨v, hv, ?_, ?_⟩
  · have hone : (1 : Rat) ≤ floored floor x := by
      exact_mod_cast hfloor.trans (le_max_right _ _)
    calc bd.down bd.count ≤ bd.down ms.length := bd.down_anti h.few
      _ ≤ bd.down ms.length * floored floor x := le_mul_of_one_le_right (bd.down_pos _).le hone
      _ ≤ v := hlo
  · have htop : ((floored floor y : Nat) : Rat) ≤ bd.top := by exact_mod_cast h.small y hy
    calc v ≤ bd.up ms.length * floored floor y := hhi
      _ ≤ bd.up bd.count * bd.top :=
          mul_le_mul (bd.up_mono h.few) htop (Nat.cast_nonneg _) (bd.up_pos _).le

variable {bd floor}

theorem Averages.one_le_length {avg : F} {ms : List (Nat × Nat)}
    (h : Averages bd floor avg ms) : 1 ≤ ms.length := by
  obtain ⟨v, -, ⟨x, hx, -⟩, -⟩ := h.value
  exact List.length_pos_of_mem hx

theorem one_le_floored (hfloor : 1 ≤ floor) (m : Nat × Nat) :
    (1 : Rat) ≤ (floored floor m : Nat) := by
  exact_mod_cast hfloor.trans (le_max_right m.1 floor)

theorem floored_le {m m' : Nat × Nat} (h : floored floor m ≤ floored floor m') :
    ((floored floor m : Nat) : Rat) ≤ (floored floor m' : Nat) := by
  exact_mod_cast h

variable (bd) in
theorem low_le_one : bd.low ≤ 1 := by
  by_contra! hlow
  have hu := bd.one_le_up bd.count
  have hprod := mul_le_mul hu hlow.le zero_le_one (zero_le_one.trans hu)
  have hle := mul_le_mul_of_nonneg_right bd.one_le_one_add
    (zero_le_one.trans (by simpa using hprod) : (0 : Rat) ≤ bd.up bd.count * bd.low)
  linarith [bd.lower]

variable (bd) in
theorem low_pos (h : 0 < bd.big) : 0 < bd.low := by
  have hprod := (one_div_pos.mpr h).trans_le bd.tiny
  exact pos_of_mul_pos_right hprod (bd.down_pos _).le

variable (bd) in
theorem one_le_high : 1 ≤ bd.high := by
  have hprod : 0 < bd.down bd.count * bd.high :=
    pos_of_mul_pos_right (zero_lt_one.trans_le (bd.one_le_gap.trans bd.upper)) bd.one_sub_pos.le
  have hhigh := pos_of_mul_pos_right hprod (bd.down_pos _).le
  have hle := mul_le_of_le_one_left hhigh.le (bd.down_le_one bd.count)
  have hle' := mul_le_of_le_one_left hprod.le bd.one_sub_le_one
  linarith [bd.one_le_gap, bd.upper]

variable (bd) in
theorem tiny_le_down : 1 / bd.big ≤ bd.down bd.count :=
  bd.tiny.trans (mul_le_of_le_one_right (bd.down_pos _).le (low_le_one bd))

variable (bd) in
theorem top_count_le : (bd.top : Rat) * bd.count ≤ bd.big :=
  (le_mul_of_one_le_left (by positivity) (bd.one_le_up _)).trans bd.huge

variable (bd) in
/-- Sizes up to the top are exact. -/
theorem le_big {n : Nat} (hcount : 0 < bd.count) (hn : n ≤ bd.top) : (n : Rat) ≤ bd.big := by
  have hle : (n : Rat) ≤ bd.top := by exact_mod_cast hn
  have h1 : (1 : Rat) ≤ bd.count := by exact_mod_cast hcount
  linarith [top_count_le bd, le_mul_of_one_le_right (Nat.cast_nonneg (α := Rat) bd.top) h1]

/-- The average of a new bucket is its one member. -/
theorem Averages.start (hfloor : 1 ≤ floor) {m : Nat × Nat} (hcount : 0 < bd.count)
    (hm : floored floor m ≤ bd.top) :
    Averages bd floor ((bucketRule cfg floor).start m) [m] := by
  have hone := one_le_floored hfloor m
  refine ⟨hcount, by simpa using hm, _, bd.ofUsize (le_big bd hcount hm),
    ⟨m, List.mem_cons_self, ?_⟩, m, List.mem_cons_self, ?_⟩
  · exact mul_le_of_le_one_left (zero_le_one.trans hone) (bd.down_le_one _)
  · exact le_mul_of_one_le_left (zero_le_one.trans hone) (bd.one_le_up _)

/-- The computed average after a larger member. -/
theorem Averages.next (hfloor : 1 ≤ floor) {avg : F} {ms : List (Nat × Nat)} {m : Nat × Nat}
    (h : Averages bd floor avg ms) (hm : floored floor m ≤ bd.top)
    (hasc : ∀ m' ∈ ms, ((floored floor m' : Nat) : Rat) ≤ (floored floor m : Nat))
    (hlt : ms.length < bd.count) {v : Rat} (hv : bd.val avg = some v) :
    ∃ z, bd.val ((bucketRule cfg floor).grow avg ms.length m) = some z ∧
      (∃ x ∈ ms, bd.down (ms.length + 1) * (floored floor x : Nat) ≤ z) ∧
      z ≤ bd.up (ms.length + 1) * (floored floor m : Nat) ∧
      z * (ms.length + 1) ≤ (1 + bd.ε) ^ 3 * (v * ms.length + (floored floor m : Nat)) := by
  have hn := h.one_le_length
  obtain ⟨hfew, hsmall, v', hv', ⟨x, hx, hlo⟩, y, hy, hhi⟩ := h
  obtain rfl : v = v' := Option.some_inj.mp (hv.symm.trans hv')
  have hone := one_le_floored hfloor x
  have hs0 : (0 : Rat) ≤ (floored floor m : Nat) := Nat.cast_nonneg _
  have htop : ((floored floor m : Nat) : Rat) ≤ bd.top := by exact_mod_cast hm
  have hcount : ((ms.length + 1 : Nat) : Rat) ≤ bd.count := by exact_mod_cast hlt
  have hc0 : (0 : Rat) ≤ bd.count := Nat.cast_nonneg _
  have hdown : (1 - bd.ε) ^ 3 * (bd.down ms.length * (floored floor x : Nat)) =
      bd.down (ms.length + 1) * (floored floor x : Nat) := by
    rw [Rounded.down, Rounded.down, pow_succ' _ ms.length, mul_assoc]
  have hup : (1 + bd.ε) ^ 3 * (bd.up ms.length * (floored floor m : Nat)) =
      bd.up (ms.length + 1) * (floored floor m : Nat) := by
    rw [Rounded.up, Rounded.up, pow_succ' _ ms.length, mul_assoc]
  have hrange : bd.up (ms.length + 1) * (floored floor m : Nat) * (ms.length + 1 : Nat) ≤
      bd.big := by
    rw [mul_assoc]
    refine le_trans ?_ bd.huge
    exact mul_le_mul (bd.up_mono hlt) (mul_le_mul htop hcount (Nat.cast_nonneg _)
      (Nat.cast_nonneg _)) (by positivity) (bd.up_pos _).le
  obtain ⟨z, hz, hzlo, hzhi, hmean⟩ := bd.mean (a := bd.down ms.length * (floored floor x : Nat))
    (b := bd.up ms.length * (floored floor m : Nat)) (k := floored floor m) hv hn hlo
    ((mul_le_of_le_one_left (zero_le_one.trans hone) (bd.down_le_one _)).trans (hasc x hx))
    (hhi.trans (mul_le_mul_of_nonneg_left (hasc y hy) (bd.up_pos _).le))
    (le_mul_of_one_le_left hs0 (bd.one_le_up _))
    (mul_pos (bd.down_pos _) (zero_lt_one.trans_le hone))
    (by
      rw [hdown]
      have hle := le_mul_of_one_le_right (bd.down_pos (ms.length + 1)).le hone
      linarith [tiny_le_down bd, bd.down_anti (show ms.length + 1 ≤ bd.count from hlt)])
    (by rw [hup]; exact hrange)
    (by
      have hle := one_le_floored hfloor m
      have h1 := le_mul_of_one_le_left (Nat.cast_nonneg (α := Rat) bd.count) (hle.trans htop)
      linarith [top_count_le bd])
  rw [hdown] at hzlo
  rw [hup] at hzhi
  exact ⟨z, hz, ⟨x, hx, hzlo⟩, hzhi, hmean⟩

/-- A larger member keeps the average between the members. -/
theorem Averages.grow (hfloor : 1 ≤ floor) {avg : F} {ms : List (Nat × Nat)} {m : Nat × Nat}
    (h : Averages bd floor avg ms) (hm : floored floor m ≤ bd.top)
    (hasc : ∀ m' ∈ ms, ((floored floor m' : Nat) : Rat) ≤ (floored floor m : Nat))
    (hlt : ms.length < bd.count) :
    Averages bd floor ((bucketRule cfg floor).grow avg ms.length m) (ms ++ [m]) := by
  obtain ⟨v, hv, -⟩ := h.value
  obtain ⟨z, hz, ⟨x, hx, hlo⟩, hhi, -⟩ := h.next hfloor hm hasc hlt hv
  refine ⟨?_, ?_, z, hz, ⟨x, List.mem_append_left _ hx, ?_⟩, m, by simp, ?_⟩
  · rw [List.length_append]
    exact hlt
  · exact List.forall_mem_append.mpr ⟨h.small, by simpa using hm⟩
  · rwa [List.length_append]
  · rwa [List.length_append]

/-- The computed upper edge of a band. -/
theorem Averages.edge (hfloor : 1 ≤ floor) {avg : F} {ms : List (Nat × Nat)}
    (h : Averages bd floor avg ms) {v : Rat} (hv : bd.val avg = some v) :
    ∃ z, bd.val (F64.mul avg cfg.bucketHigh) = some z ∧
      (1 - bd.ε) * (v * bd.high) ≤ z ∧ z ≤ (1 + bd.ε) * (v * bd.high) := by
  obtain ⟨v', hv', hlo, hhi⟩ := h.range hfloor
  obtain rfl : v = v' := Option.some_inj.mp (hv.symm.trans hv')
  have hpos : 0 < v := (bd.down_pos _).trans_le hlo
  have hhigh := one_le_high bd
  exact bd.mul hv bd.bucketHigh
    (by linarith [tiny_le_down bd, le_mul_of_one_le_right hpos.le hhigh])
    (by linarith [bd.wide, mul_le_mul_of_nonneg_right hhi (zero_le_one.trans hhigh)])

/-- A bucket refuses a larger member only if that exceeds one of its own by the
gap. -/
theorem Averages.refuse (hfloor : 1 ≤ floor) {avg : F} {ms : List (Nat × Nat)} {m : Nat × Nat}
    (h : Averages bd floor avg ms) (hm : floored floor m ≤ bd.top)
    (hasc : ∀ m' ∈ ms, ((floored floor m' : Nat) : Rat) ≤ (floored floor m : Nat))
    (hno : (bucketRule cfg floor).takes avg m = false) :
    ∃ x ∈ ms, bd.gap * (floored floor x : Nat) ≤ (floored floor m : Nat) := by
  have hn := h.one_le_length
  have hone := one_le_floored hfloor m
  obtain ⟨v, hv, hvlo, hvhi⟩ := h.range hfloor
  obtain ⟨z', hz', hzlo', -⟩ := h.edge hfloor hv
  obtain ⟨hfew, hsmall, v', hv', ⟨x, hx, hlo⟩, y, hy, hhi⟩ := h
  obtain rfl : v = v' := Option.some_inj.mp (hv.symm.trans hv')
  have htop : ((floored floor m : Nat) : Rat) ≤ bd.top := by exact_mod_cast hm
  have hcount : (1 : Rat) ≤ bd.count := by exact_mod_cast hn.trans hfew
  have htopcount := top_count_le bd
  have htop1 := le_mul_of_one_le_right (Nat.cast_nonneg (α := Rat) bd.top) hcount
  have hbig : 0 < bd.big := by linarith
  have hlow := low_pos bd hbig
  have hvpos : 0 < v := (bd.down_pos _).trans_le hvlo
  have hhigh := one_le_high bd
  have hs := bd.ofUsize (n := floored floor m) (by linarith)
  -- the lower edge lies below the member
  obtain ⟨z, hz, -, hzhi⟩ := bd.mul hv bd.bucketLow
    (bd.tiny.trans (mul_le_mul_of_nonneg_right hvlo hlow.le))
    (by
      have hle := mul_le_of_le_one_right hvpos.le (low_le_one bd)
      have hup := mul_le_mul_of_nonneg_left htop1 (bd.up_pos bd.count).le
      linarith [bd.huge])
  have hbelow : z < (floored floor m : Nat) := by
    have hmean : v ≤ bd.up bd.count * (floored floor m : Nat) :=
      hhi.trans (mul_le_mul (bd.up_mono hfew) (hasc y hy) (Nat.cast_nonneg _) (bd.up_pos _).le)
    calc z ≤ (1 + bd.ε) * (v * bd.low) := hzhi
      _ ≤ (1 + bd.ε) * (bd.up bd.count * (floored floor m : Nat) * bd.low) :=
          mul_le_mul_of_nonneg_left (mul_le_mul_of_nonneg_right hmean hlow.le) bd.one_add_pos.le
      _ = (1 + bd.ε) * (bd.up bd.count * bd.low) * (floored floor m : Nat) := by ring
      _ < (floored floor m : Nat) :=
          mul_lt_of_lt_one_left (zero_lt_one.trans_le hone) bd.lower
  -- so it is the upper edge that it exceeds
  have habove : z' ≤ (floored floor m : Nat) := by
    simp only [bucketRule, bd.lt hz hs, bd.lt hs hz', hbelow, decide_true, Bool.true_and,
      decide_eq_false_iff_not, not_lt] at hno
    exact hno
  refine ⟨x, hx, ?_⟩
  have hmean : bd.down bd.count * (floored floor x : Nat) ≤ v :=
    (mul_le_mul_of_nonneg_right (bd.down_anti hfew) (Nat.cast_nonneg _)).trans hlo
  calc bd.gap * (floored floor x : Nat)
      ≤ (1 - bd.ε) * (bd.down bd.count * bd.high) * (floored floor x : Nat) :=
        mul_le_mul_of_nonneg_right bd.upper (Nat.cast_nonneg _)
    _ = (1 - bd.ε) * (bd.down bd.count * (floored floor x : Nat) * bd.high) := by ring
    _ ≤ (1 - bd.ε) * (v * bd.high) :=
        mul_le_mul_of_nonneg_left
          (mul_le_mul_of_nonneg_right hmean (zero_le_one.trans hhigh)) bd.one_sub_pos.le
    _ ≤ z' := hzlo'
    _ ≤ (floored floor m : Nat) := habove

/-- The buckets of `next_merge_group` grade its members. -/
theorem bucketRule_grades (hfloor : 1 ≤ floor) :
    (bucketRule cfg floor).Grades (fun m => ((floored floor m : Nat) : Rat)) bd.gap
      (fun m => floored floor m ≤ bd.top) bd.count (Averages bd floor) where
  start := fun hN hm => .start hfloor hN hm
  grow := fun h hm hasc _ hlt => h.grow hfloor hm hasc hlt
  refuse := fun h hm hasc hno => h.refuse hfloor hm hasc hno

/-! ## The number of buckets -/

/-- The entry that `next_merge_group` makes of a member. -/
def entry (floor : Nat) (m : Nat × Nat) : Nat × F × Nat :=
  (m.1, F64.ofUsize (floored floor m), m.2)

/-- The members that the cap does not freeze. -/
def unfrozen (cfg : TierConfig F) (sizes : List Nat) : List (Nat × Nat) :=
  sizes.zipIdx.filter (fun m => decide (m.1 ≤ cfg.maxMergedLen / 2))

omit [F64 F] in
theorem length_unfrozen_le (cfg : TierConfig F) (sizes : List Nat) :
    (unfrozen cfg sizes).length ≤ sizes.length := by
  refine (List.length_filter_le _ _).trans ?_
  rw [List.length_zipIdx]

omit [F64 F] in
theorem floored_unfrozen_le {sizes : List Nat} {top : Nat} {e : Nat × Nat}
    (he : e ∈ unfrozen cfg sizes) (htop : max (cfg.maxMergedLen / 2) floor ≤ top) :
    floored floor e ≤ top :=
  (max_le_max_right _ (of_decide_eq_true (List.mem_filter.mp he).2)).trans htop

theorem eligible_eq (flushThreshold : Nat) (sizes : List Nat) :
    eligible cfg flushThreshold sizes =
      (unfrozen cfg sizes).map (entry (max flushThreshold 1)) := by
  rw [eligible, unfrozen, List.filter_map]
  rfl

theorem foldl_entry (ms : List (Nat × Nat)) (bs : List (F × List (Nat × Nat))) :
    (ms.map (entry floor)).foldl (fun bs e => addToBuckets cfg e.1 e.2.1 e.2.2 bs) bs =
      (bucketRule cfg floor).bands ms bs := by
  induction ms generalizing bs with
  | nil => rfl
  | cons m ms ih =>
      rw [List.map_cons, List.foldl_cons, ih]
      exact congrArg _ (addToBuckets_eq cfg floor m bs)

/-- The buckets are those of the members by ascending floored size. -/
theorem tierBuckets_perm (ms : List (Nat × Nat))
    (hms : ∀ m ∈ ms, ((floored floor m : Nat) : Rat) ≤ bd.big) :
    (tierBuckets cfg (ms.map (entry floor))).Perm ((bucketRule cfg floor).bands
      (ms.insertionSort (fun m m' => floored floor m ≤ floored floor m')) []) := by
  have hsort : (ms.insertionSort (fun m m' => floored floor m ≤ floored floor m')).map
      (entry floor) = (ms.map (entry (F := F) floor)).insertionSort
        (fun a b => F64.totalLe a.2.1 b.2.1) := by
    refine List.map_insertionSort _ _ _ _ fun m hm m' hm' => ?_
    rw [show F64.totalLe (entry (F := F) floor m).2.1 (entry (F := F) floor m').2.1 = _ from
      bd.totalLe (hms m hm) (hms m' hm'), decide_eq_true_iff]
  rw [← foldl_entry, hsort]
  exact List.perm_insertionSort _ _

/-- Buckets are graded by every rule for their summaries. -/
theorem tierBuckets_graded (bd : Banding cfg) {J : F → List (Nat × Nat) → Prop}
    (hrule : (bucketRule cfg floor).Grades (fun m => ((floored floor m : Nat) : Rat)) bd.gap
      (fun m => floored floor m ≤ bd.top) bd.count J) {ms : List (Nat × Nat)}
    (hcount : ms.length ≤ bd.count) (htop : ∀ m ∈ ms, floored floor m ≤ bd.top) :
    ∃ bs, (tierBuckets cfg (ms.map (entry floor))).Perm bs ∧
      Graded (fun m => ((floored floor m : Nat) : Rat)) bd.gap J bs := by
  have hbig : ∀ m ∈ ms, ((floored floor m : Nat) : Rat) ≤ bd.big := fun m hm =>
    le_big bd ((List.length_pos_of_mem hm).trans_le hcount) (htop m hm)
  have hsorted := List.perm_insertionSort
    (fun m m' : Nat × Nat => floored floor m ≤ floored floor m') ms
  have : Std.Total (fun m m' : Nat × Nat => floored floor m ≤ floored floor m') :=
    ⟨fun m m' => Nat.le_total _ _⟩
  have : IsTrans (Nat × Nat) (fun m m' => floored floor m ≤ floored floor m') :=
    ⟨fun _ _ _ => Nat.le_trans⟩
  exact ⟨_, tierBuckets_perm ms hbig, Graded.nil.bands hrule
    (ms.insertionSort (fun m m' => floored floor m ≤ floored floor m'))
    (fun m hm => htop m (hsorted.mem_iff.mp hm))
    ((List.pairwise_insertionSort _ ms).imp fun h => floored_le h) (by simp)
    (by simpa [hsorted.length_eq] using hcount)⟩

/-- The buckets of few members are no more than the powers of the gap between
the floor and the largest member. -/
theorem length_tierBuckets_le (bd : Banding cfg) (hfloor : 1 ≤ floor) {ms : List (Nat × Nat)}
    (hcount : ms.length ≤ bd.count) (htop : ∀ m ∈ ms, floored floor m ≤ bd.top) {B : Nat}
    (hB : (bd.top : Rat) < floor * bd.gap ^ B) :
    (tierBuckets cfg (ms.map (entry floor))).length ≤ B := by
  obtain ⟨bs, hperm, hgraded⟩ := tierBuckets_graded bd (bucketRule_grades hfloor) hcount htop
  rw [hperm.length_eq]
  refine hgraded.length_le (f := (floor : Rat)) bd.one_le_gap (Nat.cast_nonneg _) ?_ ?_
  · intro p hp x hx
    exact_mod_cast le_max_right x.1 floor
  · intro p hp x hx
    exact lt_of_le_of_lt (by exact_mod_cast (hgraded.sound p hp).small x hx) hB

/-! ## What is left without a group to merge -/

omit [F64 F] in
/-- Members that fit together are chosen together. -/
theorem le_length_chooseFrom {k : Nat} (ms : List (Nat × Nat)) (chosen : List Nat) (total : Nat)
    (hk : k ≤ ms.length) (hmax : chosen.length + k ≤ cfg.maxMerge)
    (hsum : total + ((ms.take k).map Prod.fst).sum ≤ cfg.maxMergedLen) :
    chosen.length + k ≤ (chooseFrom cfg ms chosen total).length := by
  induction k generalizing ms chosen total with
  | zero =>
      obtain ⟨l, -, heq, -⟩ := chooseFrom_spec cfg ms chosen total
      rw [heq, List.length_append]
      omega
  | succ k ih =>
      obtain ⟨⟨raw, idx⟩, ms, rfl⟩ := List.exists_cons_of_length_pos (Nat.zero_lt_of_lt hk)
      rw [List.take_succ_cons, List.map_cons, List.sum_cons] at hsum
      dsimp only at hsum
      have hover : ¬ cfg.maxMergedLen < total + raw := by omega
      rw [chooseFrom, if_neg (by omega), if_neg (by simp [hover])]
      have hrest := ih ms (chosen ++ [idx]) (total + raw) (by simpa using hk)
        (by rw [List.length_append, List.length_singleton]; omega) (by omega)
      rw [List.length_append, List.length_singleton] at hrest
      omega

omit [F64 F] in
theorem firstEligible_eq_none {minMerge : Nat} {bs : List (F × List (Nat × Nat))}
    (h : firstEligible cfg minMerge bs = none) : ∀ b ∈ bs, minMerge ≤ b.2.length →
      (chooseFrom cfg (b.2.insertionSort (fun a b => a.1 ≤ b.1)) [] 0).length < minMerge := by
  induction bs with
  | nil => simp
  | cons b bs ih =>
      obtain ⟨avg, ms⟩ := b
      rw [firstEligible] at h
      refine List.forall_mem_cons.mpr ?_
      split at h
      · rename_i hfew
        exact ⟨fun hmany => absurd hfew (Nat.not_lt.mpr hmany), ih h⟩
      · dsimp only at h
        split at h
        · cases h
        · rename_i hshort
          exact ⟨fun _ => Nat.not_le.mp hshort, ih h⟩

/-- The first of a sorted list satisfy what enough of it does. -/
theorem forall_take_of_countP {r : α → α → Prop} {p : α → Bool}
    (hp : ∀ {a b}, r a b → p b = true → p a = true) {l : List α} (hl : l.Pairwise r) {k : Nat}
    (hk : k ≤ l.countP p) : ∀ a ∈ l.take k, p a = true := by
  induction l generalizing k with
  | nil => simp
  | cons a l ih =>
      obtain ⟨ha, hl⟩ := List.pairwise_cons.mp hl
      cases k with
      | zero => simp
      | succ k =>
          have hpa : p a = true := by
            by_contra hno
            rw [List.countP_cons_of_neg hno] at hk
            obtain ⟨b, hb, hpb⟩ := List.countP_pos_iff.mp (Nat.zero_lt_of_lt hk)
            exact hno (hp (ha b hb) hpb)
          rw [List.countP_cons_of_pos hpa] at hk
          rw [List.take_succ_cons]
          exact List.forall_mem_cons.mpr ⟨hpa, ih hl (Nat.le_of_succ_le_succ hk)⟩

omit [F64 F] in
/-- A bucket with no group to merge has few members of which a whole group would
fit under the cap. -/
theorem countP_lt_of_chooseFrom {m : Nat} (hm : 1 ≤ m) (hmax : m ≤ cfg.maxMerge)
    {ms : List (Nat × Nat)} (h : m ≤ ms.length →
      (chooseFrom cfg (ms.insertionSort (fun a b => a.1 ≤ b.1)) [] 0).length < m) :
    ms.countP (fun e => decide (m * e.1 ≤ cfg.maxMergedLen)) < m := by
  by_contra! hmany
  have hperm := List.perm_insertionSort (fun a b : Nat × Nat => a.1 ≤ b.1) ms
  have : Std.Total (fun a b : Nat × Nat => a.1 ≤ b.1) := ⟨fun _ _ => Nat.le_total _ _⟩
  have : IsTrans (Nat × Nat) (fun a b => a.1 ≤ b.1) := ⟨fun _ _ _ => Nat.le_trans⟩
  have hsorted := List.pairwise_insertionSort (fun a b : Nat × Nat => a.1 ≤ b.1) ms
  have hlen : m ≤ ms.length := hmany.trans List.countP_le_length
  rw [← hperm.countP_eq] at hmany
  have hfirst := forall_take_of_countP (p := fun e => decide (m * e.1 ≤ cfg.maxMergedLen))
    (fun {a b} hab hb => by
      have hle := Nat.mul_le_mul_left m hab
      simp only [decide_eq_true_eq] at hb ⊢
      omega) hsorted hmany
  generalize hl : ms.insertionSort (fun a b => a.1 ≤ b.1) = l at *
  have hsum : ((l.take m).map Prod.fst).sum ≤ cfg.maxMergedLen := by
    have hle : ∀ n ∈ (l.take m).map Prod.fst, n ≤ cfg.maxMergedLen / m := by
      intro n hn
      obtain ⟨e, he, rfl⟩ := List.mem_map.mp hn
      exact (Nat.le_div_iff_mul_le hm).mpr (by
        have hfit := of_decide_eq_true (hfirst e he)
        rwa [Nat.mul_comm] at hfit)
    have htotal := List.sum_le_card_nsmul _ _ hle
    rw [List.length_map, Nat.nsmul_eq_mul] at htotal
    have htake : (l.take m).length ≤ m := List.length_take_le _ _
    calc ((l.take m).map Prod.fst).sum ≤ (l.take m).length * (cfg.maxMergedLen / m) := htotal
      _ ≤ m * (cfg.maxMergedLen / m) := Nat.mul_le_mul_right _ htake
      _ ≤ cfg.maxMergedLen := Nat.mul_div_le _ _
  have hchosen := le_length_chooseFrom (k := m) l [] 0 (by rw [hperm.length_eq]; exact hlen)
    (by simpa using hmax) (by simpa using hsum)
  have hlt := h hlen
  simp only [List.length_nil, Nat.zero_add] at hchosen
  omega

omit [F64 F] in
/-- The small segments are among the unfrozen members. -/
theorem countP_unfrozen (cfg : TierConfig F) {m : Nat} (hm : 2 ≤ m) (sizes : List Nat) :
    (unfrozen cfg sizes).countP (fun e => decide (m * e.1 ≤ cfg.maxMergedLen)) =
      sizes.countP (fun n => decide (m * n ≤ cfg.maxMergedLen)) := by
  have hzip : sizes.countP (fun n => decide (m * n ≤ cfg.maxMergedLen)) =
      sizes.zipIdx.countP (fun e => decide (m * e.1 ≤ cfg.maxMergedLen)) := by
    conv_lhs => rw [← List.zipIdx_map_fst 0 sizes, List.countP_map]
    rfl
  rw [hzip, unfrozen, List.countP_filter]
  refine List.countP_congr fun e _ => ?_
  simp only [Bool.and_eq_true, decide_eq_true_eq, and_iff_left_iff_imp]
  intro hsmall
  rw [Nat.le_div_iff_mul_le (by omega)]
  have hle := Nat.mul_le_mul_right e.1 hm
  omega

/-- Few segments are small when no bucket has a group to merge. -/
theorem countP_small_le (st : Store Id Item Seg) {c : Contents Id Item Seg} (bd : Banding cfg)
    {flushThreshold m B : Nat} (h : c.nextMergeGroup st cfg flushThreshold = none)
    (hm : m = max cfg.minMerge 2) (hmax : m ≤ cfg.maxMerge)
    (hcount : c.segments.length ≤ bd.count)
    (htop : max (cfg.maxMergedLen / 2) (max flushThreshold 1) ≤ bd.top)
    (hB : (bd.top : Rat) < (max flushThreshold 1 : Nat) * bd.gap ^ B) :
    (c.segments.map st.segmentLen).countP (fun n => decide (m * n ≤ cfg.maxMergedLen)) ≤
      (m - 1) * B := by
  have hfloor : 1 ≤ max flushThreshold 1 := le_max_right _ _
  have hm2 : 2 ≤ m := hm ▸ le_max_right _ _
  have hB1 : 1 ≤ B := by
    rcases Nat.eq_zero_or_pos B with rfl | hpos
    · rw [pow_zero, mul_one, Nat.cast_lt] at hB
      omega
    · exact hpos
  generalize hsizes : c.segments.map st.segmentLen = sizes
  have hlen : sizes.length ≤ bd.count := by
    rw [← hsizes, List.length_map]
    exact hcount
  rw [nextMergeGroup, hsizes, ← hm, eligible_eq, List.length_map] at h
  rw [← countP_unfrozen cfg hm2]
  split at h
  · rename_i hfew
    calc (unfrozen cfg sizes).countP _ ≤ (unfrozen cfg sizes).length := List.countP_le_length
      _ ≤ (m - 1) * 1 := by omega
      _ ≤ (m - 1) * B := Nat.mul_le_mul_left _ hB1
  · have hmembers := members_tierBuckets cfg
      ((unfrozen cfg sizes).map (entry (max flushThreshold 1)))
    have hback : ((unfrozen cfg sizes).map (entry (F := F) (max flushThreshold 1))).map
        (fun e => (e.1, e.2.2)) = unfrozen cfg sizes := by
      rw [List.map_map]
      exact List.map_id _
    rw [hback] at hmembers
    rw [← hmembers.countP_eq, members, List.countP_flatMap]
    have hbucket : ∀ n ∈ (tierBuckets cfg ((unfrozen cfg sizes).map
        (entry (max flushThreshold 1)))).map
          (List.countP (fun e => decide (m * e.1 ≤ cfg.maxMergedLen)) ∘ Prod.snd), n ≤ m - 1 := by
      intro n hn
      obtain ⟨b, hb, rfl⟩ := List.mem_map.mp hn
      have hlt := countP_lt_of_chooseFrom (by omega) hmax (firstEligible_eq_none h b hb)
      exact Nat.le_sub_one_of_lt hlt
    have hsum := List.sum_le_card_nsmul _ _ hbucket
    rw [List.length_map, Nat.nsmul_eq_mul] at hsum
    have hbuckets := length_tierBuckets_le bd hfloor
      ((length_unfrozen_le cfg sizes).trans hlen) (fun e he => floored_unfrozen_le he htop) hB
    rw [Nat.mul_comm (m - 1)]
    exact hsum.trans (Nat.mul_le_mul_right _ hbuckets)

/-- Many items make the large segments. -/
theorem countP_large_le (m cap : Nat) (sizes : List Nat) :
    sizes.countP (fun n => !decide (m * n ≤ cap)) * cap ≤ m * sizes.sum := by
  induction sizes with
  | nil => simp
  | cons n sizes ih =>
      rw [List.sum_cons, Nat.mul_add]
      by_cases hle : m * n ≤ cap
      · rw [List.countP_cons_of_neg (by simp [hle])]
        omega
      · rw [List.countP_cons_of_pos (by simp [hle]), Nat.add_one_mul]
        omega

/-- When no bucket has a group to merge, the segments are few for each factor
between the floor and the cap, and otherwise large. -/
theorem length_segments_le (st : Store Id Item Seg) {c : Contents Id Item Seg}
    (bd : Banding cfg) {flushThreshold m B : Nat}
    (h : c.nextMergeGroup st cfg flushThreshold = none) (hm : m = max cfg.minMerge 2)
    (hmax : m ≤ cfg.maxMerge) (hcap : 0 < cfg.maxMergedLen)
    (hcount : c.segments.length ≤ bd.count)
    (htop : max (cfg.maxMergedLen / 2) (max flushThreshold 1) ≤ bd.top)
    (hB : (bd.top : Rat) < (max flushThreshold 1 : Nat) * bd.gap ^ B) :
    c.segments.length ≤
      (m - 1) * B + m * (c.segments.map st.segmentLen).sum / cfg.maxMergedLen := by
  have hsmall := countP_small_le st bd h hm hmax hcount htop hB
  have hlarge := countP_large_le m cfg.maxMergedLen (c.segments.map st.segmentLen)
  rw [← Nat.le_div_iff_mul_le hcap] at hlarge
  have hsplit := List.length_eq_countP_add_countP
    (fun n => decide (m * n ≤ cfg.maxMergedLen)) (l := c.segments.map st.segmentLen)
  rw [List.length_map] at hsplit
  simp only [Bool.not_eq_true, Bool.decide_eq_false] at hsplit
  omega

end Contents

end Segstore
