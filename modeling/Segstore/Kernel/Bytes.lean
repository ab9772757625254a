import Mathlib.Algebra.Group.Nat.Defs
import Mathlib.Data.List.Basic

/-!
# Little-endian numbers and checked slices

Numbers of a fixed width as bytes, least significant byte first, and slices of
byte strings that are out of range when they reach past the end.
-/

namespace Segstore

/-! ## Fixed-width numbers -/

def U32_MAX : Nat := 2 ^ 32 - 1

def U64_MAX : Nat := 2 ^ 64 - 1

def USIZE_MAX : Nat := 2 ^ 64 - 1

/-- The `width` low bytes of a number. -/
def leBytes : Nat → Nat → List UInt8
  | 0, _ => []
  | width + 1, k => UInt8.ofNat k :: leBytes width (k / 256)

/-- The number that some bytes stand for. -/
def leValue : List UInt8 → Nat
  | [] => 0
  | b :: bytes => b.toNat + 256 * leValue bytes

@[simp] theorem length_leBytes (width k : Nat) : (leBytes width k).length = width := by
  induction width generalizing k with
  | zero => rfl
  | succ width ih => rw [leBytes, List.length_cons, ih]

theorem leValue_leBytes {width k : Nat} (h : k < 256 ^ width) :
    leValue (leBytes width k) = k := by
  induction width generalizing k with
  | zero =>
      rw [Nat.pow_zero] at h
      rw [leBytes, leValue]
      omega
  | succ width ih =>
      rw [Nat.pow_succ] at h
      rw [leBytes, leValue, ih (by omega), UInt8.toNat_ofNat']
      omega

theorem leBytes_leValue (bytes : List UInt8) : leBytes bytes.length (leValue bytes) = bytes := by
  induction bytes with
  | nil => rfl
  | cons b bytes ih =>
      have hb := b.toNat_lt
      have hlow : UInt8.ofNat (b.toNat + 256 * leValue bytes) = b := by
        rw [← UInt8.toNat_inj, UInt8.toNat_ofNat']
        omega
      have hhigh : (b.toNat + 256 * leValue bytes) / 256 = leValue bytes := by omega
      rw [List.length_cons, leBytes, leValue, hlow, hhigh, ih]

theorem leValue_lt (bytes : List UInt8) : leValue bytes < 256 ^ bytes.length := by
  induction bytes with
  | nil => exact Nat.one_pos
  | cons b bytes ih =>
      have hb := b.toNat_lt
      rw [List.length_cons, Nat.pow_succ, leValue]
      omega

/-- Bytes of one width stand for `k` exactly when they are the bytes of `k`. -/
theorem leValue_eq_iff {width k : Nat} {bytes : List UInt8} (hlen : bytes.length = width)
    (hk : k < 256 ^ width) : leValue bytes = k ↔ bytes = leBytes width k := by
  constructor
  · rintro rfl
    rw [← hlen, leBytes_leValue]
  · rintro rfl
    exact leValue_leBytes hk

/-! ## Words -/

/-- Four bytes are a word exactly when they are its bytes. -/
theorem word32_eq_iff {bytes : List UInt8} (hlen : bytes.length = 4) (x : UInt32) :
    UInt32.ofNat (leValue bytes) = x ↔ bytes = leBytes 4 x.toNat := by
  have hlt : leValue bytes < 2 ^ 32 := by
    have h := leValue_lt bytes
    rw [hlen] at h
    exact h
  rw [← UInt32.toNat_inj, UInt32.toNat_ofNat', Nat.mod_eq_of_lt hlt]
  exact leValue_eq_iff hlen x.toNat_lt

theorem word64_eq_iff {bytes : List UInt8} (hlen : bytes.length = 8) (x : UInt64) :
    UInt64.ofNat (leValue bytes) = x ↔ bytes = leBytes 8 x.toNat := by
  have hlt : leValue bytes < 2 ^ 64 := by
    have h := leValue_lt bytes
    rw [hlen] at h
    exact h
  rw [← UInt64.toNat_inj, UInt64.toNat_ofNat', Nat.mod_eq_of_lt hlt]
  exact leValue_eq_iff hlen x.toNat_lt

/-! ## Slices -/

/-- `bytes[i..j]`, when that is in range. -/
def slice? (bytes : List UInt8) (i j : Nat) : Option (List UInt8) :=
  if i ≤ j ∧ j ≤ bytes.length then some ((bytes.drop i).take (j - i)) else none

/-- The middle part of three. -/
theorem slice?_of {bytes front part back : List UInt8} {i j : Nat}
    (hbytes : bytes = front ++ part ++ back) (hi : front.length = i)
    (hj : i + part.length = j) : slice? bytes i j = some part := by
  subst hi hj hbytes
  rw [slice?, if_pos ⟨by omega, by simp⟩]
  simp

end Segstore
