import Mathlib.Data.List.Basic
import Mathlib.Logic.Function.Iterate

/-!
# CRC-32

The cyclic redundancy check with the reflected polynomial `0xEDB88320`, the
initial value and the final exclusive or `0xFFFFFFFF`, one bit at a time.  Each
step loses nothing, neither of the register nor of the byte it takes in, so two
messages that differ in one byte have different check sums.
-/

namespace Segstore

universe u v

/-! ## Folds that lose nothing -/

section Fold

variable {α : Type u} {β : Type v} {step : β → α → β}

theorem foldl_injective (hstate : ∀ a, Function.Injective fun b => step b a) (l : List α) :
    Function.Injective fun b => l.foldl step b := by
  induction l with
  | nil => exact fun _ _ h => h
  | cons a l ih => exact fun b b' h => hstate a (ih h)

/-- One changed element shows in the result. -/
theorem foldl_ne_of_one (hstate : ∀ a, Function.Injective fun b => step b a)
    (helem : ∀ b, Function.Injective (step b)) (b : β) (front back : List α) {x y : α}
    (hxy : x ≠ y) : (front ++ x :: back).foldl step b ≠ (front ++ y :: back).foldl step b := by
  intro h
  rw [List.foldl_append, List.foldl_append, List.foldl_cons, List.foldl_cons] at h
  exact hxy (helem _ (foldl_injective hstate back h))

end Fold

/-! ## The register -/

namespace Crc32

def POLYNOMIAL : BitVec 32 := 0xEDB88320#32

/-- One bit of the division. -/
def shift (c : BitVec 32) : BitVec 32 :=
  if c.getLsbD 0 then (c >>> 1) ^^^ POLYNOMIAL else c >>> 1

/-- Take in one byte. -/
def step (c : BitVec 32) (b : UInt8) : BitVec 32 :=
  Nat.iterate shift 8 (c ^^^ b.toBitVec.setWidth 32)

/-- The check sum of some bytes. -/
def hash (bytes : List UInt8) : UInt32 :=
  UInt32.ofBitVec (bytes.foldl step 0xFFFFFFFF#32 ^^^ 0xFFFFFFFF#32)

/-- The bit that leaves the register is the highest of the one after it. -/
theorem getLsbD_shift_last (c : BitVec 32) : (shift c).getLsbD 31 = c.getLsbD 0 := by
  have hpoly : POLYNOMIAL.getLsbD 31 = true := by decide
  have hnew : (c >>> 1).getLsbD 31 = false := by
    rw [BitVec.getLsbD_ushiftRight, BitVec.getLsbD_of_ge c (1 + 31) (by omega)]
  rw [shift]
  split
  · rename_i h
    rw [BitVec.getLsbD_xor, hnew, hpoly, h]
    rfl
  · rename_i h
    rw [hnew, Bool.not_eq_true] at *
    exact h.symm

/-- So nothing is lost. -/
theorem shift_injective : Function.Injective shift := by
  intro c d h
  have hlow : c.getLsbD 0 = d.getLsbD 0 := by
    rw [← getLsbD_shift_last, h, getLsbD_shift_last]
  have hrest : c >>> 1 = d >>> 1 := by
    rw [shift, shift, hlow] at h
    split at h
    · exact (BitVec.xor_left_inj _).mp h
    · exact h
  refine BitVec.eq_of_getLsbD_eq fun i hi => ?_
  cases i with
  | zero => exact hlow
  | succ i =>
      have hbit := congrArg (fun x => x.getLsbD i) hrest
      simp only [BitVec.getLsbD_ushiftRight] at hbit
      rwa [Nat.add_comm 1 i] at hbit

theorem step_injective (b : UInt8) : Function.Injective fun c => step c b :=
  fun _ _ h => (BitVec.xor_left_inj _).mp (shift_injective.iterate 8 h)

theorem step_byte_injective (c : BitVec 32) : Function.Injective (step c) := by
  intro b b' h
  have hbyte := (BitVec.xor_right_inj _).mp (shift_injective.iterate 8 h)
  refine UInt8.toBitVec_inj.mp (BitVec.eq_of_toNat_eq ?_)
  have hnat := congrArg BitVec.toNat hbyte
  rw [BitVec.toNat_setWidth, BitVec.toNat_setWidth] at hnat
  omega

/-- A message with one byte changed has another check sum. -/
theorem hash_ne_of_one (front back : List UInt8) {x y : UInt8} (hxy : x ≠ y) :
    hash (front ++ x :: back) ≠ hash (front ++ y :: back) := by
  intro h
  refine foldl_ne_of_one step_injective step_byte_injective 0xFFFFFFFF#32 front back hxy ?_
  exact (BitVec.xor_left_inj _).mp (UInt32.ofBitVec.inj h)

/-- The check value of the standard: the digits from one to nine. -/
example : hash [0x31, 0x32, 0x33, 0x34, 0x35, 0x36, 0x37, 0x38, 0x39] = 0xCBF43926 := by
  decide +kernel

end Crc32

end Segstore
