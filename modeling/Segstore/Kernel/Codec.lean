import Mathlib.Algebra.Group.Nat.Defs
import Mathlib.Data.List.Basic

/-!
# Self-delimiting binary formats

A codec writes values as bytes and reads a value off the front of some bytes,
leaving the rest.  What fits the format is read back, whatever follows it.
Numbers are written in groups of seven bits, least significant first, with a
bound on the number of groups; sequences are preceded by their length.
-/

namespace Segstore

/-- A format for the values of a type. -/
structure Codec (α : Type) where
  Fits : α → Prop
  encode : α → List UInt8
  decode : List UInt8 → Option (α × List UInt8)
  decode_encode : ∀ {a}, Fits a → ∀ rest, decode (encode a ++ rest) = some (a, rest)

/-! ## Numbers -/

/-- A number in at most as many groups as given. -/
def writeVarint : Nat → Nat → List UInt8
  | 0, _ => []
  | groups + 1, k =>
      if k < 128 then
        [UInt8.ofNat k]
      else
        UInt8.ofNat (k % 128 + 128) :: writeVarint groups (k / 128)

/-- Read at most `groups + 1` groups, the last of which is at most `last`. -/
def readVarint (last : Nat) : Nat → List UInt8 → Option (Nat × List UInt8)
  | _, [] => none
  | 0, b :: rest => if b.toNat < 128 ∧ b.toNat ≤ last then some (b.toNat, rest) else none
  | groups + 1, b :: rest =>
      if b.toNat < 128 then
        some (b.toNat, rest)
      else
        (readVarint last groups rest).map (fun p => (b.toNat - 128 + 128 * p.1, p.2))

theorem readVarint_writeVarint {last groups k : Nat} (hlast : last < 128)
    (hk : k < (last + 1) * 128 ^ groups) (rest : List UInt8) :
    readVarint last groups (writeVarint (groups + 1) k ++ rest) = some (k, rest) := by
  induction groups generalizing k with
  | zero =>
      rw [Nat.pow_zero] at hk
      have hbyte : (UInt8.ofNat k).toNat = k := by
        rw [UInt8.toNat_ofNat']
        omega
      rw [writeVarint, if_pos (by omega), List.singleton_append, readVarint, hbyte,
        if_pos ⟨by omega, by omega⟩]
  | succ groups ih =>
      rw [writeVarint]
      split
      · rename_i hsmall
        have hbyte : (UInt8.ofNat k).toNat = k := by
          rw [UInt8.toNat_ofNat']
          omega
        rw [List.singleton_append, readVarint, hbyte, if_pos hsmall]
      · have hbyte : (UInt8.ofNat (k % 128 + 128)).toNat = k % 128 + 128 := by
          rw [UInt8.toNat_ofNat']
          omega
        have hhigh : k / 128 < (last + 1) * 128 ^ groups := by
          rw [Nat.pow_succ, ← Nat.mul_assoc] at hk
          omega
        rw [List.cons_append, readVarint, hbyte, if_neg (by omega), ih hhigh, Option.map_some,
          Nat.add_sub_cancel, Nat.mod_add_div]

namespace Codec

/-- Numbers below `(last + 1) * 128 ^ groups`. -/
def varint (last groups : Nat) (hlast : last < 128) : Codec Nat where
  Fits k := k < (last + 1) * 128 ^ groups
  encode := writeVarint (groups + 1)
  decode := readVarint last groups
  decode_encode := fun hk rest => readVarint_writeVarint hlast hk rest

/-! ## Pairs and sequences -/

variable {α β : Type}

/-- One value after the other. -/
def pair (c : Codec α) (d : Codec β) : Codec (α × β) where
  Fits p := c.Fits p.1 ∧ d.Fits p.2
  encode p := c.encode p.1 ++ d.encode p.2
  decode bytes :=
    match c.decode bytes with
    | none => none
    | some (a, rest) => (d.decode rest).map (fun q => ((a, q.1), q.2))
  decode_encode := by
    rintro ⟨a, b⟩ ⟨ha, hb⟩ rest
    rw [List.append_assoc, c.decode_encode ha]
    simp only [d.decode_encode hb, Option.map_some]

/-- Read a number of values. -/
def readMany (c : Codec α) : Nat → List UInt8 → Option (List α × List UInt8)
  | 0, bytes => some ([], bytes)
  | n + 1, bytes =>
      match c.decode bytes with
      | none => none
      | some (a, rest) => (readMany c n rest).map (fun q => (a :: q.1, q.2))

theorem readMany_flatMap (c : Codec α) {l : List α} (h : ∀ a ∈ l, c.Fits a)
    (rest : List UInt8) :
    c.readMany l.length (l.flatMap c.encode ++ rest) = some (l, rest) := by
  induction l with
  | nil => rfl
  | cons a l ih =>
      rw [List.flatMap_cons, List.append_assoc, List.length_cons, readMany,
        c.decode_encode (h a List.mem_cons_self)]
      simp only [ih fun b hb => h b (List.mem_cons_of_mem _ hb), Option.map_some]

/-- A sequence after its length. -/
def seq (length : Codec Nat) (c : Codec α) : Codec (List α) where
  Fits l := length.Fits l.length ∧ ∀ a ∈ l, c.Fits a
  encode l := length.encode l.length ++ l.flatMap c.encode
  decode bytes :=
    match length.decode bytes with
    | none => none
    | some (n, rest) => c.readMany n rest
  decode_encode := by
    rintro l ⟨hlen, hall⟩ rest
    rw [List.append_assoc, length.decode_encode hlen]
    exact c.readMany_flatMap hall rest

end Codec

end Segstore
