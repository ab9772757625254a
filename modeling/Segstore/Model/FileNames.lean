import Mathlib.Algebra.Group.Nat.Defs
import Mathlib.Data.List.Basic

/-!
# File names

The names of the files in the store's directory, and the tests by which
garbage collection recognizes them.  `strip_prefix`, `strip_suffix`,
`split_once` and `parse::<u64>` act on the characters of a name.
-/

namespace Segstore

def WAL_PREFIX : String := "segstore.wal."
def LEGACY_WAL_PATH : String := "segstore.wal"
def LEGACY_CKPT_PATH : String := "segstore.ckpt"
def MANIFEST_PATH : String := "segstore.manifest"
def LOCK_PATH : String := "segstore.lock"
def SEG_PREFIX : String := "segstore.seg."
def IDX_PREFIX : String := "segstore.idx."

/-- The suffix of the temporary file of an atomic write. -/
def TMP_SUFFIX : String := ".tmp"

/-- The WAL file path for a given epoch. -/
def walPath (epoch : Nat) : String := WAL_PREFIX ++ toString epoch

/-- The file path for the segment with the given id. -/
def segPath (id : Nat) : String := SEG_PREFIX ++ toString id

/-- The temporary file an atomic write of `name` goes through. -/
def tmpPath (name : String) : String := name ++ TMP_SUFFIX

/-- Drop a plus sign. -/
def stripPlus : List Char → List Char
  | '+' :: t => t
  | t => t

/-- `str::parse::<u64>`: an optional plus sign, then digits, at most `u64::MAX`. -/
def parseU64 (s : List Char) : Option Nat :=
  let digits := stripPlus s
  if digits ≠ [] ∧ digits.all Char.isDigit ∧ Nat.ofDigitChars 10 digits 0 < 2 ^ 64 then
    some (Nat.ofDigitChars 10 digits 0)
  else
    none

/-- The epoch of `segstore.wal.<k>`. -/
def walEpoch (name : String) : Option Nat :=
  (WAL_PREFIX.toList.isPrefixOf? name.toList).bind parseU64

/-- The segment id of `segstore.seg.<k>`. -/
def segId (name : String) : Option Nat :=
  (SEG_PREFIX.toList.isPrefixOf? name.toList).bind parseU64

/-- Whether the name is `segstore.seg.<k>.tmp`. -/
def isSegTmp (name : String) : Bool :=
  (((SEG_PREFIX.toList.isPrefixOf? name.toList).bind TMP_SUFFIX.toList.isSuffixOf?).bind
    parseU64).isSome

/-- The segment id of an index sidecar `segstore.idx.<id>.<kind>`. -/
def idxSegId (name : String) : Option Nat :=
  match IDX_PREFIX.toList.isPrefixOf? name.toList with
  | none => none
  | some rest =>
      match rest.dropWhile (· ≠ '.') with
      | '.' :: kind => if kind = [] then none else parseU64 (rest.takeWhile (· ≠ '.'))
      | _ => none

/-- The names that `open` deletes: stale WAL generations, temporary segment
files, and segments and sidecars of ids the manifest does not name. -/
def isOpenGarbage (epoch : Nat) (keep : List Nat) (name : String) : Bool :=
  match walEpoch name with
  | some k => k != epoch
  | none =>
      if isSegTmp name then true
      else match segId name with
        | some k => !keep.contains k
        | none =>
            match idxSegId name with
            | some k => !keep.contains k
            | none => false

/-- The names that a checkpoint deletes besides the old WAL. -/
def isOrphan (keep : List Nat) (name : String) : Bool :=
  match segId name with
  | some k => !keep.contains k
  | none =>
      match idxSegId name with
      | some k => !keep.contains k
      | none => false

/-- The characters allowed in a sidecar kind. -/
def isKindChar (c : Char) : Bool :=
  c.isAlphanum || c = '_' || c = '-'

/-! ## Names of different families differ -/

@[simp] theorem toList_walPath (k : Nat) :
    (walPath k).toList = "segstore.wal.".toList ++ Nat.toDigits 10 k := by
  simp [walPath, WAL_PREFIX, Nat.repr_eq_ofList_toDigits]

@[simp] theorem toList_segPath (k : Nat) :
    (segPath k).toList = "segstore.seg.".toList ++ Nat.toDigits 10 k := by
  simp [segPath, SEG_PREFIX, Nat.repr_eq_ofList_toDigits]

theorem toDigits_inj {k j : Nat} (h : Nat.toDigits 10 k = Nat.toDigits 10 j) : k = j := by
  have hk := Nat.ofDigitChars_ten_toDigits (n := k)
  rw [h, Nat.ofDigitChars_ten_toDigits] at hk
  exact hk.symm

@[simp] theorem walPath_inj {k j : Nat} : walPath k = walPath j ↔ k = j := by
  constructor
  · intro h
    have hl := congrArg String.toList h
    simp only [toList_walPath, List.append_cancel_left_eq] at hl
    exact toDigits_inj hl
  · exact congrArg walPath

@[simp] theorem segPath_inj {k j : Nat} : segPath k = segPath j ↔ k = j := by
  constructor
  · intro h
    have hl := congrArg String.toList h
    simp only [toList_segPath, List.append_cancel_left_eq] at hl
    exact toDigits_inj hl
  · exact congrArg segPath

theorem isDigit_of_mem {k : Nat} {c : Char} (h : c ∈ Nat.toDigits 10 k) :
    c.isDigit = true :=
  Nat.isDigit_of_mem_toDigits (by decide) (by decide) h

/-- The character after `segstore.` tells the families apart. -/
def familyOf (name : String) : Option Char := name.toList[9]?

@[simp] theorem familyOf_walPath (k : Nat) : familyOf (walPath k) = some 'w' := by
  simp [familyOf]

@[simp] theorem familyOf_segPath (k : Nat) : familyOf (segPath k) = some 's' := by
  simp [familyOf]

@[simp] theorem familyOf_MANIFEST_PATH : familyOf MANIFEST_PATH = some 'm' := by decide

@[simp] theorem familyOf_LOCK_PATH : familyOf LOCK_PATH = some 'l' := by decide

@[simp] theorem familyOf_LEGACY_WAL_PATH : familyOf LEGACY_WAL_PATH = some 'w' := by decide

@[simp] theorem familyOf_LEGACY_CKPT_PATH : familyOf LEGACY_CKPT_PATH = some 'c' := by decide

@[simp] theorem familyOf_tmp_MANIFEST_PATH :
    familyOf (tmpPath MANIFEST_PATH) = some 'm' := by decide

@[simp] theorem familyOf_tmp_segPath (k : Nat) : familyOf (tmpPath (segPath k)) = some 's' := by
  simp [familyOf, tmpPath]

theorem ne_of_familyOf {a b : String} (h : familyOf a ≠ familyOf b) : a ≠ b :=
  fun hab => h (congrArg familyOf hab)

/-- No digit stands at the end of a temporary file's name. -/
theorem tmpPath_ne_segPath (name : String) (k : Nat) : tmpPath name ≠ segPath k := by
  intro h
  have hl := congrArg String.toList h
  rw [toList_segPath, tmpPath, String.toList_append] at hl
  have hlast := congrArg List.getLast? hl
  have hne : Nat.toDigits 10 k ≠ [] := List.ne_nil_of_length_pos Nat.length_toDigits_pos
  rw [List.getLast?_append_of_ne_nil _ hne, List.getLast?_eq_some_getLast hne,
    List.getLast?_append_of_ne_nil _ (by decide)] at hlast
  have hmem : 'p' ∈ Nat.toDigits 10 k := by
    have hp : (TMP_SUFFIX.toList).getLast? = some 'p' := by decide
    rw [hp] at hlast
    rw [Option.some.inj hlast]
    exact List.getLast_mem hne
  exact absurd (isDigit_of_mem hmem) (by decide)

theorem walPath_ne_LEGACY_WAL_PATH (k : Nat) : walPath k ≠ LEGACY_WAL_PATH := by
  intro h
  have hl := congrArg (fun n : String => n.toList[12]?) h
  simp [LEGACY_WAL_PATH] at hl

/-! ## What garbage collection recognizes -/

theorem stripPlus_eq {s : List Char} (h : '+' ∉ s) : stripPlus s = s := by
  cases s with
  | nil => rfl
  | cons c t =>
      rw [stripPlus]
      rintro t' heq
      exact h (by simp [(List.cons.inj heq).1])

theorem parseU64_toDigits (k : Nat) :
    parseU64 (Nat.toDigits 10 k) = if k < 2 ^ 64 then some k else none := by
  have hne : Nat.toDigits 10 k ≠ [] := List.ne_nil_of_length_pos Nat.length_toDigits_pos
  have hall : (Nat.toDigits 10 k).all Char.isDigit = true :=
    List.all_eq_true.mpr fun c hc => isDigit_of_mem hc
  have hplus : '+' ∉ Nat.toDigits 10 k := fun h => absurd (isDigit_of_mem h) (by decide)
  rw [parseU64]
  simp only [stripPlus_eq hplus, hall, Nat.ofDigitChars_ten_toDigits, ne_eq, hne, not_false_eq_true,
    true_and]

theorem isPrefixOf?_append (p l : List Char) : p.isPrefixOf? (p ++ l) = some l := by
  simp

theorem walEpoch_walPath {k j : Nat} (h : walEpoch (walPath k) = some j) : j = k := by
  rw [walEpoch, toList_walPath, WAL_PREFIX, isPrefixOf?_append] at h
  simp only [Option.bind_some, parseU64_toDigits] at h
  split at h
  · exact (Option.some.inj h).symm
  · cases h

theorem segId_segPath {k j : Nat} (h : segId (segPath k) = some j) : j = k := by
  rw [segId, toList_segPath, SEG_PREFIX, isPrefixOf?_append] at h
  simp only [Option.bind_some, parseU64_toDigits] at h
  split at h
  · exact (Option.some.inj h).symm
  · cases h

/-- A name that starts like `p` at its tenth character has the tenth character of `p`. -/
theorem isPrefixOf?_eq_none_of_family {p : List Char} {name : String}
    (hp : 9 < p.length) (h : p[9]? ≠ familyOf name) : p.isPrefixOf? name.toList = none := by
  cases hpre : p.isPrefixOf? name.toList with
  | none => rfl
  | some rest =>
      have happ := List.append_eq_of_isPrefixOf?_eq_some hpre
      refine absurd ?_ h
      rw [familyOf, ← happ, List.getElem?_append_left hp]

theorem walEpoch_eq_none {name : String} (h : familyOf name ≠ some 'w') :
    walEpoch name = none := by
  rw [walEpoch, isPrefixOf?_eq_none_of_family (by decide) (fun h' => h h'.symm)]
  rfl

theorem segId_eq_none {name : String} (h : familyOf name ≠ some 's') :
    segId name = none := by
  rw [segId, isPrefixOf?_eq_none_of_family (by decide) (fun h' => h h'.symm)]
  rfl

theorem isSegTmp_eq_false {name : String} (h : familyOf name ≠ some 's') :
    isSegTmp name = false := by
  rw [isSegTmp, isPrefixOf?_eq_none_of_family (by decide) (fun h' => h h'.symm)]
  rfl

theorem idxSegId_eq_none {name : String} (h : familyOf name ≠ some 'i') :
    idxSegId name = none := by
  rw [idxSegId, isPrefixOf?_eq_none_of_family (by decide) (fun h' => h h'.symm)]

/-- The name of a segment file does not end like a temporary file's. -/
theorem isSegTmp_segPath (k : Nat) : isSegTmp (segPath k) = false := by
  rw [isSegTmp, toList_segPath, SEG_PREFIX, isPrefixOf?_append, Option.bind_some]
  cases hsuf : TMP_SUFFIX.toList.isSuffixOf? (Nat.toDigits 10 k) with
  | none => rfl
  | some rest =>
      have happ : rest ++ TMP_SUFFIX.toList = Nat.toDigits 10 k := by simpa using hsuf
      have hdot : '.' ∈ Nat.toDigits 10 k := by
        rw [← happ]
        exact List.mem_append_right _ (by decide)
      exact absurd (isDigit_of_mem hdot) (by decide)

/-- A checkpoint spares the files of the segments it names. -/
theorem isOrphan_segPath {keep : List Nat} {k : Nat} (hk : k ∈ keep) :
    isOrphan keep (segPath k) = false := by
  rw [isOrphan]
  cases hid : segId (segPath k) with
  | some j => simpa [segId_segPath hid] using hk
  | none => rw [idxSegId_eq_none (by simp)]

/-- `open` spares the files of the segments the manifest names. -/
theorem isOpenGarbage_segPath {epoch : Nat} {keep : List Nat} {k : Nat} (hk : k ∈ keep) :
    isOpenGarbage epoch keep (segPath k) = false := by
  rw [isOpenGarbage, walEpoch_eq_none (by simp)]
  simp only [isSegTmp_segPath, Bool.false_eq_true, if_false]
  exact isOrphan_segPath hk

/-- `open` spares the WAL of the manifest's epoch. -/
theorem isOpenGarbage_walPath (epoch : Nat) (keep : List Nat) :
    isOpenGarbage epoch keep (walPath epoch) = false := by
  rw [isOpenGarbage]
  cases hep : walEpoch (walPath epoch) with
  | some j => simp [walEpoch_walPath hep]
  | none =>
      have hs : familyOf (walPath epoch) ≠ some 's' := by simp
      have hi : familyOf (walPath epoch) ≠ some 'i' := by simp
      simp only [isSegTmp_eq_false hs, segId_eq_none hs, idxSegId_eq_none hi,
        Bool.false_eq_true, if_false]

/-- `open` does not spare the WAL of another epoch. -/
theorem isOpenGarbage_stale {epoch k : Nat} (hk : k < 2 ^ 64) (hne : k ≠ epoch)
    (keep : List Nat) : isOpenGarbage epoch keep (walPath k) = true := by
  have hep : walEpoch (walPath k) = some k := by
    rw [walEpoch, toList_walPath, WAL_PREFIX, isPrefixOf?_append, Option.bind_some,
      parseU64_toDigits, if_pos hk]
  rw [isOpenGarbage, hep]
  simpa using hne

/-- Names of another family are never garbage. -/
theorem isOpenGarbage_eq_false {epoch : Nat} {keep : List Nat} {name : String}
    (hw : familyOf name ≠ some 'w') (hs : familyOf name ≠ some 's')
    (hi : familyOf name ≠ some 'i') : isOpenGarbage epoch keep name = false := by
  rw [isOpenGarbage, walEpoch_eq_none hw]
  simp only [isSegTmp_eq_false hs, segId_eq_none hs, idxSegId_eq_none hi,
    Bool.false_eq_true, if_false]

theorem isOrphan_eq_false {keep : List Nat} {name : String}
    (hs : familyOf name ≠ some 's') (hi : familyOf name ≠ some 'i') :
    isOrphan keep name = false := by
  rw [isOrphan, segId_eq_none hs, idxSegId_eq_none hi]

end Segstore
