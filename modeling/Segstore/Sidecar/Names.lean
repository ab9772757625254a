import Segstore.Sidecar.Cache
import Segstore.Disk.Protection

/-!
# Sidecar names

The names that a writer gives to sidecars.  The id is read back up to the first
dot after it, whatever follows the kind; a name has three dots in it, so it is
not the temporary file of a sidecar; and its tenth character is that of no
other family of files.
-/

namespace Segstore

/-! ## Kinds -/

/-- What a kind is made of. -/
def KindGrammar (kind : String) : Prop :=
  kind.toList ≠ [] ∧ ∀ c ∈ kind.toList,
    ('A' ≤ c ∧ c ≤ 'Z') ∨ ('a' ≤ c ∧ c ≤ 'z') ∨ ('0' ≤ c ∧ c ≤ '9') ∨ c = '_' ∨ c = '-'

theorem isKindChar_iff {c : Char} : isKindChar c = true ↔
    ('A' ≤ c ∧ c ≤ 'Z') ∨ ('a' ≤ c ∧ c ≤ 'z') ∨ ('0' ≤ c ∧ c ≤ '9') ∨ c = '_' ∨ c = '-' := by
  have halnum : c.isAlphanum = (decide ('A' ≤ c ∧ c ≤ 'Z') ||
    (decide ('a' ≤ c) && decide (c ≤ 'z')) || (decide ('0' ≤ c) && decide (c ≤ '9'))) := rfl
  simp only [isKindChar, halnum, Bool.or_eq_true, Bool.and_eq_true, decide_eq_true_eq, or_assoc]

/-- The check of a kind passes on the grammar. -/
theorem validateIndexKind_eq_ok {kind : String} :
    validateIndexKind kind = .ok () ↔ KindGrammar kind := by
  rw [validateIndexKind, KindGrammar]
  split
  · rename_i hnil
    exact iff_of_false (by simp) fun h => h.1 hnil
  · rename_i hne
    split
    · rename_i hall
      refine iff_of_false (by simp) fun h => ?_
      rw [Bool.not_eq_true', ← Bool.not_eq_true, List.all_eq_true] at hall
      exact hall fun c hc => isKindChar_iff.mpr (h.2 c hc)
    · rename_i hall
      rw [Bool.not_eq_true', Bool.not_eq_false, List.all_eq_true] at hall
      exact iff_of_true rfl ⟨hne, fun c hc => isKindChar_iff.mp (hall c hc)⟩

theorem KindGrammar.dot_not_mem {kind : String} (h : KindGrammar kind) : '.' ∉ kind.toList :=
  fun hdot => absurd (h.2 '.' hdot) (by decide)

/-- The test that the source makes on the bytes of a kind. -/
def isKindByte (b : UInt8) : Bool :=
  (0x61 ≤ b && b ≤ 0x7a) || (0x41 ≤ b && b ≤ 0x5a) || (0x30 ≤ b && b ≤ 0x39) ||
    b = 0x5f || b = 0x2d

/-- A byte of a longer encoding is no byte of a kind. -/
theorem isKindByte_eq_false {n : Nat} (hlow : 128 ≤ n) (hhigh : n < 256) :
    isKindByte (UInt8.ofNat n) = false := by
  have hbyte : (UInt8.ofNat n).toNat = n := UInt8.toNat_ofNat_of_lt' hhigh
  simp only [isKindByte, Bool.or_eq_false_iff, Bool.and_eq_false_imp, decide_eq_true_eq,
    decide_eq_false_iff_not, UInt8.le_iff_toNat_le, ← UInt8.toNat_inj, hbyte, UInt8.reduceToNat]
  omega

theorem isKindByte_ofNat : ∀ n < 128, isKindByte (UInt8.ofNat n) = isKindChar (Char.ofNat n) := by
  decide

theorem isKindChar_eq_false {c : Char} (h : 128 ≤ c.toNat) : isKindChar c = false := by
  rw [← Bool.not_eq_true, isKindChar_iff]
  have hle : ∀ d : Char, d.toNat < 128 → ¬ c ≤ d := fun d hd hcd =>
    absurd (UInt32.le_iff_toNat_le.mp hcd) (Nat.not_le.mpr (hd.trans_le h))
  rintro (⟨-, hc⟩ | ⟨-, hc⟩ | ⟨-, hc⟩ | rfl | rfl)
  · exact hle 'Z' (by decide) hc
  · exact hle 'z' (by decide) hc
  · exact hle '9' (by decide) hc
  · exact absurd h (by decide)
  · exact absurd h (by decide)

theorem all_utf8EncodeChar (c : Char) :
    (String.utf8EncodeChar c).all isKindByte = isKindChar c := by
  fun_cases String.utf8EncodeChar c with
  | case1 n hn =>
      have hbyte := isKindByte_ofNat c.toNat (Nat.lt_succ_of_le hn)
      rw [Char.ofNat_toNat] at hbyte
      rw [List.all_cons, List.all_nil, Bool.and_true]
      exact hbyte
  | case2 n hn hn' =>
      rw [isKindChar_eq_false (Nat.lt_of_not_le hn), List.all_cons,
        isKindByte_eq_false (by omega) (by omega), Bool.false_and]
  | case3 n hn hn' hn'' =>
      rw [isKindChar_eq_false (Nat.lt_of_not_le hn), List.all_cons,
        isKindByte_eq_false (by omega) (by omega), Bool.false_and]
  | case4 n hn hn' hn'' =>
      rw [isKindChar_eq_false (Nat.lt_of_not_le hn), List.all_cons,
        isKindByte_eq_false (by omega) (by omega), Bool.false_and]

/-- On bytes the test is the same as on characters. -/
theorem all_isKindByte (kind : String) :
    kind.toUTF8.data.toList.all isKindByte = kind.toList.all isKindChar := by
  have hutf8 : kind.toUTF8 = kind.toList.utf8Encode := String.utf8Encode_toList.symm
  rw [hutf8, List.utf8Encode, List.toList_data_toByteArray, List.all_flatMap]
  exact List.all_congr rfl all_utf8EncodeChar

/-! ## What a name is read as -/

/-- A name that a writer gives is that of the prefix, the id and the kind. -/
theorem indexSidecarName_eq_ok {id : UInt64} {kind name : String} :
    indexSidecarName id kind = .ok name ↔
      KindGrammar kind ∧ name = IDX_PREFIX ++ toString id.toNat ++ "." ++ kind := by
  rw [indexSidecarName, ← validateIndexKind_eq_ok]
  cases validateIndexKind kind with
  | error e => simp
  | ok u => simp [eq_comm]

theorem toList_indexSidecarName {id : UInt64} {kind name : String}
    (h : indexSidecarName id kind = .ok name) :
    name.toList = IDX_PREFIX.toList ++ (Nat.toDigits 10 id.toNat ++ '.' :: kind.toList) := by
  obtain ⟨-, rfl⟩ := indexSidecarName_eq_ok.mp h
  simp [Nat.repr_eq_ofList_toDigits]

theorem digit_ne_dot (k : Nat) : ∀ c ∈ Nat.toDigits 10 k, decide (c ≠ '.') = true := by
  intro c hc
  have hdigit := isDigit_of_mem hc
  refine decide_eq_true ?_
  rintro rfl
  exact absurd hdigit (by decide)

/-- The id stands between the prefix and the first dot. -/
theorem idxSegId_of_toList {id : UInt64} {name : String} {rest : List Char}
    (h : name.toList = IDX_PREFIX.toList ++ (Nat.toDigits 10 id.toNat ++ '.' :: rest))
    (hrest : rest ≠ []) : idxSegId name = some id.toNat := by
  rw [idxSegId, h, isPrefixOf?_append]
  simp only [List.dropWhile_append_of_pos (digit_ne_dot _)]
  rw [List.dropWhile_cons_of_neg (by simp), List.takeWhile_append_of_pos (digit_ne_dot _),
    List.takeWhile_cons_of_neg (by simp), List.append_nil, parseU64_toDigits,
    if_pos id.toNat_lt]
  exact if_neg hrest

-- a legacy name, with a dot in its kind
example : idxSegId "segstore.idx.7.hnsw.v1" = some 7 := by decide

/-- Garbage collection finds the id again. -/
theorem idxSegId_indexSidecarName {id : UInt64} {kind name : String}
    (h : indexSidecarName id kind = .ok name) : idxSegId name = some id.toNat :=
  idxSegId_of_toList (toList_indexSidecarName h) (indexSidecarName_eq_ok.mp h).1.1

/-- The id is found whatever follows the kind after a dot. -/
theorem idxSegId_suffixed {id : UInt64} {kind name : String}
    (h : indexSidecarName id kind = .ok name) (suffix : String) :
    idxSegId (name ++ "." ++ suffix) = some id.toNat := by
  have hlist : (name ++ "." ++ suffix).toList = IDX_PREFIX.toList ++
      (Nat.toDigits 10 id.toNat ++ '.' :: (kind.toList ++ '.' :: suffix.toList)) := by
    simp [toList_indexSidecarName h]
  exact idxSegId_of_toList hlist (by simp)

theorem idxSegId_tmp_indexSidecarName {id : UInt64} {kind name : String}
    (h : indexSidecarName id kind = .ok name) : idxSegId (tmpPath name) = some id.toNat := by
  have htmp : tmpPath name = name ++ "." ++ "tmp" := by
    rw [tmpPath, String.append_assoc]
    rfl
  rw [htmp]
  exact idxSegId_suffixed h "tmp"

/-! ## No two names are the same -/

/-- Writers give different ids and kinds different names. -/
theorem indexSidecarName_inj {id id' : UInt64} {kind kind' name : String}
    (h : indexSidecarName id kind = .ok name) (h' : indexSidecarName id' kind' = .ok name) :
    id = id' ∧ kind = kind' := by
  have hparsed := (idxSegId_indexSidecarName h).symm.trans (idxSegId_indexSidecarName h')
  obtain rfl : id = id' := UInt64.toNat_inj.mp (Option.some.inj hparsed)
  have hlist := (toList_indexSidecarName h).symm.trans (toList_indexSidecarName h')
  rw [List.append_cancel_left_eq, List.append_cancel_left_eq, List.cons_inj_right] at hlist
  exact ⟨rfl, String.toList_inj.mp hlist⟩

/-- The name of a sidecar has three dots. -/
theorem count_dot_indexSidecarName {id : UInt64} {kind name : String}
    (h : indexSidecarName id kind = .ok name) : name.toList.count '.' = 3 := by
  have hdigits : (Nat.toDigits 10 id.toNat).count '.' = 0 :=
    List.count_eq_zero.mpr fun hdot => by simpa using digit_ne_dot _ '.' hdot
  have hkind : kind.toList.count '.' = 0 :=
    List.count_eq_zero.mpr (indexSidecarName_eq_ok.mp h).1.dot_not_mem
  have hprefix : IDX_PREFIX.toList.count '.' = 2 := by decide
  rw [toList_indexSidecarName h, List.count_append, List.count_append, List.count_cons_self,
    hdigits, hkind, hprefix]

/-- What garbage collection takes for a sidecar has three dots at least. -/
theorem count_dot_of_idxSegId {name : String} {k : Nat} (h : idxSegId name = some k) :
    3 ≤ name.toList.count '.' := by
  rw [idxSegId] at h
  split at h
  · cases h
  · rename_i rest hrest
    split at h
    · rename_i kind hkind
      have hdot : '.' ∈ rest := by
        refine (List.dropWhile_sublist (fun c => decide (c ≠ '.'))).subset ?_
        rw [hkind]
        exact List.mem_cons_self
      have hone : 1 ≤ rest.count '.' := List.count_pos_iff.mpr hdot
      have hprefix : IDX_PREFIX.toList.count '.' = 2 := by decide
      rw [← List.append_eq_of_isPrefixOf?_eq_some hrest, List.count_append, hprefix]
      exact Nat.add_le_add_left hone 2
    · cases h

/-- No sidecar is the temporary file of a sidecar. -/
theorem indexSidecarName_ne_tmpPath {id : UInt64} {kind name other : String} {k : Nat}
    (h : indexSidecarName id kind = .ok name) (hother : idxSegId other = some k) :
    name ≠ tmpPath other := by
  rintro rfl
  have hthree := count_dot_indexSidecarName h
  have hsuffix : TMP_SUFFIX.toList.count '.' = 1 := by decide
  rw [tmpPath, String.toList_append, List.count_append, hsuffix] at hthree
  have := count_dot_of_idxSegId hother
  omega

/-! ## Other families -/

theorem familyOf_indexSidecarName {id : UInt64} {kind name : String}
    (h : indexSidecarName id kind = .ok name) : familyOf name = some 'i' :=
  familyOf_of_idxSegId (idxSegId_indexSidecarName h)

/-- The fixed names of the store's own files. -/
def fixedNames : List String := [MANIFEST_PATH, LOCK_PATH, LEGACY_WAL_PATH, LEGACY_CKPT_PATH]

/-- No file of the store has the name of a sidecar. -/
theorem indexSidecarName_ne_own {id : UInt64} {kind name : String}
    (h : indexSidecarName id kind = .ok name) :
    name ∉ fixedNames ∧ ∀ k, name ≠ walPath k ∧ name ≠ segPath k ∧ name ≠ tmpPath (segPath k) := by
  have hfam := familyOf_indexSidecarName h
  constructor
  · intro hmem
    rw [fixedNames, List.mem_cons, List.mem_cons, List.mem_cons, List.mem_singleton] at hmem
    rcases hmem with rfl | rfl | rfl | rfl
    · exact absurd hfam (by decide)
    · exact absurd hfam (by decide)
    · exact absurd hfam (by decide)
    · exact absurd hfam (by decide)
  · intro k
    refine ⟨ne_of_familyOf ?_, ne_of_familyOf ?_, ne_of_familyOf ?_⟩
    · simp [hfam]
    · simp [hfam]
    · simp [hfam]

/-! ## Garbage collection -/

section Collection

variable {Id Item Seg : Type}

/-- The two collections of a store, when the manifest names the segments `keep`:
that of `open` and that of a checkpoint. -/
inductive Sweep (keep : List Nat) : DirM Id Item Seg Unit → Prop
  | opening (epoch : Nat) :
      Sweep keep (Directory.collectGarbage [] (isOpenGarbage epoch keep))
  | checkpoint (old : Nat) :
      Sweep keep (Directory.collectGarbage [walPath old] (isOrphan keep))

/-- A collection deletes, of what is taken for a sidecar, what belongs to no
segment that it keeps. -/
theorem Sweep.ends {keep : List Nat} {p : DirM Id Item Seg Unit} (h : Sweep keep p)
    {name : String} {k : Nat} (hname : idxSegId name = some k) (d : Directory Id Item Seg) :
    Ends p d (fun r d' => (k ∈ keep → d'.files.lookup name = d.files.lookup name) ∧
      (k ∉ keep → d.Obliging → r = .ok () → d'.files.lookup name = none)) := by
  have hrun : ∀ {garbage : List String} {test : String → Bool},
      name ∉ garbage → test name = !keep.contains k →
      Ends (Directory.collectGarbage garbage test) d (fun r d' =>
        (k ∈ keep → d'.files.lookup name = d.files.lookup name) ∧
          (k ∉ keep → d.Obliging → r = .ok () → d'.files.lookup name = none)) := by
    intro garbage test hgarbage htest
    refine (Directory.collectGarbage_deletes garbage test d).mono ?_
    rintro r d' ⟨hdeletes, -, hgone⟩
    constructor
    · intro hk
      refine hdeletes.trimmed.eq ?_
      rw [htest]
      simp [hgarbage, hk]
    · intro hk hobliging hr
      refine hgone hobliging hr name (.inr ?_)
      rw [htest]
      simpa using hk
  cases h with
  | opening epoch => exact hrun List.not_mem_nil (isOpenGarbage_of_idxSegId hname)
  | checkpoint old =>
      refine hrun (fun hmem => ?_) (isOrphan_of_idxSegId hname)
      have hfam := familyOf_of_idxSegId hname
      rw [List.mem_singleton.mp hmem, familyOf_walPath] at hfam
      cases hfam

end Collection

/-- What holds of a name that a writer gives. -/
structure NamesSidecar (id : UInt64) (kind name : String) : Prop where
  parsed : idxSegId name = some id.toNat
  parsedTmp : idxSegId (tmpPath name) = some id.toNat
  parsedSuffixed : ∀ suffix, idxSegId (name ++ "." ++ suffix) = some id.toNat
  own : ∀ id' kind', indexSidecarName id' kind' = .ok name → id' = id ∧ kind' = kind
  -- the other sidecar may have a legacy name, with dots in its kind
  notTmp : ∀ other k, idxSegId other = some k → name ≠ tmpPath other
  notStore : name ∉ fixedNames ∧
    ∀ k, name ≠ walPath k ∧ name ≠ segPath k ∧ name ≠ tmpPath (segPath k)
  notClassified : walEpoch name = none ∧ segId name = none ∧ isSegTmp name = false
  collected : ∀ {Id Item Seg : Type} {keep : List Nat} {p : DirM Id Item Seg Unit},
    Sweep keep p → ∀ found, found = name ∨ found = tmpPath name ∨
      (∃ suffix, found = name ++ "." ++ suffix) → ∀ d, Ends p d (fun r d' =>
        (id.toNat ∈ keep → d'.files.lookup found = d.files.lookup found) ∧
          (id.toNat ∉ keep → d.Obliging → r = .ok () → d'.files.lookup found = none))

/-- A writer gives a name to a sidecar exactly when its kind is in the grammar.
The id is read back from the name, with or without a suffix, no two sidecars
have one name, and no other file of the store has it or is taken for it.
Garbage collection deletes the sidecars of dropped segments and keeps the others. -/
theorem sidecar_names_parse_back (id : UInt64) (kind : String) :
    ((∃ name, indexSidecarName id kind = .ok name) ↔ KindGrammar kind) ∧
      ∀ name, indexSidecarName id kind = .ok name → NamesSidecar id kind name := by
  constructor
  · constructor
    · rintro ⟨name, h⟩
      exact (indexSidecarName_eq_ok.mp h).1
    · exact fun h => ⟨_, indexSidecarName_eq_ok.mpr ⟨h, rfl⟩⟩
  · intro name h
    have hparsed := idxSegId_indexSidecarName h
    have hfam := familyOf_indexSidecarName h
    exact {
      parsed := hparsed
      parsedTmp := idxSegId_tmp_indexSidecarName h
      parsedSuffixed := idxSegId_suffixed h
      own := fun id' kind' h' => indexSidecarName_inj h' h
      notTmp := fun other k hother => indexSidecarName_ne_tmpPath h hother
      notStore := indexSidecarName_ne_own h
      notClassified := ⟨walEpoch_eq_none (by simp [hfam]), segId_eq_none (by simp [hfam]),
        isSegTmp_eq_false (by simp [hfam])⟩
      collected := by
        rintro Id Item Seg keep p hsweep found (rfl | rfl | ⟨suffix, rfl⟩) d
        · exact hsweep.ends hparsed d
        · exact hsweep.ends (idxSegId_tmp_indexSidecarName h) d
        · exact hsweep.ends (idxSegId_suffixed h suffix) d }

/-- A sidecar of segment 7 that is dropped. -/
theorem sidecar_names_parse_back_seven :
    indexSidecarName 7 "hnsw_v1-fast" = .ok "segstore.idx.7.hnsw_v1-fast" ∧
      NamesSidecar 7 "hnsw_v1-fast" "segstore.idx.7.hnsw_v1-fast" :=
  ⟨rfl, (sidecar_names_parse_back 7 "hnsw_v1-fast").2 _ rfl⟩

end Segstore
