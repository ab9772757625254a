import Mathlib.Data.Vector.Basic
import Segstore.Kernel.Bytes
import Segstore.Model.Basic

/-!
# The sidecar envelope

`SidecarEnvelope`: the common header of sidecar files.  The check sum of
`crc32fast` is a parameter, any function of the bytes.  Slices are checked, so
that an index out of range would show as `none`.
-/

namespace Segstore

/-- The result of code that indexes into bytes: `none` when an index is out of
range. -/
abbrev Checked (α : Type) := ExceptT PersistenceError Option α

namespace Checked

variable {α : Type}

/-- `bytes[i..j]`. -/
def slice (bytes : List UInt8) (i j : Nat) : Checked (List UInt8) :=
  (slice? bytes i j).map .ok

/-- `bytes[i..j].copy_from_slice(new)`. -/
def copyFromSlice (bytes : List UInt8) (i j : Nat) (new : List UInt8) :
    Checked (List UInt8) :=
  if i ≤ j ∧ j ≤ bytes.length ∧ new.length = j - i then
    some (.ok (bytes.take i ++ new ++ bytes.drop j))
  else
    none

/-- Return an error when the condition holds. -/
def reject (c : Prop) [Decidable c] (e : PersistenceError) : Checked Unit :=
  if c then some (.error e) else some (.ok ())

/-- The result of code that does not index out of range. -/
def result (x : Checked α) (h : x ≠ none) : Except PersistenceError α :=
  match x, h with
  | some r, _ => r

theorem result_eq {x : Checked α} {r : Except PersistenceError α} (h : x = some r)
    (hx : x ≠ none) : x.result hx = r := by
  subst h
  rfl

theorem reject_bind (c : Prop) [Decidable c] (e : PersistenceError) (f : Unit → Checked α) :
    (reject c e >>= f) = if c then some (.error e) else f () := by
  rw [reject]
  split <;> rfl

theorem slice_bind {bytes part : List UInt8} {i j : Nat} (h : slice? bytes i j = some part)
    (f : List UInt8 → Checked α) : (slice bytes i j >>= f) = f part := by
  rw [slice, h]
  rfl

theorem ok_bind {β : Type} {x : Checked β} {b : β} (h : x = some (.ok b)) (f : β → Checked α) :
    (x >>= f) = f b := by
  rw [h]
  rfl

/-- The code stays in range and can return exactly the values of `Q`. -/
def Accepts (x : Checked α) (Q : α → Prop) : Prop :=
  ∃ r, x = some r ∧ ∀ a, r = .ok a ↔ Q a

namespace Accepts

variable {x : Checked α} {Q Q' : α → Prop}

theorem congr (h : x.Accepts Q) (hQ : ∀ a, Q a ↔ Q' a) : x.Accepts Q' := by
  obtain ⟨r, hr, hok⟩ := h
  exact ⟨r, hr, fun a => (hok a).trans (hQ a)⟩

theorem slice {bytes part : List UInt8} {i j : Nat} (h : slice? bytes i j = some part) :
    (Checked.slice bytes i j).Accepts (fun p => part = p) := by
  rw [Checked.slice, h]
  exact ⟨.ok part, rfl, fun _ => ⟨fun h => Except.ok.inj h, fun h => congrArg Except.ok h⟩⟩

/-- Whatever comes after a check is reached when the check passes. -/
theorem reject_bind {c : Prop} [Decidable c] {e : PersistenceError}
    (h : ¬ c → x.Accepts Q) : (reject c e >>= fun _ => x).Accepts (fun a => ¬ c ∧ Q a) := by
  rw [Checked.reject_bind]
  by_cases hc : c
  · rw [if_pos hc]
    exact ⟨_, rfl, fun a => iff_of_false (by simp) fun ha => ha.1 hc⟩
  · rw [if_neg hc]
    exact (h hc).congr fun a => (and_iff_right hc).symm

theorem slice_bind {bytes part : List UInt8} {i j : Nat} {f : List UInt8 → Checked α}
    (hslice : slice? bytes i j = some part) (h : (f part).Accepts Q) :
    (Checked.slice bytes i j >>= f).Accepts Q := by
  rwa [Checked.slice_bind hslice]

theorem ok_bind {β : Type} {y : Checked β} {b : β} {f : β → Checked α}
    (hy : y = some (.ok b)) (h : (f b).Accepts Q) : (y >>= f).Accepts Q := by
  rwa [Checked.ok_bind hy]

end Accepts

end Checked

def SIDECAR_ENVELOPE_HEADER_BYTES : Nat := 28

/-- The tags an envelope is written and read with. -/
structure SidecarTags where
  magic : Vector UInt8 8
  version : UInt32
  segmentId : UInt64
  recipe : List UInt8
deriving DecidableEq

/-- `sidecar_envelope_crc`: the check sum of everything but its own field. -/
def sidecarEnvelopeCrc (crc32 : List UInt8 → UInt32) (bytes : List UInt8) : Checked UInt32 := do
  let front ← Checked.slice bytes 0 24
  let back ← Checked.slice bytes 28 bytes.length
  pure (crc32 (front ++ back))

namespace SidecarEnvelope

variable (crc32 : List UInt8 → UInt32)

/-- `SidecarEnvelope::encode`. -/
def encode (tags : SidecarTags) (payload : List UInt8) : Checked (List UInt8) := do
  Checked.reject (U32_MAX < tags.recipe.length)
    (.invalidConfig ("sidecar recipe too large: " ++ toString tags.recipe.length ++
      " bytes (max " ++ toString U32_MAX ++ ")"))
  let bytes := tags.magic.toList ++ leBytes 4 tags.version.toNat ++
    leBytes 8 tags.segmentId.toNat ++ leBytes 4 tags.recipe.length ++ leBytes 4 0 ++
    tags.recipe ++ payload
  let crc ← sidecarEnvelopeCrc crc32 bytes
  Checked.copyFromSlice bytes 24 28 (leBytes 4 crc.toNat)

/-- `SidecarEnvelope::decode`. -/
def decode (expected : SidecarTags) (bytes : List UInt8) : Checked (List UInt8) := do
  Checked.reject (bytes.length < SIDECAR_ENVELOPE_HEADER_BYTES)
    (.format "sidecar envelope header is truncated")
  let magic ← Checked.slice bytes 0 8
  Checked.reject (magic ≠ expected.magic.toList) (.format "sidecar envelope magic mismatch")
  let versionBytes ← Checked.slice bytes 8 12
  let version := UInt32.ofNat (leValue versionBytes)
  Checked.reject (version ≠ expected.version)
    (.format ("sidecar envelope version mismatch: got " ++ toString version ++
      ", expected " ++ toString expected.version))
  let segmentBytes ← Checked.slice bytes 12 20
  let segmentId := UInt64.ofNat (leValue segmentBytes)
  Checked.reject (segmentId ≠ expected.segmentId)
    (.format ("sidecar envelope segment id mismatch: got " ++ toString segmentId ++
      ", expected " ++ toString expected.segmentId))
  let lengthBytes ← Checked.slice bytes 20 24
  let recipeStart := SIDECAR_ENVELOPE_HEADER_BYTES
  let recipeEnd := recipeStart + leValue lengthBytes
  Checked.reject (USIZE_MAX < recipeEnd) (.format "sidecar recipe length overflow")
  Checked.reject (bytes.length < recipeEnd) (.format "sidecar envelope recipe is truncated")
  let crcBytes ← Checked.slice bytes 24 28
  let expectedCrc := UInt32.ofNat (leValue crcBytes)
  let actualCrc ← sidecarEnvelopeCrc crc32 bytes
  Checked.reject (actualCrc ≠ expectedCrc) (.crcMismatch expectedCrc actualCrc)
  let recipe ← Checked.slice bytes recipeStart recipeEnd
  Checked.reject (recipe ≠ expected.recipe) (.format "sidecar envelope recipe mismatch")
  Checked.slice bytes recipeEnd bytes.length

end SidecarEnvelope

/-! ## The format -/

namespace SidecarTags

/-- The fixed fields before the check sum. -/
def fixed (tags : SidecarTags) : List UInt8 :=
  tags.magic.toList ++ leBytes 4 tags.version.toNat ++ leBytes 8 tags.segmentId.toNat ++
    leBytes 4 tags.recipe.length

/-- The one envelope of a payload. -/
def envelope (tags : SidecarTags) (crc32 : List UInt8 → UInt32) (payload : List UInt8) :
    List UInt8 :=
  tags.fixed ++ leBytes 4 (crc32 (tags.fixed ++ (tags.recipe ++ payload))).toNat ++
    (tags.recipe ++ payload)

@[simp] theorem length_fixed (tags : SidecarTags) : tags.fixed.length = 24 := by
  simp [fixed]

/-- The fixed fields are told apart. -/
theorem eq_fixed_iff {tags : SidecarTags} {magic version segment length : List UInt8}
    (hmagic : magic.length = 8) (hversion : version.length = 4) (hsegment : segment.length = 8) :
    magic ++ version ++ segment ++ length = tags.fixed ↔ magic = tags.magic.toList ∧
      version = leBytes 4 tags.version.toNat ∧ segment = leBytes 8 tags.segmentId.toNat ∧
      length = leBytes 4 tags.recipe.length := by
  constructor
  · intro h
    rw [fixed] at h
    obtain ⟨hthree, hlength⟩ := List.append_inj h (by simp; omega)
    obtain ⟨htwo, hsegment⟩ := List.append_inj hthree (by simp; omega)
    obtain ⟨hmagic, hversion⟩ := List.append_inj htwo (by simp; omega)
    exact ⟨hmagic, hversion, hsegment, hlength⟩
  · rintro ⟨rfl, rfl, rfl, rfl⟩
    rfl

end SidecarTags

namespace SidecarEnvelope

variable {crc32 : List UInt8 → UInt32} {tags : SidecarTags}

/-- The check sum of bytes of which the part in the middle is the check sum's. -/
theorem sidecarEnvelopeCrc_eq (crc32 : List UInt8 → UInt32) {bytes front field back : List UInt8}
    (hbytes : bytes = front ++ field ++ back) (hfront : front.length = 24)
    (hfield : field.length = 4) :
    sidecarEnvelopeCrc crc32 bytes = some (.ok (crc32 (front ++ back))) := by
  have hlen : bytes.length = 28 + back.length := by
    simp only [hbytes, List.length_append]
    omega
  have hhead : slice? bytes 0 24 = some front :=
    slice?_of (show bytes = [] ++ front ++ (field ++ back) by simp [hbytes]) rfl (by omega)
  have htail : slice? bytes 28 bytes.length = some back :=
    slice?_of (show bytes = (front ++ field) ++ back ++ [] by simp [hbytes])
      (by simp only [List.length_append]; omega) hlen.symm
  rw [sidecarEnvelopeCrc, Checked.slice_bind hhead, Checked.slice_bind htail]
  rfl

/-- What is encoded. -/
theorem encode_eq (payload : List UInt8) :
    encode crc32 tags payload =
      if U32_MAX < tags.recipe.length then
        some (.error (.invalidConfig ("sidecar recipe too large: " ++
          toString tags.recipe.length ++ " bytes (max " ++ toString U32_MAX ++ ")")))
      else
        some (.ok (tags.envelope crc32 payload)) := by
  have hbytes : tags.magic.toList ++ leBytes 4 tags.version.toNat ++
      leBytes 8 tags.segmentId.toNat ++ leBytes 4 tags.recipe.length ++ leBytes 4 0 ++
      tags.recipe ++ payload = tags.fixed ++ leBytes 4 0 ++ (tags.recipe ++ payload) := by
    rw [SidecarTags.fixed]
    simp only [List.append_assoc]
  rw [encode, Checked.reject_bind]
  split
  · rfl
  · simp only [hbytes, sidecarEnvelopeCrc_eq crc32 rfl tags.length_fixed (length_leBytes 4 0)]
    have hrange : 28 ≤ (tags.fixed ++ leBytes 4 0 ++ (tags.recipe ++ payload)).length := by
      simp only [List.length_append, length_leBytes, SidecarTags.length_fixed]
      omega
    show Checked.copyFromSlice _ 24 28 _ = _
    rw [Checked.copyFromSlice, if_pos ⟨by omega, hrange, length_leBytes 4 _⟩]
    have hdrop : (tags.fixed ++ leBytes 4 0 ++ (tags.recipe ++ payload)).drop 28 =
        tags.recipe ++ payload := List.drop_left' (by simp)
    have htake : (tags.fixed ++ leBytes 4 0 ++ (tags.recipe ++ payload)).take 24 =
        tags.fixed := by
      rw [List.append_assoc]
      exact List.take_left' tags.length_fixed
    rw [hdrop, htake]
    rfl

/-! ## What is decoded -/

/-- Bytes that are long enough have all the fields of the header. -/
theorem exists_fields {bytes : List UInt8} (h : SIDECAR_ENVELOPE_HEADER_BYTES ≤ bytes.length) :
    ∃ magic version segment length crc rest : List UInt8,
      bytes = magic ++ version ++ segment ++ length ++ crc ++ rest ∧ magic.length = 8 ∧
        version.length = 4 ∧ segment.length = 8 ∧ length.length = 4 ∧ crc.length = 4 := by
  rw [SIDECAR_ENVELOPE_HEADER_BYTES] at h
  refine ⟨bytes.take 8, (bytes.drop 8).take 4, (bytes.drop 12).take 8, (bytes.drop 20).take 4,
    (bytes.drop 24).take 4, bytes.drop 28, ?_, ?_, ?_, ?_, ?_, ?_⟩
  · have hcut : ∀ i n, bytes.take i ++ (bytes.drop i).take n = bytes.take (i + n) :=
      fun i n => List.take_add.symm
    rw [hcut, hcut, hcut, hcut, List.take_append_drop]
  all_goals
    simp only [List.length_take, List.length_drop]
    omega

/-- The slices of the header are its fields. -/
theorem header_slices {bytes magic version segment length crc rest : List UInt8}
    (hbytes : bytes = magic ++ version ++ segment ++ length ++ crc ++ rest)
    (hmagic : magic.length = 8) (hversion : version.length = 4) (hsegment : segment.length = 8)
    (hlength : length.length = 4) (hcrc : crc.length = 4) :
    slice? bytes 0 8 = some magic ∧ slice? bytes 8 12 = some version ∧
      slice? bytes 12 20 = some segment ∧ slice? bytes 20 24 = some length ∧
      slice? bytes 24 28 = some crc := by
  have hslice : ∀ {front part back : List UInt8} {i j : Nat}, bytes = front ++ part ++ back →
      front.length = i → i + part.length = j → slice? bytes i j = some part := slice?_of
  refine ⟨?_, ?_, ?_, ?_, ?_⟩
  · exact hslice (show bytes = [] ++ magic ++ (version ++ segment ++ length ++ crc ++ rest) by
      simp [hbytes]) rfl (by omega)
  · exact hslice (show bytes = magic ++ version ++ (segment ++ length ++ crc ++ rest) by
      simp [hbytes]) hmagic (by omega)
  · exact hslice (show bytes = (magic ++ version) ++ segment ++ (length ++ crc ++ rest) by
      simp [hbytes]) (by simp; omega) (by omega)
  · exact hslice (show bytes = (magic ++ version ++ segment) ++ length ++ (crc ++ rest) by
      simp [hbytes]) (by simp; omega) (by omega)
  · exact hslice (show bytes = (magic ++ version ++ segment ++ length) ++ crc ++ rest by
      simp [hbytes]) (by simp; omega) (by omega)

/-- Decoding of a header with its fields at hand. -/
theorem decode_fields (crc32 : List UInt8 → UInt32) (tags : SidecarTags)
    {magic version segment length crc : List UInt8} (rest : List UInt8)
    (hmagic : magic.length = 8) (hversion : version.length = 4) (hsegment : segment.length = 8)
    (hlength : length.length = 4) (hcrc : crc.length = 4) :
    (decode crc32 tags (magic ++ version ++ segment ++ length ++ crc ++ rest)).Accepts
      fun p => magic = tags.magic.toList ∧ version = leBytes 4 tags.version.toNat ∧
        segment = leBytes 8 tags.segmentId.toNat ∧
        crc = leBytes 4 (crc32 (magic ++ version ++ segment ++ length ++ rest)).toNat ∧
        leValue length = tags.recipe.length ∧ rest = tags.recipe ++ p := by
  generalize hbytes : magic ++ version ++ segment ++ length ++ crc ++ rest = bytes
  have hlen : bytes.length = 28 + rest.length := by
    simp only [← hbytes, List.length_append]
    omega
  have hstart : SIDECAR_ENVELOPE_HEADER_BYTES = 28 := rfl
  have hbound := leValue_lt length
  rw [hlength] at hbound
  have hslice : ∀ {front part back : List UInt8} {i j : Nat}, bytes = front ++ part ++ back →
      front.length = i → i + part.length = j → slice? bytes i j = some part := slice?_of
  obtain ⟨h₁, h₂, h₃, h₄, h₅⟩ :=
    header_slices hbytes.symm hmagic hversion hsegment hlength hcrc
  have hsum := sidecarEnvelopeCrc_eq crc32 hbytes.symm (by simp; omega) hcrc
  have hrest : rest = rest.take (leValue length) ++ rest.drop (leValue length) :=
    (List.take_append_drop _ _).symm
  have h₆ : ¬ bytes.length < SIDECAR_ENVELOPE_HEADER_BYTES + leValue length →
      slice? bytes SIDECAR_ENVELOPE_HEADER_BYTES
        (SIDECAR_ENVELOPE_HEADER_BYTES + leValue length) = some (rest.take (leValue length)) :=
    fun hlong => hslice (show bytes = (magic ++ version ++ segment ++ length ++ crc) ++
      rest.take (leValue length) ++ rest.drop (leValue length) by
        rw [List.append_assoc, ← hrest, hbytes]) (by simp; omega) (by simp; omega)
  have h₇ : ¬ bytes.length < SIDECAR_ENVELOPE_HEADER_BYTES + leValue length →
      slice? bytes (SIDECAR_ENVELOPE_HEADER_BYTES + leValue length) bytes.length =
        some (rest.drop (leValue length)) :=
    fun hlong => hslice (show bytes = (magic ++ version ++ segment ++ length ++ crc ++
      rest.take (leValue length)) ++ rest.drop (leValue length) ++ [] by
        rw [List.append_nil, List.append_assoc, ← hrest, hbytes]) (by simp; omega) (by simp; omega)
  rw [decode]
  refine Checked.Accepts.congr (.reject_bind fun _ => .slice_bind h₁ <| .reject_bind fun _ =>
    .slice_bind h₂ <| .reject_bind fun _ => .slice_bind h₃ <| .reject_bind fun _ =>
    .slice_bind h₄ <| .reject_bind fun _ => .reject_bind fun hlong => .slice_bind h₅ <|
    .ok_bind hsum <| .reject_bind fun _ => .slice_bind (h₆ hlong) <| .reject_bind fun _ =>
    .slice (h₇ hlong)) fun p => ?_
  simp only [not_not, word32_eq_iff hversion, word64_eq_iff hsegment]
  constructor
  · rintro ⟨-, hm, hv, hs, -, hlong, hc, hrecipe, rfl⟩
    have hn := congrArg List.length hrecipe
    rw [List.length_take] at hn
    exact ⟨hm, hv, hs, (word32_eq_iff hcrc _).mp hc.symm, by omega, by rwa [← hrecipe]⟩
  · rintro ⟨hm, hv, hs, hc, hn, rfl⟩
    rw [List.length_append] at hlen
    refine ⟨by omega, hm, hv, hs, ?_, by omega, ((word32_eq_iff hcrc _).mpr hc).symm, ?_, ?_⟩
    · rw [USIZE_MAX]
      omega
    · rw [hn, List.take_left' rfl]
    · rw [hn, List.drop_left' rfl]

/-- Envelopes are told apart by their tags and payloads. -/
theorem envelope_inj {tags' : SidecarTags} {p p' : List UInt8}
    (hfit : tags.recipe.length ≤ U32_MAX) (hfit' : tags'.recipe.length ≤ U32_MAX)
    (h : tags.envelope crc32 p = tags'.envelope crc32 p') : tags = tags' ∧ p = p' := by
  rw [SidecarTags.envelope, SidecarTags.envelope] at h
  obtain ⟨hhead, hrest⟩ := List.append_inj h (by simp)
  obtain ⟨hfixed, -⟩ := List.append_inj hhead (by simp)
  obtain ⟨hmagic, hversion, hsegment, hlength⟩ :=
    (SidecarTags.eq_fixed_iff (by simp) (length_leBytes 4 _) (length_leBytes 8 _)).mp hfixed
  have hword : ∀ {width j k : Nat}, j < 256 ^ width → k < 256 ^ width →
      leBytes width j = leBytes width k → j = k := by
    intro width j k hj hk heq
    rw [← leValue_leBytes hj, heq, leValue_leBytes hk]
  rw [U32_MAX] at hfit hfit'
  have hlen := hword (by omega) (by omega) hlength
  obtain ⟨hrecipe, hp⟩ := List.append_inj hrest hlen
  refine ⟨?_, hp⟩
  have hversion' := UInt32.toNat_inj.mp
    (hword tags.version.toNat_lt tags'.version.toNat_lt hversion)
  have hsegment' := UInt64.toNat_inj.mp
    (hword tags.segmentId.toNat_lt tags'.segmentId.toNat_lt hsegment)
  have hmagic' := Vector.toList_inj.mp hmagic
  cases tags
  cases tags'
  simp_all

/-- Decoding never indexes out of range, and accepts what encoding makes. -/
theorem decode_total (crc32 : List UInt8 → UInt32) (tags : SidecarTags) (bytes : List UInt8) :
    ∃ r, decode crc32 tags bytes = some r ∧
    ∀ p, r = .ok p ↔ encode crc32 tags p = some (.ok bytes) := by
  by_cases hshort : bytes.length < SIDECAR_ENVELOPE_HEADER_BYTES
  · refine ⟨_, by rw [decode, Checked.reject_bind, if_pos hshort], fun p => ?_⟩
    refine iff_of_false (by simp) fun h => ?_
    rw [encode_eq] at h
    split at h
    · cases h
    · cases h
      rw [SidecarTags.envelope, SIDECAR_ENVELOPE_HEADER_BYTES] at hshort
      simp at hshort
      omega
  · obtain ⟨magic, version, segment, length, crc, rest, rfl, hmagic, hversion, hsegment, hlength,
      hcrc⟩ := exists_fields (Nat.le_of_not_lt hshort)
    obtain ⟨r, hr, hok⟩ := decode_fields crc32 tags rest hmagic hversion hsegment hlength hcrc
    refine ⟨r, hr, fun p => (hok p).trans ?_⟩
    have hbound := leValue_lt length
    rw [hlength] at hbound
    rw [encode_eq]
    constructor
    · rintro ⟨rfl, rfl, rfl, rfl, hn, rfl⟩
      have hlength' : length = leBytes 4 tags.recipe.length :=
        (leValue_eq_iff hlength (by omega)).mp hn
      rw [if_neg (by rw [U32_MAX]; omega), hlength']
      rfl
    · intro h
      split at h
      · cases h
      · rename_i hfit
        rw [U32_MAX] at hfit
        have h := Except.ok.inj (Option.some.inj h)
        rw [SidecarTags.envelope] at h
        obtain ⟨hhead, rfl⟩ := List.append_inj h (by simp; omega)
        obtain ⟨hfixed, rfl⟩ := List.append_inj hhead (by simp; omega)
        obtain ⟨rfl, rfl, rfl, rfl⟩ :=
          (SidecarTags.eq_fixed_iff hmagic hversion hsegment).mp hfixed.symm
        exact ⟨rfl, rfl, rfl, rfl, leValue_leBytes (by omega), rfl⟩

/-- What is decoded is what was encoded. -/
theorem decode_iff_encode {bytes p : List UInt8} :
    decode crc32 tags bytes = some (.ok p) ↔ encode crc32 tags p = some (.ok bytes) := by
  obtain ⟨r, hr, hok⟩ := decode_total crc32 tags bytes
  rw [hr, Option.some_inj, hok]

/-- What is decoded is the envelope of its payload. -/
theorem decode_eq_ok_iff {bytes p : List UInt8} : decode crc32 tags bytes = some (.ok p) ↔
    tags.recipe.length ≤ U32_MAX ∧ bytes = tags.envelope crc32 p := by
  rw [decode_iff_encode, encode_eq]
  split
  · rename_i hlong
    exact iff_of_false (fun h => by cases h) fun h => Nat.not_lt_of_le h.1 hlong
  · rename_i hfit
    rw [Option.some_inj, Except.ok.injEq, eq_comm]
    exact (and_iff_right (Nat.le_of_not_lt hfit)).symm

theorem encode_ne_none (crc32 : List UInt8 → UInt32) (tags : SidecarTags)
    (payload : List UInt8) : encode crc32 tags payload ≠ none := by
  rw [encode_eq]
  split <;> simp

theorem decode_ne_none (crc32 : List UInt8 → UInt32) (tags : SidecarTags)
    (bytes : List UInt8) : decode crc32 tags bytes ≠ none := by
  obtain ⟨r, hr, -⟩ := decode_total crc32 tags bytes
  rw [hr]
  exact Option.some_ne_none r

/-- Decoding accepts exactly what encoding makes, and never indexes out of
range. -/
theorem decode_accepts_encodings (crc32 : List UInt8 → UInt32) :
    (∀ tags payload, (∃ e, encode crc32 tags payload = some (.error e)) ↔
      U32_MAX < tags.recipe.length) ∧
    (∀ tags payload, tags.recipe.length ≤ U32_MAX → ∃ bytes,
      encode crc32 tags payload = some (.ok bytes) ∧
        decode crc32 tags bytes = some (.ok payload)) ∧
    (∀ tags bytes payload, decode crc32 tags bytes = some (.ok payload) ↔
      encode crc32 tags payload = some (.ok bytes)) ∧
    (∀ tags tags' bytes payload payload', decode crc32 tags bytes = some (.ok payload) →
      decode crc32 tags' bytes = some (.ok payload') → tags = tags' ∧ payload = payload') ∧
    (∀ tags bytes, (∀ payload, encode crc32 tags payload ≠ some (.ok bytes)) →
      ∃ e, decode crc32 tags bytes = some (.error e)) := by
  refine ⟨fun tags payload => ?_, fun tags payload hfit => ?_,
    fun _ _ _ => decode_iff_encode, ?_, ?_⟩
  · rw [encode_eq]
    split
    · rename_i hlong
      exact iff_of_true ⟨_, rfl⟩ hlong
    · rename_i hfit
      exact iff_of_false (by rintro ⟨e, ⟨⟩⟩) hfit
  · have henc : encode crc32 tags payload = some (.ok (tags.envelope crc32 payload)) := by
      rw [encode_eq, if_neg (Nat.not_lt.mpr hfit)]
    exact ⟨_, henc, decode_iff_encode.mpr henc⟩
  · intro tags tags' bytes p p' h h'
    obtain ⟨hfit, heq⟩ := decode_eq_ok_iff.mp h
    obtain ⟨hfit', heq'⟩ := decode_eq_ok_iff.mp h'
    exact envelope_inj hfit hfit' (heq.symm.trans heq')
  · intro tags bytes hno
    obtain ⟨r, hr, hok⟩ := decode_total crc32 tags bytes
    cases r with
    | ok p => exact absurd ((hok p).mp rfl) (hno p)
    | error e => exact ⟨e, hr⟩

end SidecarEnvelope

end Segstore
