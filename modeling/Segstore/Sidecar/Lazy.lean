import Segstore.Kernel.Reader
import Segstore.Sidecar.Envelope

/-!
# Reading a sidecar lazily

`SidecarEnvelope::payload_info` reads the header and the recipe only and tells
where the payload is.  On bytes that are all there it takes the same headers as
`decode`, which checks the check sum besides.
-/

namespace Segstore

/-- `SidecarPayloadInfo`. -/
structure SidecarPayloadInfo where
  payloadOffset : Nat
  payloadLen : Nat
  crc32 : UInt32
deriving DecidableEq

namespace SidecarEnvelope

/-- `SidecarEnvelope::payload_info`. -/
def payloadInfo (expected : SidecarTags) (sidecarLen : Nat) : ReadM SidecarPayloadInfo := do
  Eff.reject (sidecarLen < SIDECAR_ENVELOPE_HEADER_BYTES)
    (.format "sidecar envelope header is truncated")
  let header ← Reader.readExact unexpectedEof SIDECAR_ENVELOPE_HEADER_BYTES
  let magic ← Eff.expect (slice? header 0 8)
  Eff.reject (magic ≠ expected.magic.toList) (.format "sidecar envelope magic mismatch")
  let versionBytes ← Eff.expect (slice? header 8 12)
  let version := UInt32.ofNat (leValue versionBytes)
  Eff.reject (version ≠ expected.version)
    (.format ("sidecar envelope version mismatch: got " ++ toString version ++
      ", expected " ++ toString expected.version))
  let segmentBytes ← Eff.expect (slice? header 12 20)
  let segmentId := UInt64.ofNat (leValue segmentBytes)
  Eff.reject (segmentId ≠ expected.segmentId)
    (.format ("sidecar envelope segment id mismatch: got " ++ toString segmentId ++
      ", expected " ++ toString expected.segmentId))
  let lengthBytes ← Eff.expect (slice? header 20 24)
  let recipeLen := leValue lengthBytes
  let payloadOffset := SIDECAR_ENVELOPE_HEADER_BYTES + recipeLen
  Eff.reject (U64_MAX < payloadOffset) (.format "sidecar recipe length overflow")
  Eff.reject (sidecarLen < payloadOffset) (.format "sidecar envelope recipe is truncated")
  Eff.reject (recipeLen ≠ expected.recipe.length) (.format "sidecar envelope recipe mismatch")
  let recipe ← Reader.readExact unexpectedEof expected.recipe.length
  Eff.reject (recipe ≠ expected.recipe) (.format "sidecar envelope recipe mismatch")
  let crcBytes ← Eff.expect (slice? header 24 28)
  pure ⟨payloadOffset, sidecarLen - payloadOffset, UInt32.ofNat (leValue crcBytes)⟩

/-- However it ends, no byte after the header and the recipe is read. -/
theorem payloadInfo_takes (tags : SidecarTags) (sidecarLen : Nat) :
    Takes (SIDECAR_ENVELOPE_HEADER_BYTES + tags.recipe.length)
      (payloadInfo tags sidecarLen) := by
  refine .reject_bind (.bind (.readExact _ _) fun header => ?_)
  refine .expect_bind fun _ => .reject_bind (.expect_bind fun _ => .reject_bind
    (.expect_bind fun _ => .reject_bind (.expect_bind fun _ => .reject_bind (.reject_bind
      (.reject_bind ?_)))))
  exact .bind (m := 0) (.readExact _ _) fun _ => .reject_bind (.expect_bind fun _ => .pure _)

/-- What is told of a payload after `header`: the bytes have the tags, and their
check sum is that of the header. -/
def Announces (tags : SidecarTags) (sidecarLen : Nat) (header : List UInt8)
    (info : SidecarPayloadInfo) : Prop :=
  ∃ crc : List UInt8, crc.length = 4 ∧ tags.recipe.length ≤ U32_MAX ∧
    header = tags.fixed ++ crc ∧
    SIDECAR_ENVELOPE_HEADER_BYTES + tags.recipe.length ≤ sidecarLen ∧
    info = ⟨SIDECAR_ENVELOPE_HEADER_BYTES + tags.recipe.length,
      sidecarLen - (SIDECAR_ENVELOPE_HEADER_BYTES + tags.recipe.length),
      UInt32.ofNat (leValue crc)⟩

/-- The headers that are taken. -/
theorem payloadInfo_parses (tags : SidecarTags) (sidecarLen : Nat)
    (r : Reader PersistenceError) :
    Parses (payloadInfo tags sidecarLen) r (fun info r' => ∃ header,
      Announces tags sidecarLen header info ∧ r.left = header ++ tags.recipe ++ r'.left ∧
        r'.fault = r.fault) := by
  refine Parses.congr (.reject_bind fun _ => .bind (.readExact _ _ r)
    (R := fun header r₁ info r' => Announces tags sidecarLen header info ∧
      r₁.left = tags.recipe ++ r'.left ∧ r'.fault = r₁.fault) ?_) ?_
  · rintro header r₁ ⟨hlen, -, -⟩
    obtain ⟨magic, version, segment, length, crc, rest, hheader, hmagic, hversion, hsegment,
      hlength, hcrc⟩ := exists_fields (Nat.le_of_eq hlen.symm)
    obtain ⟨h₁, h₂, h₃, h₄, h₅⟩ :=
      header_slices hheader hmagic hversion hsegment hlength hcrc
    obtain rfl : rest = [] := by
      rw [hheader, SIDECAR_ENVELOPE_HEADER_BYTES] at hlen
      simp only [List.length_append] at hlen
      exact List.eq_nil_of_length_eq_zero (by omega)
    rw [List.append_nil] at hheader
    have hbound := leValue_lt length
    rw [hlength] at hbound
    refine Parses.congr (.expect_bind h₁ <| .reject_bind fun _ => .expect_bind h₂ <|
      .reject_bind fun _ => .expect_bind h₃ <| .reject_bind fun _ => .expect_bind h₄ <|
      .reject_bind fun _ => .reject_bind fun _ => .reject_bind fun _ =>
      .bind (.readExact _ _ r₁) fun _ _ _ => .reject_bind fun _ => .expect_bind h₅ (.pure _))
      fun info r' => ?_
    simp only [not_not, word32_eq_iff hversion, word64_eq_iff hsegment]
    constructor
    · rintro ⟨rfl, rfl, rfl, -, hlong, hn, recipe, r₂, ⟨-, hleft, hfault⟩, rfl, rfl, rfl⟩
      have hlength' : length = leBytes 4 tags.recipe.length :=
        (leValue_eq_iff hlength (by omega)).mp hn
      refine ⟨⟨crc, hcrc, by rw [U32_MAX]; omega, ?_, by omega, by rw [hn]⟩, hleft, hfault⟩
      rw [hheader, hlength', SidecarTags.fixed]
    · rintro ⟨⟨crc', hcrc', hfit, hheader', hlong, rfl⟩, hleft, hfault⟩
      rw [U32_MAX] at hfit
      rw [hheader] at hheader'
      obtain ⟨hfixed, rfl⟩ := List.append_inj hheader' (by simp; omega)
      obtain ⟨rfl, rfl, rfl, rfl⟩ :=
        (SidecarTags.eq_fixed_iff hmagic hversion hsegment).mp hfixed
      have hn : leValue (leBytes 4 tags.recipe.length) = tags.recipe.length :=
        leValue_leBytes (by omega)
      rw [U64_MAX, SIDECAR_ENVELOPE_HEADER_BYTES, hn]
      rw [SIDECAR_ENVELOPE_HEADER_BYTES] at hlong
      exact ⟨rfl, rfl, rfl, by omega, by omega, rfl, tags.recipe, r', ⟨rfl, hleft, hfault⟩, rfl,
        rfl, rfl⟩
  · intro info r'
    constructor
    · rintro ⟨-, header, r₁, ⟨-, hleft, hfault⟩, hinfo, hrest, hfault'⟩
      exact ⟨header, hinfo, by rw [hleft, hrest, List.append_assoc], hfault'.trans hfault⟩
    · rintro ⟨header, hinfo, hleft, hfault⟩
      have hinfo' := hinfo
      obtain ⟨crc, hcrc, -, rfl, hlong, -⟩ := hinfo'
      refine ⟨by omega, _, { left := tags.recipe ++ r'.left, fault := r.fault }, ⟨?_, ?_, rfl⟩,
        hinfo, rfl, hfault⟩
      · rw [List.length_append, SidecarTags.length_fixed, hcrc]
        rfl
      · rw [hleft, List.append_assoc]

/-- On bytes that are all there. -/
theorem payloadInfo_ok_iff {tags : SidecarTags} {bytes : List UInt8} {info : SidecarPayloadInfo} :
    (payloadInfo tags bytes.length { left := bytes, fault := none }).1 = .ok info ↔
      ∃ crc rest : List UInt8, crc.length = 4 ∧ tags.recipe.length ≤ U32_MAX ∧
        bytes = tags.fixed ++ crc ++ (tags.recipe ++ rest) ∧
        info = ⟨28 + tags.recipe.length, rest.length, UInt32.ofNat (leValue crc)⟩ := by
  have hlen : ∀ {crc rest : List UInt8}, crc.length = 4 →
      bytes = tags.fixed ++ crc ++ (tags.recipe ++ rest) →
      bytes.length = 28 + tags.recipe.length + rest.length := by
    rintro crc rest hcrc rfl
    simp only [List.length_append, SidecarTags.length_fixed, hcrc]
    omega
  rw [(payloadInfo_parses tags bytes.length { left := bytes, fault := none }).ok_iff]
  constructor
  · rintro ⟨t, _, ⟨crc, hcrc, hfit, rfl, -, rfl⟩, hleft, -⟩
    rw [List.append_assoc] at hleft
    refine ⟨crc, t.left, hcrc, hfit, hleft, ?_⟩
    rw [hlen hcrc hleft, SIDECAR_ENVELOPE_HEADER_BYTES, Nat.add_sub_cancel_left]
  · rintro ⟨crc, rest, hcrc, hfit, hbytes, rfl⟩
    refine ⟨{ left := rest, fault := none }, tags.fixed ++ crc, ⟨crc, hcrc, hfit, rfl, ?_, ?_⟩,
      by rw [List.append_assoc]; exact hbytes, rfl⟩
    · rw [hlen hcrc hbytes, SIDECAR_ENVELOPE_HEADER_BYTES]
      omega
    · rw [hlen hcrc hbytes, SIDECAR_ENVELOPE_HEADER_BYTES, Nat.add_sub_cancel_left]

/-- On every byte string the lazy reader takes exactly the headers with the tags,
each followed by the recipe, and fails otherwise, having read no further.  The
full decoder takes the same bytes when their check sum is the one announced. -/
theorem payload_info_agrees (crc32 : List UInt8 → UInt32) (tags : SidecarTags)
    (bytes : List UInt8) :
    ∃ r t, payloadInfo tags bytes.length { left := bytes, fault := none } = (r, t) ∧
      r ≠ .crash ∧
      ((∃ info, r = .ok info) ↔ ∃ crc rest : List UInt8, crc.length = 4 ∧
        tags.recipe.length ≤ U32_MAX ∧ bytes = tags.fixed ++ crc ++ (tags.recipe ++ rest)) ∧
      ((∃ p, decode crc32 tags bytes = some (.ok p)) ↔
        ∃ info, r = .ok info ∧ info.crc32 = crc32 (bytes.take 24 ++ bytes.drop 28)) ∧
      (∀ info p, r = .ok info → decode crc32 tags bytes = some (.ok p) →
        info.payloadOffset = 28 + tags.recipe.length ∧ info.payloadLen = p.length ∧
          p = bytes.drop info.payloadOffset) ∧
      ∃ taken, bytes = taken ++ t.left ∧ taken.length ≤ 28 + tags.recipe.length := by
  have hsum : ∀ {crc rest : List UInt8}, crc.length = 4 →
      bytes = tags.fixed ++ crc ++ (tags.recipe ++ rest) →
      bytes.take 24 ++ bytes.drop 28 = tags.fixed ++ (tags.recipe ++ rest) := by
    rintro crc rest hcrc rfl
    rw [List.append_assoc, List.take_left' tags.length_fixed, ← List.append_assoc,
      List.drop_left' (by rw [List.length_append, SidecarTags.length_fixed, hcrc])]
  have hok := @payloadInfo_ok_iff tags bytes
  have hpanic := (payloadInfo_parses tags bytes.length { left := bytes, fault := none }).1
  have htakes := payloadInfo_takes tags bytes.length { left := bytes, fault := none }
  rw [Ends] at htakes
  generalize payloadInfo tags bytes.length { left := bytes, fault := none } = run at *
  obtain ⟨r, t⟩ := run
  refine ⟨r, t, rfl, hpanic, ?_, ?_, ?_, htakes⟩
  · simp only [hok]
    constructor
    · rintro ⟨info, crc, rest, hcrc, hfit, hbytes, -⟩
      exact ⟨crc, rest, hcrc, hfit, hbytes⟩
    · rintro ⟨crc, rest, hcrc, hfit, hbytes⟩
      exact ⟨_, crc, rest, hcrc, hfit, hbytes, rfl⟩
  · simp only [hok, decode_eq_ok_iff, SidecarTags.envelope]
    constructor
    · rintro ⟨p, hfit, hbytes⟩
      refine ⟨_, ⟨_, p, length_leBytes 4 _, hfit, hbytes, rfl⟩, ?_⟩
      rw [hsum (length_leBytes 4 _) hbytes]
      exact (word32_eq_iff (length_leBytes 4 _) _).mpr rfl
    · rintro ⟨info, ⟨crc, rest, hcrc, hfit, hbytes, rfl⟩, hinfo⟩
      rw [hsum hcrc hbytes, word32_eq_iff hcrc] at hinfo
      exact ⟨rest, hfit, by rw [← hinfo, hbytes]⟩
  · simp only [hok, decode_eq_ok_iff, SidecarTags.envelope]
    rintro _ p ⟨crc, rest, hcrc, hfit, hbytes, rfl⟩ ⟨-, hbytes'⟩
    have hp : rest = p := by
      have heq := hbytes.symm.trans hbytes'
      obtain ⟨-, htail⟩ := List.append_inj heq (by simp [hcrc])
      exact List.append_cancel_left htail
    refine ⟨rfl, by rw [hp], ?_⟩
    rw [← hp, hbytes, ← List.append_assoc, List.drop_left']
    simp only [List.length_append, SidecarTags.length_fixed, hcrc]

end SidecarEnvelope

end Segstore
