import Segstore.Model.SegmentFile

/-!
# What the segment file parser accepts

`Envelops crc32 b p` is the grammar of segment files: a header, the payload `p`,
and anything after it.  The three entry points of the catalog accept exactly
these files, panic on none, and return the payload or tell where it is.
-/

namespace Segstore

/-! ## The grammar -/

/-- A header that is taken, field by field. -/
structure CheckpointHeader where
  version : List UInt8
  lastAppliedId : List UInt8
  length : List UInt8
  checksum : List UInt8
  version_length : version.length = 4
  lastAppliedId_length : lastAppliedId.length = 8
  length_length : length.length = 8
  checksum_length : checksum.length = 4
  version_known : leValue version = 1 ∨ leValue version = 2
  length_le : leValue length ≤ MAX_CHECKPOINT_PAYLOAD_BYTES

namespace CheckpointHeader

variable (h : CheckpointHeader)

/-- The header before its check sum. -/
def front : List UInt8 :=
  CHECKPOINT_MAGIC ++ h.version ++ h.lastAppliedId ++ h.length

/-- The whole header. -/
def bytes : List UInt8 :=
  h.front ++ h.checksum

/-- What the check sum of a payload covers, in either version. -/
def covered (p : List UInt8) : List UInt8 :=
  if leValue h.version = 1 then p else h.front ++ p

/-- The header as the parser returns it. -/
def parsed : CheckpointPayloadHeader where
  version := UInt32.ofNat (leValue h.version)
  lastAppliedId := UInt64.ofNat (leValue h.lastAppliedId)
  payloadLenU64 := UInt64.ofNat (leValue h.length)
  payloadLen := leValue h.length
  checksum := UInt32.ofNat (leValue h.checksum)

@[simp] theorem length_front : h.front.length = 24 := by
  simp [front, CHECKPOINT_MAGIC, h.version_length, h.lastAppliedId_length, h.length_length]

@[simp] theorem length_bytes : h.bytes.length = 28 := by
  rw [bytes, List.length_append, length_front, h.checksum_length]

end CheckpointHeader

/-- The bytes are a segment file with payload `p`. -/
def Envelops (crc32 : List UInt8 → UInt32) (b p : List UInt8) : Prop :=
  ∃ h : CheckpointHeader, ∃ rest, b = h.bytes ++ (p ++ rest) ∧ leValue h.length = p.length ∧
    leValue h.checksum = (crc32 (h.covered p)).toNat

/-- The bytes start with a header that is taken. -/
def HasHeader (b : List UInt8) : Prop :=
  ∃ h : CheckpointHeader, ∃ rest, b = h.bytes ++ rest

/-! ## The header -/

theorem version_known_iff {bytes : List UInt8} (hlen : bytes.length = 4) :
    ¬ (UInt32.ofNat (leValue bytes) ≠ CHECKPOINT_FORMAT_VERSION_V1 ∧
      UInt32.ofNat (leValue bytes) ≠ CHECKPOINT_FORMAT_VERSION_V2) ↔
      leValue bytes = 1 ∨ leValue bytes = 2 := by
  rw [not_and_or, not_not, not_not, word32_eq_iff hlen, word32_eq_iff hlen,
    ← leValue_eq_iff hlen (by decide), ← leValue_eq_iff hlen (by decide)]
  rfl

theorem readCheckpointPayloadHeader_parses (f : OpenFile) :
    Parses readCheckpointPayloadHeader f (fun header f' => ∃ h : CheckpointHeader,
      f.left = h.bytes ++ f'.left ∧ f'.fault = f.fault ∧ header = h.parsed) := by
  refine Parses.congr (.bind (.readExact _ _ _) fun _ _ _ => .reject_bind fun _ =>
    .bind (.readExact _ _ _) fun _ _ _ => .reject_bind fun _ =>
    .bind (.readExact _ _ _) fun _ _ _ => .bind (.readExact _ _ _) fun _ _ _ =>
    .reject_bind fun _ => .reject_bind fun _ => .bind (.readExact _ _ _) fun _ _ _ =>
    .pure _) fun header f' => ?_
  constructor
  · rintro ⟨magic, f₁, ⟨-, hleft₁, hfault₁⟩, hmagic, version, f₂, ⟨hversion, hleft₂, hfault₂⟩,
      hknown, id, f₃, ⟨hid, hleft₃, hfault₃⟩, length, f₄, ⟨hlength, hleft₄, hfault₄⟩, -, hmax,
      checksum, f₅, ⟨hchecksum, hleft₅, hfault₅⟩, rfl, rfl⟩
    refine ⟨⟨version, id, length, checksum, hversion, hid, hlength, hchecksum,
      (version_known_iff hversion).mp hknown, Nat.le_of_not_lt hmax⟩, ?_, ?_, rfl⟩
    · rw [hleft₁, hleft₂, hleft₃, hleft₄, hleft₅, not_not.mp hmagic]
      simp [CheckpointHeader.bytes, CheckpointHeader.front]
    · rw [hfault₅, hfault₄, hfault₃, hfault₂, hfault₁]
  · rintro ⟨h, hleft, hfault, rfl⟩
    have hmax := h.length_le
    refine ⟨CHECKPOINT_MAGIC, ⟨h.version ++ (h.lastAppliedId ++ (h.length ++ (h.checksum ++
      f'.left))), f.fault⟩, ⟨rfl, ?_, rfl⟩, fun hmagic => hmagic rfl, h.version, ⟨_, f.fault⟩,
      ⟨h.version_length, rfl, rfl⟩, (version_known_iff h.version_length).mpr h.version_known,
      h.lastAppliedId, ⟨_, f.fault⟩, ⟨h.lastAppliedId_length, rfl, rfl⟩, h.length, ⟨_, f.fault⟩,
      ⟨h.length_length, rfl, rfl⟩, ?_, Nat.not_lt_of_le hmax, h.checksum, f',
      ⟨h.checksum_length, rfl, hfault⟩, rfl, rfl⟩
    · rw [hleft, CheckpointHeader.bytes, CheckpointHeader.front]
      simp only [List.append_assoc]
    · rw [MAX_CHECKPOINT_PAYLOAD_BYTES] at hmax
      rw [USIZE_MAX]
      omega

/-! ## The payload -/

/-- What a parsed header makes of the payload is what the grammar asks for. -/
theorem actual_parsed (crc32 : List UInt8 → UInt32) (h : CheckpointHeader) (p : List UInt8) :
    h.parsed.actual crc32 p = some (crc32 (h.covered p)) := by
  have hone : h.parsed.version = CHECKPOINT_FORMAT_VERSION_V1 ↔ leValue h.version = 1 := by
    rw [CheckpointHeader.parsed, word32_eq_iff h.version_length,
      ← leValue_eq_iff h.version_length (by decide)]
    rfl
  have htwo : h.parsed.version = CHECKPOINT_FORMAT_VERSION_V2 ↔ leValue h.version = 2 := by
    rw [CheckpointHeader.parsed, word32_eq_iff h.version_length,
      ← leValue_eq_iff h.version_length (by decide)]
    rfl
  rw [CheckpointPayloadHeader.actual, CheckpointHeader.covered]
  by_cases hv : leValue h.version = 1
  · rw [if_pos (hone.mpr hv), if_pos hv]
  · rw [if_neg (mt hone.mp hv), if_pos (htwo.mpr (h.version_known.resolve_left hv)), if_neg hv,
      CheckpointHeader.front]
    have hversion := (word32_eq_iff h.version_length _).mp rfl
    have hid := (word64_eq_iff h.lastAppliedId_length _).mp rfl
    have hlength := (word64_eq_iff h.length_length _).mp rfl
    simp only [CheckpointHeader.parsed]
    rw [← hversion, ← hid, ← hlength]

/-- The payload has the length and the check sum of the header. -/
def CheckpointPayloadHeader.Matches (crc32 : List UInt8 → UInt32)
    (header : CheckpointPayloadHeader) (p : List UInt8) : Prop :=
  p.length = header.payloadLen ∧ header.actual crc32 p = some header.checksum

theorem matches_parsed (crc32 : List UInt8 → UInt32) (h : CheckpointHeader) (p : List UInt8) :
    h.parsed.Matches crc32 p ↔ leValue h.length = p.length ∧
      leValue h.checksum = (crc32 (h.covered p)).toNat := by
  have hsum : crc32 (h.covered p) = h.parsed.checksum ↔
      leValue h.checksum = (crc32 (h.covered p)).toNat := by
    rw [eq_comm, CheckpointHeader.parsed, word32_eq_iff h.checksum_length]
    exact (leValue_eq_iff h.checksum_length (UInt32.toNat_lt _)).symm
  rw [CheckpointPayloadHeader.Matches, actual_parsed, Option.some_inj, hsum, eq_comm]
  rfl

/-- The published record accepts the bytes with the length and the check sum. -/
theorem SegmentPayloadInfo.verifyPayload_ok_iff {crc32 : List UInt8 → UInt32}
    {info : SegmentPayloadInfo} {q : List UInt8} : info.verifyPayload crc32 q = .ok () ↔
      q.length = info.payloadLen ∧ crc32 q = info.payloadCrc32 := by
  rw [verifyPayload]
  split
  · rename_i hlen
    exact iff_of_false (by simp) fun hq => hlen hq.1
  · rename_i hlen
    rw [and_iff_right (not_not.mp hlen)]
    split
    · rename_i hsum
      exact iff_of_false (by simp) hsum
    · rename_i hsum
      exact iff_of_true rfl (not_not.mp hsum)

section

variable {crc32 : List UInt8 → UInt32} {header : CheckpointPayloadHeader}

theorem verifyPayload_parses {σ : Type} (hknown : ∀ p, header.actual crc32 p ≠ none)
    (p : List UInt8) (s : σ) :
    Parses (header.verifyPayload crc32 p) s (fun _ t => header.Matches crc32 p ∧ t = s) := by
  obtain ⟨sum, hsum⟩ := Option.ne_none_iff_exists'.mp (hknown p)
  refine Parses.congr (.reject_bind fun _ => .expect_bind hsum .reject) fun _ t => ?_
  rw [not_not, not_not, CheckpointPayloadHeader.Matches, hsum, Option.some_inj, and_assoc]

theorem readCheckpointPayloadIntoReader_parses (hknown : ∀ p, header.actual crc32 p ≠ none)
    (f : OpenFile) (buffer : List UInt8) :
    Parses (readCheckpointPayloadIntoReader crc32 header) (f, buffer) (fun _ t =>
      f.left = t.2 ++ t.1.left ∧ t.1.fault = f.fault ∧ header.Matches crc32 t.2) := by
  show Parses (Reader.readToEnd header.payloadLen >>= fun n => _) (f, []) _
  refine Parses.congr (.bind (.readToEnd _ f []) fun _ t _ => .reject_bind fun _ =>
    verifyPayload_parses hknown t.2 t) fun _ t => ?_
  constructor
  · rintro ⟨n, t', ⟨hfault, bytes, hleft, hbuffer, -⟩, -, hmatches, rfl⟩
    rw [List.nil_append] at hbuffer
    rw [hbuffer] at hmatches ⊢
    exact ⟨hleft, hfault, hmatches⟩
  · rintro ⟨hleft, hfault, hmatches⟩
    exact ⟨header.payloadLen, t, ⟨hfault, t.2, hleft, rfl, hmatches.1, .inl rfl⟩,
      Nat.lt_irrefl _, hmatches, rfl⟩

end

/-! ## The entry points -/

section

variable (crc32 : List UInt8 → UInt32) (openFile : String → Except PersistenceError OpenFile)
variable (path : String)

/-- Header and payload of an open file. -/
theorem onReader_bind_parses {α : Type} {f : OpenFile} {buffer : List UInt8}
    {g : CheckpointPayloadHeader → FillM α} {R : CheckpointPayloadHeader → OpenFile → α →
      OpenFile × List UInt8 → Prop}
    (hg : ∀ header f', (∀ p, header.actual crc32 p ≠ none) →
      Parses (g header) (f', buffer) (R header f')) :
    Parses (onReader readCheckpointPayloadHeader >>= g) (f, buffer) (fun a t =>
      ∃ h : CheckpointHeader, ∃ f', f.left = h.bytes ++ f'.left ∧ f'.fault = f.fault ∧
        R h.parsed f' a t) := by
  refine Parses.congr (.bind (.zoom (readCheckpointPayloadHeader_parses f))
    (R := fun header t a u => R header t.1 a u) ?_) ?_
  · rintro header t ⟨f', ⟨h, -, -, rfl⟩, rfl⟩
    refine hg _ f' fun p => ?_
    rw [actual_parsed]
    exact Option.some_ne_none _
  · intro a t
    constructor
    · rintro ⟨_, _, ⟨f', ⟨h, hleft, hfault, rfl⟩, rfl⟩, hR⟩
      exact ⟨h, f', hleft, hfault, hR⟩
    · rintro ⟨h, f', hleft, hfault, hR⟩
      exact ⟨_, _, ⟨f', ⟨h, hleft, hfault, rfl⟩, rfl⟩, hR⟩

/-- A header and a payload that matches it are a segment file. -/
theorem envelops_iff {crc32 : List UInt8 → UInt32} {f : OpenFile} {p : List UInt8} :
    Envelops crc32 f.left p ↔ ∃ (h : CheckpointHeader) (f' f'' : OpenFile),
      f.left = h.bytes ++ f'.left ∧ f'.fault = f.fault ∧ f'.left = p ++ f''.left ∧
        f''.fault = f'.fault ∧ h.parsed.Matches crc32 p := by
  constructor
  · rintro ⟨h, rest, hleft, hmatches⟩
    exact ⟨h, ⟨p ++ rest, f.fault⟩, ⟨rest, f.fault⟩, hleft, rfl, rfl, rfl,
      (matches_parsed crc32 h p).mpr hmatches⟩
  · rintro ⟨h, f', f'', hleft, -, hleft', -, hmatches⟩
    exact ⟨h, f''.left, by rw [hleft, hleft'], (matches_parsed crc32 h p).mp hmatches⟩

theorem readCheckpointPayloadInto_parses (buffer : List UInt8) :
    Parses (readCheckpointPayloadInto crc32 openFile path) buffer (fun _ p =>
      ∃ f, openFile path = .ok f ∧ Envelops crc32 f.left p) := by
  refine .ofExcept_bind fun f _ => Parses.congr (.zoom <| onReader_bind_parses crc32
    fun header f' hknown => .attempt_bind (readCheckpointPayloadIntoReader_parses hknown f' buffer)
      (fun _ _ _ => .pure _) fun e t => .fail e) fun _ p => ?_
  rw [envelops_iff]
  constructor
  · rintro ⟨_, ⟨h, f', hleft, hfault, -, ⟨f'', p'⟩, ⟨hleft', hfault', hmatches⟩, -, rfl⟩, rfl⟩
    exact ⟨h, f', f'', hleft, hfault, hleft', hfault', hmatches⟩
  · rintro ⟨h, f', f'', hleft, hfault, hleft', hfault', hmatches⟩
    exact ⟨_, ⟨h, f', hleft, hfault, (), (f'', p), ⟨hleft', hfault', hmatches⟩, rfl, rfl⟩, rfl⟩

theorem readCheckpointPayload_parses {σ : Type} (s : σ) :
    Parses (readCheckpointPayload crc32 openFile path) s (fun p t =>
      (∃ f, openFile path = .ok f ∧ Envelops crc32 f.left p) ∧ t = s) := by
  refine Parses.congr (.within <| .bind (readCheckpointPayloadInto_parses crc32 openFile path [])
    fun _ _ _ => .get) fun p t => and_congr_left fun _ => ?_
  constructor
  · rintro ⟨_, _, _, hf, rfl, rfl⟩
    exact hf
  · exact fun hf => ⟨p, (), p, hf, rfl, rfl⟩

/-- A file has one payload. -/
theorem Envelops.unique {crc32 : List UInt8 → UInt32} {b p p' : List UInt8}
    (h : Envelops crc32 b p) (h' : Envelops crc32 b p') : p = p' := by
  have hread := (readCheckpointPayload_parses crc32
    (fun _ => .ok { left := b, fault := none }) "" ()).ok_iff
  have hp := (hread p).mpr ⟨(), ⟨_, rfl, h⟩, rfl⟩
  rw [(hread p').mpr ⟨(), ⟨_, rfl, h'⟩, rfl⟩] at hp
  cases hp
  rfl

theorem readCheckpointPayloadInfo_parses {σ : Type} (s : σ) :
    Parses (readCheckpointPayloadInfo crc32 openFile path) s (fun info t =>
      (∃ f p, openFile path = .ok f ∧ Envelops crc32 f.left p ∧
        info = ⟨CHECKPOINT_HEADER_BYTES, p.length, crc32 p⟩) ∧ t = s) := by
  refine Parses.congr (.ofExcept_bind fun f _ => .within <| onReader_bind_parses crc32
    fun header f' hknown => .bind (readCheckpointPayloadIntoReader_parses hknown f' [])
      fun _ t _ => show Parses (pure (header.payloadInfo crc32 t.2)) t _ from .pure _)
    fun info t => ?_
  constructor
  · rintro ⟨f, hopen, ⟨_, h, f', hleft, hfault, -, ⟨f'', p⟩, ⟨hleft', hfault', hmatches⟩, rfl, -⟩,
      ht⟩
    refine ⟨⟨f, p, hopen, envelops_iff.mpr ⟨h, f', f'', hleft, hfault, hleft', hfault', hmatches⟩,
      ?_⟩, ht⟩
    rw [CheckpointPayloadHeader.payloadInfo, hmatches.1]
  · rintro ⟨⟨f, p, hopen, hfile, rfl⟩, ht⟩
    obtain ⟨h, f', f'', hleft, hfault, hleft', hfault', hmatches⟩ := envelops_iff.mp hfile
    refine ⟨f, hopen, ⟨_, h, f', hleft, hfault, (), (f'', p), ⟨hleft', hfault', hmatches⟩, ?_,
      rfl⟩, ht⟩
    rw [CheckpointPayloadHeader.payloadInfo, hmatches.1]

end

end Segstore
