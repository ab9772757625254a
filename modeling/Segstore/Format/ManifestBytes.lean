import Segstore.Kernel.Codec
import Segstore.Disk.Reads
import Segstore.Writer.Reload

/-!
# The bytes of a manifest

`postcard` writes the fields of a manifest one after the other and ignores what
follows the last one it reads.  The two layouts are told apart by nothing but
where the bytes end.  The codec of the ids is a parameter.
-/

namespace Segstore

variable {Id Item Seg : Type}

/-! ## The layouts -/

/-- `u64` and `usize`. -/
def u64 : Codec Nat := .varint 1 9 (by decide)

/-- `u32`. -/
def u32 : Codec Nat := .varint 15 4 (by decide)

section Layouts

variable (ids : Codec Id)

/-- The fields of `Manifest`. -/
def originalFields : Codec (Nat × List Nat × List Id) :=
  u64.pair ((u64.seq u64).pair (u64.seq ids))

/-- The fields of `ManifestExt`. -/
def extFields : Codec (Nat × List (Nat × List Id)) :=
  u32.pair (u64.seq (u64.pair (u64.seq ids)))

namespace Manifest

/-- The bytes of the original fields. -/
def originalBytes (m : Manifest Id) : List UInt8 :=
  (originalFields ids).encode (m.nextSegId, m.segmentIds, m.tombstones)

end Manifest

/-- The bytes of an extension. -/
def ManifestExt.bytes (ext : ManifestExt Id) : List UInt8 :=
  (extFields ids).encode (ext.version, ext.superseded)

/-- The payload of a manifest file (`ManifestRef`, or `Manifest` without an
extension). -/
def Manifest.bytes (m : Manifest Id) : List UInt8 :=
  m.originalBytes ids ++ (match m.ext with
    | some ext => ext.bytes ids
    | none => [])

/-- Every number and every length is one of its type. -/
structure Manifest.Fits (m : Manifest Id) : Prop where
  original : (originalFields ids).Fits (m.nextSegId, m.segmentIds, m.tombstones)
  ext : ∀ ext, m.ext = some ext → (extFields ids).Fits (ext.version, ext.superseded)

/-! ## Reading -/

/-- Decode a `Manifest` from the front of some bytes. -/
def decodeOriginal (bytes : List UInt8) : Option (Manifest Id × List UInt8) :=
  ((originalFields ids).decode bytes).map (fun p =>
    ({ nextSegId := p.1.1, segmentIds := p.1.2.1, tombstones := p.1.2.2, ext := none }, p.2))

/-- Decode a `ManifestExt` from the front of some bytes. -/
def decodeExt (bytes : List UInt8) : Option (ManifestExt Id × List UInt8) :=
  ((extFields ids).decode bytes).map (fun p =>
    ({ version := p.1.1, superseded := p.1.2 }, p.2))

/-- Decode a `ManifestV2`. -/
def decodeV2 (bytes : List UInt8) : Option (Manifest Id × ManifestExt Id) :=
  match decodeOriginal ids bytes with
  | none => none
  | some (m, rest) => (decodeExt ids rest).map (fun p => (m, p.1))

/-- `read_manifest` of a payload that passed the check sum. -/
def readManifestBytes (epoch : Nat) (payload : List UInt8) :
    Except PersistenceError (LoadedManifest Id) :=
  match decodeV2 ids payload with
  | some (m, ext) =>
      if ext.version ≠ MANIFEST_EXT_VERSION then
        .error (Directory.unsupportedVersion ext.version)
      else
        .ok (.ofCurrent epoch m ext)
  | none =>
      match decodeOriginal ids payload with
      | some (m, _) => .ok (.ofOriginal epoch m)
      | none => .error (.decode MANIFEST_PATH)

end Layouts

/-! ## What is read back -/

variable {ids : Codec Id} {m : Manifest Id}

/-- The original fields are read off the front, whatever follows. -/
theorem decodeOriginal_append
    (h : (originalFields ids).Fits (m.nextSegId, m.segmentIds, m.tombstones))
    (rest : List UInt8) :
    decodeOriginal ids (m.originalBytes ids ++ rest) = some ({ m with ext := none }, rest) := by
  rw [decodeOriginal, Manifest.originalBytes, (originalFields ids).decode_encode h]
  rfl

theorem decodeExt_append {ext : ManifestExt Id}
    (h : (extFields ids).Fits (ext.version, ext.superseded)) (rest : List UInt8) :
    decodeExt ids (ext.bytes ids ++ rest) = some (ext, rest) := by
  rw [decodeExt, ManifestExt.bytes, (extFields ids).decode_encode h]
  rfl

/-- An extension does not fit into no bytes. -/
theorem decodeExt_nil : decodeExt ids [] = none := by
  rw [decodeExt]
  rfl

/-- What is read when the original fields are followed by `rest`. -/
theorem readManifestBytes_of {payload rest : List UInt8}
    (h : decodeOriginal ids payload = some (m, rest)) (epoch : Nat) :
    readManifestBytes ids epoch payload =
      match decodeExt ids rest with
      | some (ext, _) =>
          if ext.version ≠ MANIFEST_EXT_VERSION then
            .error (Directory.unsupportedVersion ext.version)
          else
            .ok (.ofCurrent epoch m ext)
      | none => .ok (.ofOriginal epoch m) := by
  rw [readManifestBytes, decodeV2, h]
  cases hext : decodeExt ids rest with
  | none => simp only [hext, Option.map_none]
  | some p => simp only [hext, Option.map_some]

/-! ## The values of the model and the bytes -/

/-- The payload of a manifest that fits is read as the model reads the manifest. -/
theorem readExistingManifest_reads_bytes (hfits : m.Fits ids) {d : Directory Id Item Seg}
    {epoch : Nat} (h : d.files.lookup MANIFEST_PATH = some (.checkpoint epoch (.manifest m))) :
    Directory.Reads Directory.readExistingManifest d
      (readManifestBytes ids epoch (m.bytes ids)) := by
  have hread := Directory.readCheckpoint_reads h
  rw [Manifest.bytes, readManifestBytes_of (decodeOriginal_append hfits.original _),
    Directory.readExistingManifest]
  cases hext : m.ext with
  | none =>
      have hV2 : Directory.Reads Directory.readManifestV2 d (.error (.decode MANIFEST_PATH)) := by
        refine hread.bind fun d' _ => ?_
        simp only [hext]
        exact .fail _
      simp only [decodeExt_nil]
      refine hV2.attempt_bind (fun d' hsame => ?_) fun _ => rfl
      have hV1 : Directory.Reads Directory.readManifestV1 d' (.ok (epoch, m)) :=
        (Directory.readCheckpoint_reads (hsame.files ▸ h)).bind fun d'' _ => .pure _
      exact hV1.bind fun d'' _ => .pure _
  | some ext =>
      have hV2 : Directory.Reads Directory.readManifestV2 d (.ok (epoch, m, ext)) := by
        refine hread.bind fun d' _ => ?_
        simp only [hext]
        exact .pure _
      have hdecode := decodeExt_append (hfits.ext ext hext) []
      rw [List.append_nil] at hdecode
      simp only [hdecode]
      refine hV2.attempt_bind (fun d' _ => ?_) fun _ => rfl
      simp only
      split
      · exact .fail _
      · exact .pure _

/-! ## Round trips -/

/-- A manifest that stands for the memory: the hash sets may be written in any
order. -/
structure Contents.WrittenAs (c : Contents Id Item Seg) (m : Manifest Id) : Prop where
  nextSegId : m.nextSegId = c.nextSegId
  segmentIds : m.segmentIds = c.segmentIds
  tombstones : m.tombstones.Perm c.tombstones
  ext : ∃ refs, m.ext = some { version := MANIFEST_EXT_VERSION, superseded := refs } ∧
    List.Forall₂ (fun p q => p.1 = q.1 ∧ p.2.Perm q.2) refs c.supersededRefs

/-- The manifest of the model is one of them. -/
theorem Contents.writtenAs_manifest (c : Contents Id Item Seg) : c.WrittenAs c.manifest :=
  ⟨rfl, rfl, .refl _, _, rfl, List.forall₂_same.mpr fun _ _ => ⟨rfl, .refl _⟩⟩

/-- The same sets under the same segment ids. -/
def SameSets (superseded superseded' : FinMap Nat (List Id)) : Prop :=
  ∀ seg, Option.Rel (fun ids ids' => ∀ id, id ∈ ids ↔ id ∈ ids')
    (superseded.lookup seg) (superseded'.lookup seg)

theorem Contents.WrittenAs.sameSets {c : Contents Id Item Seg}
    {refs : List (Nat × List Id)}
    (h : List.Forall₂ (fun p q => p.1 = q.1 ∧ p.2.Perm q.2) refs c.supersededRefs) :
    SameSets (FinMap.ofPairs refs) c.superseded := by
  intro seg
  have hrel := FinMap.rel_ofPairs h seg
  rw [show FinMap.ofPairs c.supersededRefs = (c.image 0).superseded from rfl,
    Contents.lookup_image_superseded] at hrel
  generalize (FinMap.ofPairs refs).lookup seg = o at hrel ⊢
  generalize c.superseded.lookup seg = o' at hrel ⊢
  cases hrel with
  | none => exact .none
  | some hperm => exact .some fun id => hperm.mem_iff

/-- The payload of a checkpoint, in whatever order the sets are written, is read
back as what was committed.  A reader of the original layout finds its three
fields, and a payload of the original layout is never taken for the current one. -/
theorem manifest_round_trip (ids : Codec Id) (epoch : Nat) {c : Contents Id Item Seg}
    {m : Manifest Id} (hm : c.WrittenAs m) (hfits : m.Fits ids) :
    (∃ m' ext, decodeV2 ids (m.bytes ids) = some (m', ext) ∧
      m'.nextSegId = c.nextSegId ∧ m'.segmentIds = c.segmentIds ∧
      (∀ id, id ∈ m'.tombstones ↔ id ∈ c.tombstones) ∧ ext.version = 1 ∧
      SameSets (FinMap.ofPairs ext.superseded) c.superseded) ∧
    (∃ loaded, readManifestBytes ids epoch (m.bytes ids) = .ok loaded ∧
      loaded.hasOwnershipMetadata = true ∧ loaded.epoch = epoch ∧
      loaded.nextSegId = c.nextSegId ∧ loaded.segmentIds = c.segmentIds ∧
      (∀ id, id ∈ loaded.tombstones ↔ id ∈ c.tombstones) ∧
      SameSets loaded.superseded c.superseded) ∧
    (∃ m' rest, decodeOriginal ids (m.bytes ids) = some (m', rest) ∧
      m'.nextSegId = c.nextSegId ∧ m'.segmentIds = c.segmentIds ∧
      ∀ id, id ∈ m'.tombstones ↔ id ∈ c.tombstones) ∧
    ∀ m' : Manifest Id, m'.ext = none → m'.Fits ids →
      decodeV2 ids (m'.bytes ids) = none ∧
        readManifestBytes ids epoch (m'.bytes ids) = .ok (.ofOriginal epoch m') := by
  obtain ⟨refs, hext, hrefs⟩ := hm.ext
  have hsets := Contents.WrittenAs.sameSets hrefs
  have htombs : ∀ id, id ∈ m.tombstones ↔ id ∈ c.tombstones := fun id => hm.tombstones.mem_iff
  have hbytes : m.bytes ids = m.originalBytes ids ++
      ManifestExt.bytes ids { version := MANIFEST_EXT_VERSION, superseded := refs } := by
    rw [Manifest.bytes, hext]
  have horiginal := decodeOriginal_append hfits.original
    (ManifestExt.bytes ids { version := MANIFEST_EXT_VERSION, superseded := refs })
  have hdecode := decodeExt_append (hfits.ext _ hext) []
  rw [List.append_nil] at hdecode
  rw [hbytes]
  refine ⟨⟨{ m with ext := none }, { version := MANIFEST_EXT_VERSION, superseded := refs }, ?_,
      hm.nextSegId, hm.segmentIds, htombs, rfl, hsets⟩,
    ⟨.ofCurrent epoch m { version := MANIFEST_EXT_VERSION, superseded := refs }, ?_, rfl, rfl,
      hm.nextSegId, hm.segmentIds, htombs, hsets⟩,
    ⟨_, _, horiginal, hm.nextSegId, hm.segmentIds, htombs⟩, fun m' hnone hfits' => ?_⟩
  · rw [decodeV2, horiginal]
    simp only [hdecode, Option.map_some]
  · rw [readManifestBytes_of horiginal]
    simp only [hdecode, ne_eq, not_true_eq_false, if_false]
    rfl
  · have horiginal' := decodeOriginal_append hfits'.original []
    rw [Manifest.bytes, hnone]
    constructor
    · rw [decodeV2, horiginal']
      simp only [decodeExt_nil, Option.map_none]
    · rw [readManifestBytes_of horiginal']
      simp only [decodeExt_nil]
      rfl

/-- A memory with tombstones and a superseded copy. -/
def staleContents : Contents Nat Nat (List (Nat × Nat)) where
  segments := [[(1, 5)]]
  segmentIds := [0]
  tombstones := [2, 3]
  superseded := (∅ : FinMap Nat (List Nat)).insert 0 [1]
  buffer := [(1, 6)]
  bufferIds := [1]
  owners := none
  nextSegId := 1

/-- Its manifest, with the tombstones the other way round. -/
theorem manifest_round_trip_stale :
    ∃ loaded, readManifestBytes u32 7 (Manifest.bytes u32 {
        staleContents.manifest with tombstones := [3, 2] }) = .ok loaded ∧
      loaded.hasOwnershipMetadata = true ∧ loaded.epoch = 7 ∧
      loaded.nextSegId = 1 ∧ loaded.segmentIds = [0] ∧
      (∀ id, id ∈ loaded.tombstones ↔ id ∈ [2, 3]) ∧
      SameSets loaded.superseded staleContents.superseded := by
  have hwritten : staleContents.WrittenAs { staleContents.manifest with tombstones := [3, 2] } :=
    ⟨rfl, rfl, .swap 2 3 [], staleContents.writtenAs_manifest.ext⟩
  refine (manifest_round_trip u32 7 hwritten ⟨?_, ?_⟩).2.1
  · simp [originalFields, Codec.pair, Codec.seq, u64, u32, Codec.varint, staleContents,
      Contents.manifest]
  · intro ext hext
    cases hext
    simp [extFields, Codec.pair, Codec.seq, u64, u32, Codec.varint, staleContents,
      Contents.supersededRefs, FinMap.pairs, MANIFEST_EXT_VERSION]

/-! ## An extension that cannot be read -/

/-- `read_manifest` of the original fields and at least one more byte reads a
version-1 extension or fails exactly when these bytes begin with a version and
a list of superseded ids.  Otherwise it takes the manifest for one of the
original layout. -/
theorem extension_is_kept_iff (ids : Codec Id) (epoch : Nat) {payload : List UInt8}
    {m : Manifest Id} {b : UInt8} {bytes : List UInt8}
    (h : decodeOriginal ids payload = some (m, b :: bytes)) :
    ((∃ ext rest, decodeExt ids (b :: bytes) = some (ext, rest) ∧
        ext.version = MANIFEST_EXT_VERSION ∧
        readManifestBytes ids epoch payload = .ok (.ofCurrent epoch m ext)) ∨
      ∃ e, readManifestBytes ids epoch payload = .error e) ↔
    (decodeExt ids (b :: bytes)).isSome = true := by
  rw [readManifestBytes_of h]
  cases hext : decodeExt ids (b :: bytes) with
  | none =>
      refine iff_of_false ?_ (by simp)
      rintro (⟨ext, rest, hno, -⟩ | ⟨e, hno⟩)
      · cases hno
      · cases hno
  | some p =>
      obtain ⟨ext, rest⟩ := p
      refine iff_of_true ?_ rfl
      by_cases hversion : ext.version = MANIFEST_EXT_VERSION
      · exact .inl ⟨ext, rest, rfl, hversion, if_neg (not_not.mpr hversion)⟩
      · exact .inr ⟨_, if_pos hversion⟩

/-- A version-1 extension that marks two copies of a segment. -/
theorem extension_is_kept_iff_version_one :
    decodeExt u32 [1, 1, 0, 2, 5, 9] =
        some ({ version := 1, superseded := [(0, [5, 9])] }, []) ∧
      ((∃ ext rest, decodeExt u32 [1, 1, 0, 2, 5, 9] = some (ext, rest) ∧
          ext.version = MANIFEST_EXT_VERSION ∧
          readManifestBytes u32 7 [2, 2, 0, 1, 1, 8, 1, 1, 0, 2, 5, 9] = .ok (.ofCurrent 7 {
            nextSegId := 2, segmentIds := [0, 1], tombstones := [8], ext := none } ext)) ∨
        ∃ e, readManifestBytes u32 7 [2, 2, 0, 1, 1, 8, 1, 1, 0, 2, 5, 9] = .error e) :=
  ⟨rfl, (extension_is_kept_iff u32 7 rfl).mpr rfl⟩

/-- An extension of version 2 whose body has another shape is dropped. -/
theorem unknown_extension_is_dropped :
    decodeOriginal u32 [1, 1, 0, 0, 2, 1] = some ({
      nextSegId := 1, segmentIds := [0], tombstones := [], ext := none }, [2, 1]) ∧
    readManifestBytes u32 7 [1, 1, 0, 0, 2, 1] = .ok (.ofOriginal 7 {
      nextSegId := 1, segmentIds := [0], tombstones := [], ext := none }) ∧
    ¬ ((∃ ext rest, decodeExt u32 [2, 1] = some (ext, rest) ∧
        ext.version = MANIFEST_EXT_VERSION ∧
        readManifestBytes u32 7 [1, 1, 0, 0, 2, 1] = .ok (.ofCurrent 7 {
          nextSegId := 1, segmentIds := [0], tombstones := [], ext := none } ext)) ∨
      ∃ e, readManifestBytes u32 7 [1, 1, 0, 0, 2, 1] = .error e) := by
  refine ⟨rfl, rfl, ?_⟩
  rintro (⟨ext, rest, hno, -⟩ | ⟨e, hno⟩)
  · cases hno
  · cases hno

end Segstore
