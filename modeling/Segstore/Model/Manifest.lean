import Segstore.Kernel.BinarySearch
import Segstore.Model.Directory

/-!
# The manifest and its readers

`read_manifest`, the snapshot that readers hold, and the manifest-only
catalog.
-/

namespace Segstore

variable {Id Item Seg : Type}

/-- Version of the `ManifestExt` layout that current writers append. -/
def MANIFEST_EXT_VERSION : Nat := 1

/-- Whether the copy of `id` sealed in segment `seg` is the live one. -/
def copyIsLive [DecidableEq Id] (tombstones : List Id) (superseded : FinMap Nat (List Id))
    (seg : Nat) (id : Id) : Bool :=
  !tombstones.contains id &&
    !(match superseded.lookup seg with
      | some ids => ids.contains id
      | none => false)

/-- The reader-visible published state.  A `View` is one of these. -/
structure PubState (Id Seg : Type) where
  segments : List Seg
  segmentIds : List Nat
  tombstones : List Id
  superseded : FinMap Nat (List Id)

namespace PubState

/-- `View::is_live_in`, which is also the writer's. -/
def isLiveIn [DecidableEq Id] (v : PubState Id Seg) (seg : Nat) (id : Id) : Bool :=
  copyIsLive v.tombstones v.superseded seg id

/-- The segments with their ids, oldest first. -/
def sealed (v : PubState Id Seg) : List (Nat × Seg) :=
  v.segmentIds.zip v.segments

end PubState

/-- A decoded manifest of either layout. -/
structure LoadedManifest (Id : Type) where
  hasOwnershipMetadata : Bool
  epoch : Nat
  nextSegId : Nat
  segmentIds : List Nat
  tombstones : List Id
  superseded : FinMap Nat (List Id)

/-- What `read_manifest` makes of a manifest in the current layout. -/
def LoadedManifest.ofCurrent (epoch : Nat) (m : Manifest Id) (ext : ManifestExt Id) :
    LoadedManifest Id where
  hasOwnershipMetadata := true
  epoch := epoch
  nextSegId := m.nextSegId
  segmentIds := m.segmentIds
  tombstones := m.tombstones
  superseded := FinMap.ofPairs ext.superseded

/-- What `read_manifest` makes of a manifest in the original layout. -/
def LoadedManifest.ofOriginal (epoch : Nat) (m : Manifest Id) : LoadedManifest Id where
  hasOwnershipMetadata := false
  epoch := epoch
  nextSegId := m.nextSegId
  segmentIds := m.segmentIds
  tombstones := m.tombstones
  superseded := ∅

/-- The manifest that stands for a directory without one. -/
def LoadedManifest.absent : LoadedManifest Id where
  hasOwnershipMetadata := true
  epoch := 0
  nextSegId := 0
  segmentIds := []
  tombstones := []
  superseded := ∅

namespace Directory

/-- `read_postcard::<ManifestV2>`, which runs out of bytes on the original
layout. -/
def readManifestV2 : DirM Id Item Seg (Nat × Manifest Id × ManifestExt Id) := do
  match ← readCheckpoint MANIFEST_PATH with
  | (epoch, .manifest m) =>
      match m.ext with
      | some ext => pure (epoch, m, ext)
      | none => Eff.fail (.decode MANIFEST_PATH)
  | (_, .segment _) => Eff.fail (.decode MANIFEST_PATH)

/-- `read_postcard::<Manifest>`, which ignores an extension. -/
def readManifestV1 : DirM Id Item Seg (Nat × Manifest Id) := do
  match ← readCheckpoint MANIFEST_PATH with
  | (epoch, .manifest m) => pure (epoch, m)
  | (_, .segment _) => Eff.fail (.decode MANIFEST_PATH)

/-- The error for a manifest extension that this version does not know. -/
def unsupportedVersion (version : Nat) : PersistenceError :=
  .format ("unsupported segstore manifest extension version " ++ toString version ++
    " (expected " ++ toString MANIFEST_EXT_VERSION ++ ")")

/-- `read_manifest`, for a directory that has one. -/
def readExistingManifest : DirM Id Item Seg (LoadedManifest Id) := do
  match ← Eff.attempt readManifestV2 with
  | .ok (epoch, m, ext) =>
      if ext.version ≠ MANIFEST_EXT_VERSION then
        Eff.fail (unsupportedVersion ext.version)
      else
        pure (.ofCurrent epoch m ext)
  | .error (.decode _) => do
      let (epoch, m) ← readManifestV1
      pure (.ofOriginal epoch m)
  | .error e => Eff.fail e

/-- `read_manifest`. -/
def readManifest : DirM Id Item Seg (Option (LoadedManifest Id)) := do
  if ← Eff.read («exists» MANIFEST_PATH) then
    let m ← readExistingManifest
    pure (some m)
  else
    pure none

/-- `reject_legacy_formats`. -/
def rejectLegacyFormats : DirM Id Item Seg Unit := do
  let d ← Eff.get
  if d.exists LEGACY_WAL_PATH then
    Eff.fail (.invalidConfig (
      "segstore 0.1 on-disk store detected (unsuffixed segstore.wal); the " ++
      "on-disk format is epoch-suffixed and cannot read it"))
  else if d.exists LEGACY_CKPT_PATH && !d.exists MANIFEST_PATH then
    Eff.fail (.invalidConfig (
      "segstore 0.2 on-disk store detected (monolithic segstore.ckpt); the 0.3 " ++
      "on-disk format is a manifest + per-segment files and cannot read it"))
  else
    pure ()

end Directory

/-! ## The catalog -/

/-- `SegmentCatalog`: segment metadata without the segments. -/
structure SegmentCatalog (Id : Type) where
  epoch : Nat
  nextSegmentId : Nat
  segmentIds : List Nat
  tombstones : List Id
  superseded : FinMap Nat (List Id)

namespace SegmentCatalog

/-- The error for a manifest whose segments have unknown owners. -/
def legacyError : PersistenceError :=
  .format ("legacy manifest lacks per-copy ownership metadata; read-only catalog access " ++
    "requires explicit migration or rebuilding from validated records")

/-- The catalog of a loaded manifest. -/
def ofManifest (m : LoadedManifest Id) : Except PersistenceError (SegmentCatalog Id) :=
  if !m.hasOwnershipMetadata && !m.segmentIds.isEmpty then
    .error legacyError
  else
    .ok {
      epoch := m.epoch
      nextSegmentId := m.nextSegId
      segmentIds := m.segmentIds
      tombstones := m.tombstones
      superseded := m.superseded }

/-- `SegmentCatalog::open`. -/
def «open» : DirM Id Item Seg (SegmentCatalog Id) := do
  Directory.rejectLegacyFormats
  let loaded ← Directory.readManifest
  Eff.ofExcept (ofManifest (loaded.getD .absent))

/-- `SegmentCatalog::is_live_in`. -/
def isLiveIn [DecidableEq Id] (c : SegmentCatalog Id) (seg : Nat) (id : Id) : Bool :=
  copyIsLive c.tombstones c.superseded seg id

/-- `SegmentCatalog::ensure_segment_id`. -/
def ensureSegmentId (c : SegmentCatalog Id) (id : Nat) : Except PersistenceError Unit :=
  if (binarySearch c.segmentIds id).isSome then
    .ok ()
  else
    .error (.notFound ("segment id " ++ toString id ++ " is not in the checkpoint manifest"))

/-- `SegmentCatalog::segment_name`. -/
def segmentName (c : SegmentCatalog Id) (id : Nat) : Except PersistenceError String := do
  c.ensureSegmentId id
  pure (segPath id)

/-- `SegmentCatalog::read_segment`. -/
def readSegment (c : SegmentCatalog Id) (id : Nat) : DirM Id Item Seg Seg := do
  let name ← Eff.ofExcept (c.segmentName id)
  Directory.readSegmentFile name

end SegmentCatalog

end Segstore
