import Segstore.Model.Store

/-!
# Opening a store

`open_with_options`: load the manifest and its segments, rebuild which segment
holds each id's live copy, read the WAL of the manifest's epoch, delete the
leftovers of crashes, and replay the WAL.
-/

namespace Segstore

variable {Id Item Seg F : Type}

namespace Directory

/-- `acquire_store_lock`.  The lock file is created when it is missing; who
holds the lock is decided by the environment. -/
def acquireStoreLock : DirM Id Item Seg Unit := do
  if ← Eff.read fileBacked then
    perform .lock id (fun files =>
      if (files.lookup LOCK_PATH).isSome then files else files.insert LOCK_PATH (.raw []))
  else
    pure ()

/-- Read the segment files of the given ids. -/
def readSegments : List Nat → DirM Id Item Seg (List Seg)
  | [] => pure []
  | id :: rest => do
      let seg ← readSegmentFile (segPath id)
      let segs ← readSegments rest
      pure (seg :: segs)

/-- Read the WAL of the current epoch, if there is one. -/
def readLiveWal (liveWal : String) : DirM Id Item Seg (List (Op Id Item)) := do
  if ← Eff.read («exists» liveWal) then readLog liveWal else pure []

end Directory

section Owners

variable [DecidableEq Id]

/-- The error for an id that one segment lists twice as live. -/
def duplicateError (segId : Nat) : PersistenceError :=
  .format ("duplicate live id in the same segment " ++ toString segId ++
    "; automatic recovery is unsafe; restore a known-good generation or rebuild from " ++
    "validated latest-per-id records")

/-- The owners known so far, with the superseded sets. -/
abbrev Claims (Id : Type) := FinMap Id Nat × FinMap Nat (List Id)

/-- Give the segment the live copy of one id it lists.  The copy of an older
segment becomes superseded. -/
def claimId (tombstones : List Id) (segId : Nat) (claims : Claims Id) (id : Id) :
    Except PersistenceError (Claims Id) :=
  if copyIsLive tombstones claims.2 segId id then
    match claims.1.lookup id with
    | some older =>
        if older = segId then
          .error (duplicateError segId)
        else
          .ok (claims.1.insert id segId, markSuperseded claims.2 older id)
    | none => .ok (claims.1.insert id segId, claims.2)
  else
    .ok claims

/-- The ids of one segment. -/
def claimIds (tombstones : List Id) (segId : Nat) :
    List Id → Claims Id → Except PersistenceError (Claims Id)
  | [], claims => .ok claims
  | id :: ids, claims =>
      match claimId tombstones segId claims id with
      | .ok claims => claimIds tombstones segId ids claims
      | .error e => .error e

/-- Rebuild the owners over all segments, oldest first.  A store that does not
list ids has none. -/
def resolveOwners (st : Store Id Item Seg) (tombstones : List Id) :
    List (Nat × Seg) → Claims Id →
      Except PersistenceError (Option (FinMap Id Nat) × FinMap Nat (List Id))
  | [], claims => .ok (some claims.1, claims.2)
  | (segId, seg) :: rest, claims =>
      match st.itemIds seg with
      | none => .ok (none, claims.2)
      | some ids =>
          match claimIds tombstones segId ids claims with
          | .ok claims => resolveOwners st tombstones rest claims
          | .error e => .error e

/-- The memory of a writer before WAL replay. -/
def LoadedManifest.boot (st : Store Id Item Seg) (m : LoadedManifest Id) (segs : List Seg) :
    Except PersistenceError (Contents Id Item Seg) :=
  match resolveOwners st m.tombstones (m.segmentIds.zip segs) (∅, m.superseded) with
  | .ok (owners, superseded) =>
      .ok {
        segments := segs
        segmentIds := m.segmentIds
        tombstones := m.tombstones
        superseded := superseded
        buffer := []
        bufferIds := []
        owners := owners
        nextSegId := m.nextSegId }
  | .error e => .error e

/-- The writer that `open` returns. -/
def SegmentedStore.opened (st : Store Id Item Seg) (opts : Options F)
    (m : LoadedManifest Id) (boot : Contents Id Item Seg) (ops : List (Op Id Item))
    (dir : Directory Id Item Seg) : SegmentedStore Id Item Seg F where
  toContents := boot.replay st opts.flushThreshold ops
  dir := dir
  published := boot.toPubState
  wal := walPath m.epoch
  walPoisoned := false
  epoch := m.epoch
  opts := opts
  persistedIds := m.segmentIds
  poisoned := false

/-- What `open_with_options` checks before it tries the lock. -/
def openChecks (opts : Options F) : DirM Id Item Seg Unit := do
  let fileBacked ← Eff.read Directory.fileBacked
  if opts.sync = .fsync && !fileBacked then
    Eff.fail (.invalidConfig "SyncPolicy::Fsync requires a filesystem-backed Directory")
  else
    Directory.rejectLegacyFormats

/-- `open_with_options` from the lock on. -/
def openLocked (st : Store Id Item Seg) (opts : Options F) :
    DirM Id Item Seg (SegmentedStore Id Item Seg F) := do
  Directory.acquireStoreLock
  let loaded ← Directory.readManifest
  let m := loaded.getD .absent
  let segs ← Directory.readSegments m.segmentIds
  let boot ← Eff.ofExcept (m.boot st segs)
  let ops ← Directory.readLiveWal (walPath m.epoch)
  Directory.collectGarbage [] (isOpenGarbage m.epoch m.segmentIds)
  let dir ← Eff.get
  pure (SegmentedStore.opened st opts m boot ops dir)

/-- `open_with_options`. -/
def openWithOptions (st : Store Id Item Seg) (opts : Options F) :
    DirM Id Item Seg (SegmentedStore Id Item Seg F) := do
  openChecks opts
  openLocked st opts

end Owners

end Segstore
