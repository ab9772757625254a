import Mathlib.Data.List.Infix
import Segstore.Model.Contents

/-!
# The writer

`SegmentedStore` and its mutating operations.  Every call on the directory may
fail or stop the process, and what has been changed until then stays changed.
The store value of type `Store` never changes and is a parameter; the file
handle of the advisory lock carries no data and is left out.
-/

namespace Segstore

variable {Id Item Seg F : Type}

/-- A generic, durable, segmented mutable store.  `opts` holds the four fields
copied from the options of `open`.  Of its log writer `wal` is the path it appends
to, and `walPoisoned` says whether a call on it has failed. -/
structure SegmentedStore (Id Item Seg F : Type) extends Contents Id Item Seg where
  dir : Directory Id Item Seg
  published : PubState Id Seg
  wal : String
  walPoisoned : Bool
  epoch : Nat
  opts : Options F
  persistedIds : List Nat
  poisoned : Bool

/-- Calls on a writer. -/
abbrev StoreM (Id Item Seg F : Type) :=
  Eff PersistenceError (SegmentedStore Id Item Seg F)

/-- The error that names the size levers (`size_cap_context`). -/
def sizeCapContext (e : PersistenceError) (what : String) : PersistenceError :=
  match e with
  | .format msg =>
      if "payload too large".toList <:+: msg.toList then
        .format (what ++ " does not fit the 268435456-byte per-blob limit " ++
          "(durability::MAX_CHECKPOINT_PAYLOAD_BYTES): " ++ msg ++ ". Each segment and the " ++
          "manifest are written as a single checkpoint blob. Keep them under the cap: " ++
          "lower TierConfig::max_merged_len (it counts items, not bytes) or the open() " ++
          "flush_threshold so segments stay smaller, and run compact() to drop " ++
          "tombstones from the manifest.")
      else
        .format msg
  | e => e

namespace Directory

/-- Delete one name if it is there.  Tells whether it was deleted. -/
def deleteIfThere (name : String) : DirM Id Item Seg Bool := do
  if ← Eff.read («exists» name) then
    match ← Eff.attempt (delete name) with
    | .ok () => pure true
    | .error _ => pure false
  else
    pure false

/-- Delete every name that is there.  Tells whether something was deleted. -/
def deleteEach : List String → DirM Id Item Seg Bool
  | [] => pure false
  | name :: rest => do
      let now ← deleteIfThere name
      let later ← deleteEach rest
      pure (now || later)

/-- `delete_files_best_effort`. -/
def deleteFilesBestEffort (names : List String) (durable : Bool) :
    DirM Id Item Seg Unit := do
  let deleted ← deleteEach names
  if durable && deleted then
    let _ ← Eff.attempt syncParentDir
    pure ()
  else
    pure ()

/-- List the directory and delete what the test picks, after the given names.
Without a listing only the given names are deleted. -/
def collectGarbage (garbage : List String) (test : String → Bool) :
    DirM Id Item Seg Unit := do
  let listed ← Eff.attempt listDir
  let found := (listed.toOption.getD []).filter test
  let durable ← Eff.read fileBacked
  deleteFilesBestEffort (garbage ++ found) durable

end Directory

namespace SegmentedStore

variable [DecidableEq Id]

/-- Run a call on the directory. -/
def onDir {α : Type} (p : DirM Id Item Seg α) : StoreM Id Item Seg F α :=
  Eff.zoom dir (fun s d => { s with dir := d }) p

/-- Change the in-memory data. -/
def onContents (f : Contents Id Item Seg → Contents Id Item Seg) :
    StoreM Id Item Seg F Unit :=
  Eff.update (fun s => { s with toContents := f s.toContents })

/-- The error of a poisoned store. -/
def poisonedError : PersistenceError :=
  .invalidState "store is poisoned after a failed manifest write; reopen to recover"

/-- `check_poisoned`. -/
def checkPoisoned : StoreM Id Item Seg F Unit := do
  if ← Eff.read poisoned then Eff.fail poisonedError else pure ()

/-- The error of a poisoned log writer.  The text is the crate's own, and nothing
looks at it. -/
def walPoisonedError : PersistenceError :=
  .invalidState "record log writer is poisoned"

/-- A call on the log writer (`RecordLogWriter`).  A write, flush or sync that fails
poisons it, and it refuses every later call; a record that is refused before it is
written does not. -/
def onWal (call : Call) (p : String → DirM Id Item Seg Unit) : StoreM Id Item Seg F Unit := do
  if ← Eff.read walPoisoned then
    Eff.fail walPoisonedError
  else
    let s ← Eff.get
    match ← Eff.attempt (onDir (p s.wal)) with
    | .ok () => pure ()
    | .error e => do
        Eff.update (fun t => { t with walPoisoned := s.dir.begins call })
        Eff.fail e

/-- `sync_wal`.  Flush and fsync cover the same records. -/
def syncWal : StoreM Id Item Seg F Unit :=
  onWal .flush Directory.flushLog

/-- `self.wal.append_postcard`. -/
def appendWal (op : Op Id Item) : StoreM Id Item Seg F Unit :=
  onWal .append (Directory.appendLog · op)

/-- `persist_segment`. -/
def persistSegment (id : Nat) (seg : Seg) : StoreM Id Item Seg F Unit := do
  Eff.mapErr (sizeCapContext · ("segment " ++ toString id))
    (onDir (Directory.writeCheckpoint (segPath id) 0 (.segment seg)))
  Eff.update (fun s => { s with persistedIds := s.persistedIds.insert id })

/-- Persist segments one after the other. -/
def persistAll : List (Nat × Seg) → StoreM Id Item Seg F Unit
  | [] => pure ()
  | (id, seg) :: rest => do
      persistSegment id seg
      persistAll rest

/-- The segments whose file is not yet written. -/
def toWrite (s : SegmentedStore Id Item Seg F) : List (Nat × Seg) :=
  s.sealed.filter (fun p => !s.persistedIds.contains p.1)

/-- `republish`. -/
def republish : StoreM Id Item Seg F Unit :=
  Eff.update (fun s => { s with published := s.toPubState })

/-- Write the manifest of the next epoch.  When that fails the store is
poisoned, since the new manifest may be visible all the same. -/
def writeManifest : StoreM Id Item Seg F Unit := do
  onContents Contents.retainSuperseded
  let s ← Eff.get
  let written ← Eff.attempt
    (onDir (Directory.writeCheckpoint MANIFEST_PATH (s.epoch + 1) (.manifest s.manifest)))
  match written with
  | .ok () => pure ()
  | .error e => do
      Eff.update (fun s => { s with poisoned := true })
      Eff.fail (sizeCapContext e "manifest (segment ids + tombstones)")

/-- Start the next WAL generation, with a new log writer. -/
def rotateWal : StoreM Id Item Seg F Unit :=
  Eff.update (fun s =>
    { s with wal := walPath (s.epoch + 1), walPoisoned := false, epoch := s.epoch + 1 })

/-- `gc_orphan_segments`. -/
def gcOrphanSegments (keep : List Nat) (garbage : List String) :
    StoreM Id Item Seg F Unit := do
  Eff.update (fun s => { s with persistedIds := s.persistedIds.filter (keep.contains ·) })
  onDir (Directory.collectGarbage garbage (isOrphan keep))

variable (st : Store Id Item Seg)

/-- `checkpoint`: segments, manifest, new WAL generation, garbage, readers. -/
def checkpoint : StoreM Id Item Seg F Unit := do
  checkPoisoned
  onContents (Contents.flushBuffer st)
  let s ← Eff.get
  persistAll s.toWrite
  writeManifest
  rotateWal
  gcOrphanSegments s.segmentIds [walPath s.epoch]
  republish

/-- The second half of `merge_group`.  The merged segment is written before
anything else in memory changes; its id stays allocated when that fails. -/
def replaceGroup (indices : List Nat) (merged : Seg) : StoreM Id Item Seg F Unit := do
  let s ← Eff.get
  if 0 < st.segmentLen merged then
    onContents Contents.allocId
    persistSegment s.nextSegId merged
    onContents (fun c => c.installMerged st indices merged (some s.nextSegId))
  else
    onContents (fun c => c.installMerged st indices merged none)

/-- `merge_group`. -/
def mergeGroup (indices : List Nat) : StoreM Id Item Seg F Nat := do
  let s ← Eff.get
  let merged := s.mergedSegment st indices
  replaceGroup st indices merged
  pure (st.segmentLen merged)

/-- The statistics of a call that looks at the segment count last. -/
def withSegmentsAfter (stats : CompactionStats) : StoreM Id Item Seg F CompactionStats := do
  let s ← Eff.get
  pure { stats with segmentsAfter := s.segments.length }

/-- The merge of `compact`, if there is something to merge, and what it forgets
afterwards. -/
def mergeEverything : StoreM Id Item Seg F CompactionStats := do
  let s ← Eff.get
  let stats : CompactionStats := { segmentsBefore := s.segments.length }
  if s.needsCompact then
    let n ← mergeGroup st (List.range s.segments.length)
    onContents Contents.purge
    pure { stats with itemsMerged := n, merges := 1 }
  else
    onContents Contents.purge
    pure stats

/-- `compact` up to its checkpoint. -/
def compactMerging : StoreM Id Item Seg F CompactionStats := do
  onContents (Contents.flushBuffer st)
  mergeEverything st

/-- `compact`. -/
def compact : StoreM Id Item Seg F CompactionStats := do
  let stats ← compactMerging st
  checkpoint st
  withSegmentsAfter stats

variable [F64 F]

/-- The loop of `compact_tiers`.  Every round removes a segment, so a fuel of as
many rounds as there are segments is never used up. -/
def tierLoop : Nat → CompactionStats → StoreM Id Item Seg F CompactionStats
  | 0, stats => pure stats
  | fuel + 1, stats => do
      let s ← Eff.get
      match s.nextMergeGroup st s.opts.tiering s.opts.flushThreshold with
      | none => pure stats
      | some group => do
          let n ← mergeGroup st group
          tierLoop fuel { stats with
            itemsMerged := stats.itemsMerged + n
            merges := stats.merges + 1 }

/-- The end of a partial compaction: a checkpoint if something merged. -/
def finishCompaction (stats : CompactionStats) : StoreM Id Item Seg F CompactionStats := do
  if 0 < stats.merges then
    checkpoint st
    withSegmentsAfter stats
  else
    withSegmentsAfter stats

/-- `compact_tiers` up to its checkpoint. -/
def tierMerging : StoreM Id Item Seg F CompactionStats := do
  onContents (Contents.flushBuffer st)
  let s ← Eff.get
  tierLoop st s.segments.length { segmentsBefore := s.segments.length }

/-- `compact_tiers`. -/
def compactTiers : StoreM Id Item Seg F CompactionStats := do
  let stats ← tierMerging st
  finishCompaction st stats

/-- The loop of `force_merge_to`, with fuel as in `tierLoop`. -/
def forceLoop (maxSegments : Nat) : Nat → CompactionStats →
    StoreM Id Item Seg F CompactionStats
  | 0, stats => pure stats
  | fuel + 1, stats => do
      let s ← Eff.get
      if maxSegments < s.segments.length then
        let n ← mergeGroup st (s.smallestGroup st s.opts.tiering maxSegments)
        forceLoop maxSegments fuel { stats with
          itemsMerged := stats.itemsMerged + n
          merges := stats.merges + 1 }
      else
        pure stats

/-- `force_merge_to` up to its checkpoint, for two segments or more. -/
def forceMerging (maxSegments : Nat) : StoreM Id Item Seg F CompactionStats := do
  onContents (Contents.flushBuffer st)
  let s ← Eff.get
  forceLoop st maxSegments s.segments.length { segmentsBefore := s.segments.length }

/-- `force_merge_to`. -/
def forceMergeTo (maxSegments : Nat) : StoreM Id Item Seg F CompactionStats := do
  if maxSegments ≤ 1 then
    compact st
  else
    let stats ← forceMerging st maxSegments
    finishCompaction st stats

/-- `reclaim_tombstones` up to its checkpoint. -/
def reclaimMerging (minLiveRatio : F) : StoreM Id Item Seg F CompactionStats := do
  onContents (Contents.flushBuffer st)
  let s ← Eff.get
  let stats : CompactionStats := { segmentsBefore := s.segments.length }
  match s.reclaimTargets st minLiveRatio s.sealed.zipIdx with
  | none => pure stats
  | some [] => pure stats
  | some (target :: targets) => do
      let n ← mergeGroup st (target :: targets)
      pure { stats with itemsMerged := n, merges := 1 }

/-- `reclaim_tombstones`.  It returns early when nothing was merged. -/
def reclaimTombstones (minLiveRatio : F) : StoreM Id Item Seg F CompactionStats := do
  let stats ← reclaimMerging st minLiveRatio
  finishCompaction st stats

/-- `has_eligible_tier`. -/
def hasEligibleTier (s : SegmentedStore Id Item Seg F) : Bool :=
  (s.nextMergeGroup st s.opts.tiering s.opts.flushThreshold).isSome

/-- The end of a write: seal a full buffer, then compact if that is due, after
whatever has to happen first. -/
def sealAndCompact (beforeCompact : StoreM Id Item Seg F Unit) : StoreM Id Item Seg F Unit := do
  let s ← Eff.get
  if s.opts.flushThreshold ≤ s.buffer.length then
    onContents (Contents.flushBuffer st)
    let s ← Eff.get
    if s.opts.autoCompact && s.hasEligibleTier st then
      beforeCompact
      let _ ← compactTiers st
      pure ()
    else
      pure ()
  else
    pure ()

/-- `add`. -/
def add (id : Id) (item : Item) : StoreM Id Item Seg F Unit := do
  checkPoisoned
  appendWal (.add id item)
  syncWal
  onContents (fun c => c.apply (.add id item))
  sealAndCompact st (pure ())

/-- One round of `extend`.  The sealed batch is made durable before a merge
rewrites it. -/
def extendItem (id : Id) (item : Item) : StoreM Id Item Seg F Unit := do
  appendWal (.add id item)
  onContents (fun c => c.apply (.add id item))
  sealAndCompact st syncWal

/-- The loop of `extend`. -/
def extendItems : List (Id × Item) → StoreM Id Item Seg F Unit
  | [] => pure ()
  | (id, item) :: rest => do
      extendItem st id item
      extendItems rest

/-- `extend`. -/
def extend (items : List (Id × Item)) : StoreM Id Item Seg F Unit := do
  checkPoisoned
  extendItems st items
  if items.isEmpty then pure () else syncWal

/-- `delete`. -/
def delete (id : Id) : StoreM Id Item Seg F Unit := do
  checkPoisoned
  appendWal (.delete id)
  syncWal
  onContents (fun c => c.apply (.delete id))

end SegmentedStore

end Segstore
