import Segstore.Kernel.Effect
import Segstore.Model.Basic
import Segstore.Model.FileNames

/-!
# The directory and what durability writes into it

`durability::Directory` is a map from names to files.  The crate's checkpoint
files and record logs are not part of this repository; they are modelled by
the values written into them.  A checkpoint file holds its header field
`last_applied_id` and a payload, a record log holds its records and how many
of them a successful flush or sync covers.

The environment decides the fate of every call on the directory: it is carried
out, it fails with or without having taken effect, or the process stops in it.
A payload that the crate's size cap or encoder refuses is a call that fails before
it begins.  A failed or interrupted atomic write leaves the old file or the new
one, and possibly its temporary file.  `past` records every earlier content of
the directory, which is what another process could have seen.
-/

namespace Segstore

/-- Manifest extension (`ManifestExt`). -/
structure ManifestExt (Id : Type) where
  version : Nat
  superseded : List (Nat × List Id)

/-- The checkpoint manifest.  Without `ext` it has the original layout
(`Manifest`), with it the current one (`ManifestV2`). -/
structure Manifest (Id : Type) where
  nextSegId : Nat
  segmentIds : List Nat
  tombstones : List Id
  ext : Option (ManifestExt Id)

/-- The value serialized in a checkpoint file. -/
inductive Payload (Id Seg : Type)
  | manifest (m : Manifest Id)
  | segment (seg : Seg)

/-- A record log. -/
structure RecordLog (Id Item : Type) where
  records : List (Op Id Item)
  synced : Nat

namespace RecordLog

variable {Id Item : Type}

/-- The log that does not exist yet. -/
def empty : RecordLog Id Item where
  records := []
  synced := 0

/-- The log after one more record. -/
def append (log : RecordLog Id Item) (op : Op Id Item) : RecordLog Id Item :=
  { log with records := log.records ++ [op] }

/-- The log once a flush covers all of it. -/
def flushed (log : RecordLog Id Item) : RecordLog Id Item :=
  { log with synced := log.records.length }

/-- What a new process may find of the log: records that no flush or sync covers
may be gone from its end. -/
def settled (keep : Nat) (log : RecordLog Id Item) : RecordLog Id Item :=
  { log with records := log.records.take (max log.synced keep) }

theorem settled_empty (keep : Nat) : (empty : RecordLog Id Item).settled keep = empty := by
  rw [settled, empty, List.take_nil]

end RecordLog

/-- The content of a file. -/
inductive File (Id Item Seg : Type)
  | checkpoint (lastAppliedId : Nat) (payload : Payload Id Seg)
  | log (log : RecordLog Id Item)
  | raw (bytes : List UInt8)

/-- The content of a directory. -/
abbrev Files (Id Item Seg : Type) := FinMap String (File Id Item Seg)

/-- The kinds of call on a directory. -/
inductive Call
  | read
  | list
  | write
  | delete
  | append
  | flush
  | syncDir
  | lock
deriving DecidableEq, Repr

/-- How much of an unsuccessful change took place.  A call that is refused before it
begins leaves `nothing`. -/
inductive Landed
  | nothing
  | temporary
  | everything
deriving DecidableEq, Repr

/-- What the environment does to one call. -/
inductive Fate
  | done
  | failed (e : PersistenceError) (landed : Landed)
  | stopped (landed : Landed)
deriving DecidableEq, Repr

/-- A directory, with the fates of the calls to come.  When the list is used
up, every further call is carried out. -/
structure Directory (Id Item Seg : Type) where
  files : Files Id Item Seg
  past : List (Files Id Item Seg)
  fates : List (Call → Fate)
  fileBacked : Bool

/-- Calls on a directory. -/
abbrev DirM (Id Item Seg : Type) :=
  Eff PersistenceError (Directory Id Item Seg)

namespace Directory

variable {Id Item Seg α : Type}

/-- The empty directory. -/
def empty (fileBacked : Bool) : Directory Id Item Seg where
  files := ∅
  past := []
  fates := []
  fileBacked := fileBacked

/-- Everything the directory has held, newest first. -/
def states (d : Directory Id Item Seg) : List (Files Id Item Seg) :=
  d.files :: d.past

/-- The fate of the next call. -/
def nextFate (d : Directory Id Item Seg) (call : Call) : Fate :=
  match d.fates with
  | [] => .done
  | fate :: _ => fate call

/-- The next call is not refused before it begins. -/
def begins (d : Directory Id Item Seg) (call : Call) : Bool :=
  match d.nextFate call with
  | .failed _ .nothing => false
  | _ => true

/-- The directory after one call that changed the content to `files`. -/
def become (d : Directory Id Item Seg) (files : Files Id Item Seg) :
    Directory Id Item Seg :=
  { d with files := files, past := d.files :: d.past, fates := d.fates.tail }

/-- What is visible of a change that was not carried out. -/
def landing (torn whole : Files Id Item Seg → Files Id Item Seg)
    (files : Files Id Item Seg) : Landed → Files Id Item Seg
  | .nothing => files
  | .temporary => torn files
  | .everything => whole files

/-- One changing call.  `torn` is the change when only a temporary file was
written, `whole` the full change. -/
def perform (call : Call) (torn whole : Files Id Item Seg → Files Id Item Seg) :
    DirM Id Item Seg Unit := fun d =>
  match d.nextFate call with
  | .done => (.ok (), d.become (whole d.files))
  | .failed e landed => (.err e, d.become (landing torn whole d.files landed))
  | .stopped landed => (.crash, d.become (landing torn whole d.files landed))

/-- The error of a call that could not read.  Every other error is found in what
was read. -/
def readError : PersistenceError → PersistenceError
  | .io msg => .io msg
  | _ => .io "read failed"

/-- One reading call. -/
def observe (call : Call) (f : Files Id Item Seg → Except PersistenceError α) :
    DirM Id Item Seg α := fun d =>
  match d.nextFate call with
  | .done =>
      match f d.files with
      | .ok a => (.ok a, { d with fates := d.fates.tail })
      | .error e => (.err e, { d with fates := d.fates.tail })
  | .failed e _ => (.err (readError e), { d with fates := d.fates.tail })
  | .stopped _ => (.crash, { d with fates := d.fates.tail })

/-- `Directory::exists`, which cannot fail. -/
def «exists» (name : String) (d : Directory Id Item Seg) : Bool :=
  (d.files.lookup name).isSome

/-- `Directory::atomic_write`. -/
def atomicWrite (name : String) (file : File Id Item Seg) : DirM Id Item Seg Unit :=
  perform .write
    (fun files => files.insert (tmpPath name) (.raw []))
    (fun files => (files.erase (tmpPath name)).insert name file)

/-- `Directory::delete`. -/
def delete (name : String) : DirM Id Item Seg Unit :=
  perform .delete id (fun files => files.erase name)

/-- `Directory::list_dir("")`. -/
def listDir : DirM Id Item Seg (List String) :=
  observe .list (fun files => .ok files.keys)

/-- `Directory::durable_sync_parent_dir`, which changes no content. -/
def syncParentDir : DirM Id Item Seg Unit :=
  perform .syncDir id id

/-- `CheckpointFile::write_postcard` and `write_postcard_durable`. -/
def writeCheckpoint (name : String) (lastAppliedId : Nat) (payload : Payload Id Seg) :
    DirM Id Item Seg Unit :=
  atomicWrite name (.checkpoint lastAppliedId payload)

/-- Open a checkpoint file: its header field and its payload. -/
def readCheckpoint (name : String) : DirM Id Item Seg (Nat × Payload Id Seg) :=
  observe .read (fun files =>
    match files.lookup name with
    | some (.checkpoint lastAppliedId payload) => .ok (lastAppliedId, payload)
    | some _ => .error (.format "invalid checkpoint magic")
    | none => .error (.notFound name))

/-- `CheckpointFile::read_postcard` at the type of segments. -/
def readSegmentFile (name : String) : DirM Id Item Seg Seg := do
  match ← readCheckpoint name with
  | (_, .segment seg) => pure seg
  | (_, .manifest _) => Eff.fail (.decode name)

/-- The log in a file, if it is one. -/
def logOf (files : Files Id Item Seg) (name : String) : RecordLog Id Item :=
  match files.lookup name with
  | some (.log log) => log
  | _ => .empty

/-- `RecordLogReader::read_all_postcard` in best-effort mode. -/
def readLog (name : String) : DirM Id Item Seg (List (Op Id Item)) :=
  observe .read (fun files =>
    match files.lookup name with
    | some (.log log) => .ok log.records
    | some _ => .error (.format "invalid record log")
    | none => .error (.notFound name))

/-- `RecordLogWriter::append_postcard`.  The first append creates the file. -/
def appendLog (name : String) (op : Op Id Item) : DirM Id Item Seg Unit :=
  perform .append id (fun files => files.insert name (.log ((logOf files name).append op)))

/-- `RecordLogWriter::flush` and `flush_and_sync`.  Without an append there is
no file yet and nothing to do. -/
def flushLog (name : String) : DirM Id Item Seg Unit :=
  perform .flush id (fun files =>
    match files.lookup name with
    | some (.log log) => files.insert name (.log log.flushed)
    | _ => files)

/-- What a file may look like to the next process. -/
def settleFile (keep : Nat) : File Id Item Seg → File Id Item Seg
  | .log log => .log (log.settled keep)
  | file => file

/-- The directory as a new process finds it, with the fates of its calls. -/
def settle (keep : Nat) (fates : List (Call → Fate)) (d : Directory Id Item Seg) :
    Directory Id Item Seg :=
  { d with
    files := d.files.mapValues (settleFile keep)
    past := d.files :: d.past
    fates := fates }

end Directory

end Segstore
