import Mathlib.Data.List.Destutter
import Segstore.Kernel.BinarySearch
import Segstore.Model.Store
import Segstore.Sidecar.Envelope

/-!
# Sidecars and their cache

`src/sidecar.rs`.  The consumer's codec is a parameter, and so is the order in
which a hash map is iterated.  A call on the cache changes the entries under a
lock and works on files after the lock is released; `get_or_build` holds it
throughout.
-/

namespace Segstore

/-! ## Keys -/

/-- `sort_unstable` and `dedup` leave an increasing list. -/
theorem increasing_destutter {Id : Type} [LinearOrder Id] (ids : List Id) :
    ((ids.insertionSort (· ≤ ·)).destutter (· ≠ ·)).Pairwise (· < ·) := by
  have hsorted := (List.pairwise_insertionSort (· ≤ ·) ids).sublist
    (List.destutter_sublist (· ≠ ·) (ids.insertionSort (· ≤ ·)))
  have hapart := List.isChain_destutter (· ≠ ·) (ids.insertionSort (· ≤ ·))
  rw [← List.isChain_iff_pairwise, List.isChain_iff_getElem] at hsorted ⊢
  rw [List.isChain_iff_getElem] at hapart
  exact fun i hi => lt_of_le_of_ne (hsorted i hi) (hapart i hi)

/-- `dedup` loses no value. -/
theorem mem_destutter_ne {α : Type} [DecidableEq α] {l : List α} {a : α} :
    a ∈ l.destutter (· ≠ ·) ↔ a ∈ l := by
  refine ⟨fun h => (List.destutter_sublist _ l).subset h, ?_⟩
  cases l with
  | nil => exact id
  | cons b l =>
      rw [List.destutter]
      induction l generalizing b with
      | nil => exact id
      | cons c l ih =>
          intro h
          by_cases hbc : b = c
          · subst hbc
            rw [List.destutter'_cons_neg (R := (· ≠ ·)) l (not_not.mpr rfl)]
            exact ih b (by simpa using h)
          · rw [List.destutter'_cons_pos (R := (· ≠ ·)) l hbc]
            rcases List.mem_cons.mp h with rfl | h
            · exact List.mem_cons_self
            · exact List.mem_cons_of_mem _ (ih c h)

/-- `LiveIds`: sorted, without duplicates. -/
structure LiveIds (Id : Type) [LinearOrder Id] where
  ids : List Id
  increasing : ids.Pairwise (· < ·)
deriving DecidableEq

namespace LiveIds

variable {Id : Type} [LinearOrder Id]

/-- `LiveIds::new`. -/
def new (ids : List Id) : LiveIds Id where
  ids := (ids.insertionSort (· ≤ ·)).destutter (· ≠ ·)
  increasing := increasing_destutter ids

@[simp] theorem mem_new {ids : List Id} {id : Id} : id ∈ (new ids).ids ↔ id ∈ ids :=
  mem_destutter_ne.trans (List.mem_insertionSort _)

theorem mem_new_filter {ids : List Id} {live : Id → Bool} {id : Id} :
    id ∈ (new (ids.filter live)).ids ↔ id ∈ ids ∧ live id = true :=
  mem_new.trans List.mem_filter

/-- Live ids are known by their members. -/
theorem eq_of_mem_iff {live live' : LiveIds Id} (h : ∀ id, id ∈ live.ids ↔ id ∈ live'.ids) :
    live = live' := by
  obtain ⟨ids, hids⟩ := live
  obtain ⟨ids', hids'⟩ := live'
  obtain rfl : ids = ids' := hids.eq_of_mem_iff hids' h
  rfl

/-- What is built from two lists is equal when they have the same members. -/
theorem new_eq_new_iff {ids ids' : List Id} :
    new ids = new ids' ↔ ∀ id, id ∈ ids ↔ id ∈ ids' := by
  constructor
  · intro h id
    rw [← mem_new, h, mem_new]
  · exact fun h => eq_of_mem_iff fun id => mem_new.trans ((h id).trans mem_new.symm)

/-- `LiveIds::contains`. -/
def contains (live : LiveIds Id) (id : Id) : Bool :=
  (binarySearch live.ids id).isSome

theorem contains_iff {live : LiveIds Id} {id : Id} :
    live.contains id = true ↔ id ∈ live.ids :=
  binarySearch_isSome (live.increasing.imp le_of_lt) id

end LiveIds

/-- `SidecarKey`. -/
structure SidecarKey (Id : Type) [LinearOrder Id] where
  segmentId : UInt64
  liveIds : LiveIds Id
deriving DecidableEq

/-- A consumer's sidecar format and acceptance rule (the trait `SidecarCodec`).
`recipe` is the bytes of the recipe identifier. -/
structure SidecarCodec (Id Index : Type) [LinearOrder Id] where
  magic : Vector UInt8 8
  version : UInt32
  kind : String
  recipe : List UInt8
  encode : Index → Option (List UInt8)
  decode : List UInt8 → Option Index
  accepts : Index → LiveIds Id → Bool

/-! ## Names -/

/-- `validate_index_kind`. -/
def validateIndexKind (kind : String) : Except PersistenceError Unit :=
  if kind.toList = [] then
    .error (.invalidConfig "index sidecar kind must be non-empty")
  else if !kind.toList.all isKindChar then
    .error (.invalidConfig ("index sidecar kind must contain only ASCII letters, digits, " ++
      "'_' or '-': " ++ kind.quote))
  else
    .ok ()

/-- `index_sidecar_name`, which is also `try_index_name` of a writer. -/
def indexSidecarName (id : UInt64) (kind : String) : Except PersistenceError String :=
  match validateIndexKind kind with
  | .error e => .error e
  | .ok () => .ok (IDX_PREFIX ++ toString id.toNat ++ "." ++ kind)

/-- How a host names sidecars (`try_sidecar_name`). -/
abbrev SidecarHost := UInt64 → String → Except PersistenceError String

/-! ## Files -/

namespace Directory

variable {Id Item Seg : Type}

/-- `read_sidecar`. -/
def readSidecar (name : String) : DirM Id Item Seg (Option (List UInt8)) := do
  if ← Eff.read («exists» name) then
    let bytes ← observe .read (fun files =>
      match files.lookup name with
      | some (.raw bytes) => .ok bytes
      | some _ => .error (.format "not a sidecar")
      | none => .error (.notFound name))
    pure (some bytes)
  else
    pure none

/-- `write_sidecar`. -/
def writeSidecar (name : String) (bytes : List UInt8) : DirM Id Item Seg Unit :=
  atomicWrite name (.raw bytes)

/-- `delete_sidecar`. -/
def deleteSidecar (name : String) : DirM Id Item Seg Unit := do
  if ← Eff.read («exists» name) then delete name else pure ()

end Directory

namespace SidecarCodec

variable {Id Index : Type} [LinearOrder Id] (codec : SidecarCodec Id Index)
variable (crc32 : List UInt8 → UInt32)

/-- The tags of the envelopes for a segment. -/
def tags (segmentId : UInt64) : SidecarTags where
  magic := codec.magic
  version := codec.version
  segmentId := segmentId
  recipe := codec.recipe

/-- The index in the bytes of a sidecar, if it may serve the key. -/
def admitted (key : SidecarKey Id) (bytes : List UInt8) : Option Index :=
  match (SidecarEnvelope.decode crc32 (codec.tags key.segmentId) bytes).result
      (SidecarEnvelope.decode_ne_none crc32 _ bytes) with
  | .ok payload => (codec.decode payload).filter (fun index => codec.accepts index key.liveIds)
  | .error _ => none

/-- `encode_envelope`. -/
def encodeEnvelope (key : SidecarKey Id) (index : Index) :
    Except PersistenceError (List UInt8) :=
  match codec.encode index with
  | none => .error (.invalidConfig ("sidecar codec " ++ codec.kind.quote ++
      " could not encode segment " ++ toString key.segmentId))
  | some payload =>
      (SidecarEnvelope.encode crc32 (codec.tags key.segmentId) payload).result
        (SidecarEnvelope.encode_ne_none crc32 _ payload)

variable {Item Seg : Type} (host : SidecarHost)

/-- `load`. -/
def load (key : SidecarKey Id) : DirM Id Item Seg (Option Index) :=
  match host key.segmentId codec.kind with
  | .error _ => pure none
  | .ok name => do
      match ← Eff.attempt (Directory.readSidecar name) with
      | .ok (some bytes) => pure (codec.admitted crc32 key bytes)
      | _ => pure none

/-- Write the sidecar of one entry. -/
def writeEntry (key : SidecarKey Id) (index : Index) : DirM Id Item Seg Unit := do
  let bytes ← Eff.ofExcept (codec.encodeEnvelope crc32 key index)
  let name ← Eff.ofExcept (host key.segmentId codec.kind)
  Directory.writeSidecar name bytes

/-- Write the sidecars that are absent.  Tells how many were written. -/
def writeMissing : List (SidecarKey Id × Index) → DirM Id Item Seg Nat
  | [] => pure 0
  | (key, index) :: rest => do
      let name ← Eff.ofExcept (host key.segmentId codec.kind)
      if ← Eff.read (Directory.exists name) then
        writeMissing rest
      else
        let bytes ← Eff.ofExcept (codec.encodeEnvelope crc32 key index)
        Directory.writeSidecar name bytes
        let written ← writeMissing rest
        pure (written + 1)

/-- Delete the sidecar of a segment. -/
def dropSidecar (segmentId : UInt64) : DirM Id Item Seg Unit := do
  let name ← Eff.ofExcept (host segmentId codec.kind)
  Directory.deleteSidecar name

end SidecarCodec

/-! ## The cache -/

/-- `EntryMap`. -/
abbrev EntryMap (Id Index : Type) [LinearOrder Id] := FinMap (SidecarKey Id) Index

namespace EntryMap

variable {Id Index : Type} [LinearOrder Id]

/-- Drop the entries of one segment. -/
def dropSegment (segmentId : UInt64) (entries : EntryMap Id Index) : EntryMap Id Index :=
  entries.retain (fun key => key.segmentId ≠ segmentId)

/-- `SidecarCache::insert`. -/
def put (key : SidecarKey Id) (index : Index) (entries : EntryMap Id Index) :
    EntryMap Id Index :=
  (entries.dropSegment key.segmentId).insert key index

/-- `SidecarCache::retain`. -/
def retainSegments (segmentIds : List UInt64) (entries : EntryMap Id Index) :
    EntryMap Id Index :=
  entries.retain (fun key => segmentIds.contains key.segmentId)

/-- The entries that `persist_missing` looks at, in the order of their ranks. -/
def pending (segmentIds : List UInt64) (rank : SidecarKey Id → Nat)
    (entries : EntryMap Id Index) : List (SidecarKey Id × Index) :=
  (entries.pairs.filter (fun p => segmentIds.contains p.1.segmentId)).insertionSort
    (fun p q => rank p.1 ≤ rank q.1)

end EntryMap

/-- What `get_or_build` returns, and where it comes from. -/
inductive Got (Index : Type)
  | hit (index : Index)
  | loaded (index : Index)
  | built (index : Index)
  | nothing

/-- The result. -/
def Got.index? {Index : Type} : Got Index → Option Index
  | .hit index => some index
  | .loaded index => some index
  | .built index => some index
  | .nothing => none

/-- The entries of a cache, and the directory of its host. -/
structure Cached (Id Item Seg Index : Type) [LinearOrder Id] where
  entries : EntryMap Id Index
  dir : Directory Id Item Seg

/-- Calls on a cache. -/
abbrev CacheM (Id Item Seg Index : Type) [LinearOrder Id] :=
  Eff PersistenceError (Cached Id Item Seg Index)

namespace SidecarCache

variable {Id Item Seg Index : Type} [LinearOrder Id]

/-- Work on files. -/
def onFiles {α : Type} (p : DirM Id Item Seg α) : CacheM Id Item Seg Index α :=
  Eff.zoom Cached.dir (fun c d => { c with dir := d }) p

/-- Change the entries. -/
def onEntries (f : EntryMap Id Index → EntryMap Id Index) : CacheM Id Item Seg Index Unit :=
  Eff.update (fun c => { c with entries := f c.entries })

variable (codec : SidecarCodec Id Index) (crc32 : List UInt8 → UInt32) (host : SidecarHost)

/-- Call `build`, which may change what it captures. -/
def callBuild {τ : Type} (build : τ → Option Index × τ) :
    Eff PersistenceError (Cached Id Item Seg Index × τ) (Option Index) :=
  fun s => (.ok (build s.2).1, (s.1, (build s.2).2))

/-- A call on the cache, which does not touch what `build` captures. -/
def onCache {τ α : Type} (p : CacheM Id Item Seg Index α) :
    Eff PersistenceError (Cached Id Item Seg Index × τ) α :=
  Eff.zoom Prod.fst (fun s c => (c, s.2)) p

/-- `get_or_build`, whose `build` may change what it captures. -/
def getOrBuildOnce {τ : Type} (key : SidecarKey Id) (build : τ → Option Index × τ) :
    Eff PersistenceError (Cached Id Item Seg Index × τ) (Got Index) := do
  match (← onCache (Eff.read Cached.entries)).lookup key with
  | some hit => pure (.hit hit)
  | none =>
      match ← onCache (onFiles (codec.load crc32 host key)) with
      | some index => do
          onCache (onEntries (EntryMap.put key index))
          pure (.loaded index)
      | none =>
          match ← callBuild build with
          | none => pure .nothing
          | some index => do
              onCache (onEntries (EntryMap.put key index))
              pure (.built index)

/-- `get_or_build` with a `build` that changes nothing. -/
def getOrBuild (key : SidecarKey Id) (build : Unit → Option Index) :
    CacheM Id Item Seg Index (Got Index) :=
  Eff.zoom (fun c => (c, ())) (fun _ s => s.1)
    (getOrBuildOnce codec crc32 host key fun _ => (build (), ()))

/-- `persist`. -/
def persist (key : SidecarKey Id) : CacheM Id Item Seg Index Bool := do
  match (← Eff.read Cached.entries).lookup key with
  | none => pure false
  | some index => do
      onFiles (codec.writeEntry crc32 host key index)
      pure true

/-- `persist_missing`. -/
def persistMissing (segmentIds : List UInt64) (rank : SidecarKey Id → Nat) :
    CacheM Id Item Seg Index Nat := do
  let entries ← Eff.read Cached.entries
  onFiles (codec.writeMissing crc32 host (entries.pending segmentIds rank))

/-- `invalidate`. -/
def invalidate (segmentId : UInt64) : CacheM Id Item Seg Index Unit := do
  onEntries (EntryMap.dropSegment segmentId)
  onFiles (codec.dropSidecar host segmentId)

/-- `retain`. -/
def retain (segmentIds : List UInt64) : CacheM Id Item Seg Index Unit :=
  onEntries (EntryMap.retainSegments segmentIds)

end SidecarCache

end Segstore
