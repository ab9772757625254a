import Segstore.Kernel.Positions
import Segstore.Model.Manifest

/-!
# What a writer holds in memory

The data of `SegmentedStore` that operations, sealing and merging work on, and
the parts of `src/lib.rs` that touch nothing else.
-/

namespace Segstore

/-- The in-memory data of a writer. -/
structure Contents (Id Item Seg : Type) extends PubState Id Seg where
  buffer : List (Id × Item)
  bufferIds : List Id
  owners : Option (FinMap Id Nat)
  nextSegId : Nat

/-- `superseded.entry(seg).or_default().insert(id)`. -/
def markSuperseded {Id : Type} [DecidableEq Id] (superseded : FinMap Nat (List Id))
    (seg : Nat) (id : Id) : FinMap Nat (List Id) :=
  superseded.insert seg (((superseded.lookup seg).getD []).insert id)

namespace Contents

variable {Id Item Seg : Type} [DecidableEq Id]

/-- `supersede_sealed_copy`. -/
def supersedeSealedCopy (id : Id) (c : Contents Id Item Seg) : Contents Id Item Seg :=
  match c.owners.bind (fun o => o.lookup id) with
  | some seg =>
      { c with
        owners := c.owners.map (fun o => o.erase id)
        superseded := markSuperseded c.superseded seg id }
  | none => c

/-- `apply`, shared by live writes and WAL replay. -/
def apply (c : Contents Id Item Seg) : Op Id Item → Contents Id Item Seg
  | .add id item =>
      let c := { c with tombstones := c.tombstones.filter (· ≠ id) }
      let c :=
        if c.bufferIds.contains id then
          { c with buffer := c.buffer.filter (fun e => e.1 ≠ id) }
        else
          { c with bufferIds := c.bufferIds.insert id }
      let c := c.supersedeSealedCopy id
      { c with buffer := c.buffer ++ [(id, item)] }
  | .delete id =>
      let c :=
        if c.bufferIds.contains id then
          { c with
            bufferIds := c.bufferIds.filter (· ≠ id)
            buffer := c.buffer.filter (fun e => e.1 ≠ id) }
        else
          c
      let c := c.supersedeSealedCopy id
      { c with tombstones := c.tombstones.insert id }

/-- `alloc_id`: the id is the old `nextSegId`. -/
def allocId (c : Contents Id Item Seg) : Contents Id Item Seg :=
  { c with nextSegId := c.nextSegId + 1 }

variable (st : Store Id Item Seg)

/-- `flush_buffer`. -/
def flushBuffer (c : Contents Id Item Seg) : Contents Id Item Seg :=
  if c.buffer.isEmpty then
    c
  else
    let seg := st.buildSegment c.buffer
    let id := c.nextSegId
    let c := c.allocId
    let owners :=
      if c.segments.isEmpty && (st.itemIds seg).isNone then none else c.owners
    { c with
      owners := owners.map (fun o => o.insertAll (c.buffer.map Prod.fst) id)
      segments := c.segments ++ [seg]
      segmentIds := c.segmentIds ++ [id]
      buffer := []
      bufferIds := [] }

/-- Seal the buffer when it has reached the threshold. -/
def sealFull (flushThreshold : Nat) (c : Contents Id Item Seg) : Contents Id Item Seg :=
  if flushThreshold ≤ c.buffer.length then c.flushBuffer st else c

/-- Replay: the same apply and seal steps as live writes. -/
def replay (flushThreshold : Nat) (c : Contents Id Item Seg) (ops : List (Op Id Item)) :
    Contents Id Item Seg :=
  ops.foldl (fun c op => (c.apply op).sealFull st flushThreshold) c

/-! ## Merging -/

/-- The segment that `merge_group` makes of the segments at `indices`. -/
def mergedSegment (c : Contents Id Item Seg) (indices : List Nat) : Seg :=
  let group := pick c.segmentIds indices
  let segs := pick c.segments indices
  if group.any (fun g => (c.superseded.lookup g).isSome) then
    let filtered := (segs.zip group).map (fun p =>
      st.mergeSegments [p.1] (copyIsLive c.tombstones c.superseded p.2))
    st.mergeSegments filtered (fun _ => true)
  else
    st.mergeSegments segs (fun id => !c.tombstones.contains id)

/-- The second half of `merge_group`: replace the group by its merge result, or
by nothing when that is empty. -/
def installMerged (c : Contents Id Item Seg) (indices : List Nat) (merged : Seg)
    (mergedId : Option Nat) : Contents Id Item Seg :=
  let c := { c with
    superseded := c.superseded.eraseAll (pick c.segmentIds indices)
    segments := dropIndices indices c.segments
    segmentIds := dropIndices indices c.segmentIds }
  match mergedId with
  | none => c
  | some id =>
      { c with
        owners := c.owners.bind (fun o =>
          (st.itemIds merged).map (fun ids => o.insertAll ids id))
        segments := c.segments ++ [merged]
        segmentIds := c.segmentIds ++ [id] }

/-- The memory after a `merge_group` whose segment write succeeded. -/
def merge (c : Contents Id Item Seg) (indices : List Nat) : Contents Id Item Seg :=
  let merged := c.mergedSegment st indices
  if 0 < st.segmentLen merged then
    c.allocId.installMerged st indices merged (some c.nextSegId)
  else
    c.installMerged st indices merged none

/-- What `compact` forgets once every segment went through one merge. -/
def purge (c : Contents Id Item Seg) : Contents Id Item Seg :=
  { c with tombstones := [], superseded := ∅ }

/-- Whether `compact` has segments to merge. -/
def needsCompact (c : Contents Id Item Seg) : Bool :=
  let hasDead := !c.tombstones.isEmpty || !c.superseded.keys.isEmpty
  decide (1 < c.segments.length) || (decide (c.segments.length = 1) && hasDead)

/-! ## Choosing what to merge -/

section Choose

variable {F : Type} [F64 F]

/-- Insert a segment of raw size `raw`, floored size `sz` and position `idx`
into the first bucket whose band holds it, or into a new bucket. -/
def addToBuckets (cfg : TierConfig F) (raw : Nat) (sz : F) (idx : Nat) :
    List (F × List (Nat × Nat)) → List (F × List (Nat × Nat))
  | [] => [(sz, [(raw, idx)])]
  | (avg, members) :: rest =>
      if F64.lt (F64.mul avg cfg.bucketLow) sz && F64.lt sz (F64.mul avg cfg.bucketHigh) then
        let n : F := F64.ofUsize members.length
        let avg := F64.div (F64.add (F64.mul avg n) sz) (F64.add n (F64.ofUsize 1))
        (avg, members ++ [(raw, idx)]) :: rest
      else
        (avg, members) :: addToBuckets cfg raw sz idx rest

/-- The longest affordable run of members, smallest first. -/
def chooseFrom (cfg : TierConfig F) : List (Nat × Nat) → List Nat → Nat → List Nat
  | [], chosen, _ => chosen
  | (raw, idx) :: rest, chosen, total =>
      if cfg.maxMerge ≤ chosen.length then
        chosen
      else if !chosen.isEmpty && decide (cfg.maxMergedLen < total + raw) then
        chosen
      else
        chooseFrom cfg rest (chosen ++ [idx]) (total + raw)

/-- The first bucket with enough members to merge. -/
def firstEligible (cfg : TierConfig F) (minMerge : Nat) :
    List (F × List (Nat × Nat)) → Option (List Nat)
  | [] => none
  | (_, members) :: rest =>
      if members.length < minMerge then
        firstEligible cfg minMerge rest
      else
        let chosen :=
          chooseFrom cfg (members.insertionSort (fun a b => a.1 ≤ b.1)) [] 0
        if minMerge ≤ chosen.length then some chosen else firstEligible cfg minMerge rest

/-- The segments that the cap does not freeze: raw size, floored size, position. -/
def eligible (cfg : TierConfig F) (flushThreshold : Nat) (sizes : List Nat) :
    List (Nat × F × Nat) :=
  (sizes.zipIdx.map (fun p =>
      (p.1, (F64.ofUsize (max p.1 (max flushThreshold 1)) : F), p.2))).filter
    (fun e => decide (e.1 ≤ cfg.maxMergedLen / 2))

/-- The buckets of the eligible segments, by ascending average. -/
def tierBuckets (cfg : TierConfig F) (elig : List (Nat × F × Nat)) :
    List (F × List (Nat × Nat)) :=
  let sorted := elig.insertionSort (fun a b => F64.totalLe a.2.1 b.2.1)
  let buckets := sorted.foldl (fun bs e => addToBuckets cfg e.1 e.2.1 e.2.2 bs) []
  buckets.insertionSort (fun a b => F64.totalLe a.1 b.1)

/-- `next_merge_group`. -/
def nextMergeGroup (cfg : TierConfig F) (flushThreshold : Nat) (c : Contents Id Item Seg) :
    Option (List Nat) :=
  let minMerge := max cfg.minMerge 2
  let elig := eligible cfg flushThreshold (c.segments.map st.segmentLen)
  if elig.length < minMerge then
    none
  else
    firstEligible cfg minMerge (tierBuckets cfg elig)

/-- The group of one round of `force_merge_to`: the smallest segments. -/
def smallestGroup (cfg : TierConfig F) (maxSegments : Nat) (c : Contents Id Item Seg) :
    List Nat :=
  let sizes := c.segments.map st.segmentLen
  let idx := (List.range c.segments.length).insertionSort
    (fun i j => sizes[i]?.getD 0 ≤ sizes[j]?.getD 0)
  let «over» := c.segments.length - maxSegments
  idx.take (min (min («over» + 1) (max cfg.maxMerge 2)) c.segments.length)

/-- The positions `reclaim_tombstones` collects: segments whose live ratio is
too low.  `none` when the store does not count live items. -/
def reclaimTargets (minLiveRatio : F) (c : Contents Id Item Seg) :
    List ((Nat × Seg) × Nat) → Option (List Nat)
  | [] => some []
  | ((segId, seg), i) :: rest =>
      if st.segmentLen seg = 0 then
        reclaimTargets minLiveRatio c rest
      else
        match st.liveLen seg (c.isLiveIn segId) with
        | none => none
        | some live =>
            if F64.lt (F64.ofUsize live)
                (F64.mul minLiveRatio (F64.ofUsize (st.segmentLen seg))) then
              (reclaimTargets minLiveRatio c rest).map (i :: ·)
            else
              reclaimTargets minLiveRatio c rest

end Choose

/-! ## Reading -/

/-- `live_segment_of`. -/
def liveSegmentOf (c : Contents Id Item Seg) (id : Id) : Option Nat :=
  c.owners.bind (fun o => o.lookup id)

/-- The live pairs of a writer over vector segments: the live entries of every
segment and the buffer. -/
def livePairs (c : Contents Id Item (List (Id × Item))) : List (Id × Item) :=
  c.sealed.flatMap (fun s => s.2.filter (fun e => c.isLiveIn s.1 e.1)) ++ c.buffer

/-! ## The manifest of a writer -/

/-- The superseded sets as they are written, by ascending segment id. -/
def supersededRefs (c : Contents Id Item Seg) : List (Nat × List Id) :=
  c.superseded.pairs.insertionSort (fun p q => p.1 ≤ q.1)

/-- `ManifestRef`. -/
def manifest (c : Contents Id Item Seg) : Manifest Id where
  nextSegId := c.nextSegId
  segmentIds := c.segmentIds
  tombstones := c.tombstones
  ext := some { version := MANIFEST_EXT_VERSION, superseded := c.supersededRefs }

/-- `self.superseded.retain(|seg, _| keep.contains(seg))` of a checkpoint. -/
def retainSuperseded (c : Contents Id Item Seg) : Contents Id Item Seg :=
  { c with superseded := c.superseded.retain (fun seg => c.segmentIds.contains seg) }

end Contents

end Segstore
