import Mathlib.Algebra.Ring.Nat
import Segstore.Model.Contents

/-!
# What a writer reports about itself

The read-only numbers of `SegmentedStore`: how much is stored, in how many segments,
and how much of it is dead.  `f64::INFINITY` is a parameter.
-/

namespace Segstore

variable {Id Item Seg F : Type}

namespace PubState

/-- `is_live`. -/
def isLive [DecidableEq Id] (v : PubState Id Seg) (id : Id) : Bool :=
  !v.tombstones.contains id

/-- `segment_count`. -/
def segmentCount (v : PubState Id Seg) : Nat :=
  v.segments.length

/-- `tombstone_count`. -/
def tombstoneCount [DecidableEq Id] (v : PubState Id Seg) : Nat :=
  v.tombstones.dedup.length

end PubState

namespace Contents

variable (st : Store Id Item Seg)

/-- `segment_sizes`. -/
def segmentSizes (c : Contents Id Item Seg) : List Nat :=
  c.segments.map st.segmentLen

/-- `stored_len`. -/
def storedLen (c : Contents Id Item Seg) : Nat :=
  (c.segmentSizes st).sum + c.buffer.length

variable [DecidableEq Id]

/-- The loop of `space_amplification`: the stored and the live items so far.  `none`
when the store does not count the live items of a segment. -/
def countItems (c : Contents Id Item Seg) : List (Nat × Seg) → Nat → Nat → Option (Nat × Nat)
  | [], stored, live => some (stored, live)
  | (segId, seg) :: rest, stored, live =>
      match st.liveLen seg (c.isLiveIn segId) with
      | none => none
      | some l => countItems c rest (stored + st.segmentLen seg) (live + l)

/-- `space_amplification`. -/
def spaceAmplification [F64 F] (infinity : F) (c : Contents Id Item Seg) : Option F :=
  match c.countItems st c.sealed 0 0 with
  | none => none
  | some (stored, live) =>
      let stored := stored + c.buffer.length
      let live := live + c.buffer.length
      if live = 0 then
        some (if stored = 0 then F64.ofUsize 1 else infinity)
      else
        some (F64.div (F64.ofUsize stored) (F64.ofUsize live))

end Contents

end Segstore
