import Segstore.Kernel.FiniteMap
import Segstore.Kernel.LastWrite
import Segstore.Kernel.Reader

/-!
# Types of the store

The configuration and payload types of `src/lib.rs`.

Counters and lengths (`u64`, `usize`) are natural numbers.  A store that starts
empty cannot count as far as 2^64.  A manifest of the original layout may carry any
`u64` as its epoch and as its `next_seg_id`; where the code would step beyond 2^64 the
model counts on, and results about such stores bound both.  `f64` is a type
parameter with the operations the code applies to it; no property of these
operations is assumed anywhere, so every result holds for the hardware's
arithmetic as well as for exact arithmetic.

A `HashSet` is a list in which only membership matters, and a `HashMap` is a
finite map in the sense of `Segstore.Kernel.FiniteMap`.
-/

namespace Segstore

/-- The errors of the durability layer. -/
inductive PersistenceError
  | io (msg : String)
  | format (msg : String)
  | invalidConfig (msg : String)
  | invalidState (msg : String)
  | notFound (msg : String)
  | decode (msg : String)
  | crcMismatch (expected actual : UInt32)
  | lockFailed (resource reason : String)
deriving DecidableEq, Repr

/-- The error of `read_exact` at the end of its input. -/
def unexpectedEof : PersistenceError := .io "failed to fill whole buffer"

/-- An open file, and calls on it. -/
abbrev OpenFile := Reader PersistenceError

abbrev ReadM := Eff PersistenceError OpenFile

/-- The floating-point operations of the code. -/
class F64 (F : Type) where
  ofUsize : Nat → F
  ofRatio : Nat → Nat → F
  add : F → F → F
  mul : F → F → F
  div : F → F → F
  lt : F → F → Bool
  totalLe : F → F → Bool

/-- Exact arithmetic. -/
instance : F64 Rat where
  ofUsize n := n
  ofRatio a b := a / b
  add a b := a + b
  mul a b := a * b
  div a b := a / b
  lt a b := decide (a < b)
  totalLe a b := decide (a ≤ b)

/-- How durable each WAL write is before `add` and `delete` return. -/
inductive SyncPolicy
  | flush
  | fsync
deriving DecidableEq, Repr

/-- Size-tiered compaction tuning. -/
structure TierConfig (F : Type) where
  minMerge : Nat
  maxMerge : Nat
  bucketLow : F
  bucketHigh : F
  maxMergedLen : Nat

/-- `TierConfig::default`. -/
def TierConfig.default {F : Type} [F64 F] : TierConfig F where
  minMerge := 4
  maxMerge := 32
  bucketLow := F64.ofRatio 1 2
  bucketHigh := F64.ofRatio 3 2
  maxMergedLen := 10000000

/-- What a compaction did. -/
structure CompactionStats where
  merges : Nat := 0
  segmentsBefore : Nat := 0
  segmentsAfter : Nat := 0
  itemsMerged : Nat := 0
deriving DecidableEq, Repr

/-- Options for opening a store. -/
structure Options (F : Type) where
  flushThreshold : Nat
  sync : SyncPolicy
  tiering : TierConfig F
  autoCompact : Bool

/-- `Options::new`. -/
def Options.new {F : Type} [F64 F] (flushThreshold : Nat) : Options F where
  flushThreshold := flushThreshold
  sync := .flush
  tiering := .default
  autoCompact := false

/-- The consumer's payload model (the trait `Store`). -/
structure Store (Id Item Seg : Type) where
  buildSegment : List (Id × Item) → Seg
  mergeSegments : List Seg → (Id → Bool) → Seg
  segmentLen : Seg → Nat
  liveLen : Seg → (Id → Bool) → Option Nat
  itemIds : Seg → Option (List Id)

/-- `DefaultStore`: a segment is the vector of its entries. -/
def defaultStore (Id Item : Type) : Store Id Item (List (Id × Item)) where
  buildSegment batch := batch
  mergeSegments segments live := segments.flatten.filter (fun entry => live entry.1)
  segmentLen segment := segment.length
  liveLen segment live := some (segment.filter (fun entry => live entry.1)).length
  itemIds segment := some (segment.map Prod.fst)

/-- A store over vectors that does not list the ids of a segment: `item_ids` is
the default of the trait. -/
def untrackedStore (Id Item : Type)
    (liveLen : List (Id × Item) → (Id → Bool) → Option Nat) :
    Store Id Item (List (Id × Item)) where
  buildSegment batch := batch
  mergeSegments segments live := segments.flatten.filter (fun entry => live entry.1)
  segmentLen segment := segment.length
  liveLen := liveLen
  itemIds _ := none

/-- One write-ahead-log operation. -/
inductive Op (Id Item : Type)
  | add (id : Id) (item : Item)
  | delete (id : Id)
deriving DecidableEq, Repr

namespace Op

variable {Id Item : Type}

/-- The operation as a write to the map from ids to items. -/
def write : Op Id Item → Write Id Item
  | add id item => .put id item
  | delete id => .remove id

/-- The id an operation is about. -/
def id : Op Id Item → Id
  | add id _ => id
  | delete id => id

@[simp] theorem id_add (i : Id) (item : Item) : (add i item).id = i := rfl

@[simp] theorem id_delete (i : Id) : (delete i : Op Id Item).id = i := rfl

end Op

/-- An operation leaves other ids alone. -/
theorem Op.run_of_ne {Id Item : Type} [DecidableEq Id] {op : Op Id Item} {j : Id}
    (hj : j ≠ op.id) (m : Id → Option Item) : op.write.run m j = m j := by
  rw [Write.run_apply]
  cases op with
  | add id item => exact if_neg hj
  | delete id => exact if_neg hj

/-- The map after a history of operations, oldest first: the purpose of the
store. -/
def history {Id Item : Type} [DecidableEq Id]
    (m : Id → Option Item) (ops : List (Op Id Item)) : Id → Option Item :=
  Write.runAll m (ops.map Op.write)

section History

variable {Id Item : Type} [DecidableEq Id] (m : Id → Option Item)

@[simp] theorem history_nil : history m ([] : List (Op Id Item)) = m := rfl

theorem history_append (ops more : List (Op Id Item)) :
    history m (ops ++ more) = history (history m ops) more := by
  simp [history]

theorem history_concat (ops : List (Op Id Item)) (op : Op Id Item) :
    history m (ops ++ [op]) = op.write.run (history m ops) := by
  rw [history, List.map_append, List.map_singleton, Write.runAll_concat]
  rfl

end History

end Segstore
