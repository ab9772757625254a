import Segstore.Model.Run

/-!
# The conformance suite

`src/conformance.rs`: an index built on a store, and the checks that every such
index has to pass.  A check that panics ends with the text of the panic.
`second_writer_is_rejected` is about processes that contend for a lock, and has
its model in `Segstore.Model.Processes`.
-/

namespace Segstore

variable {Id Item Seg F Dir S Doc α : Type}

/-- An updatable index under test.  `drop` is what dropping the index leaves in
its directory. -/
structure ConformanceStore (Dir S Doc F : Type) where
  «open» : Eff PersistenceError Dir S
  drop : S → Dir
  add : UInt32 → Doc → Eff PersistenceError S Unit
  delete : UInt32 → Eff PersistenceError S Unit
  compact : Eff PersistenceError S Unit
  compactTiers : Eff PersistenceError S Unit
  reclaim : F → Eff PersistenceError S Unit
  checkpoint : Eff PersistenceError S Unit
  doc : UInt64 → Doc
  matching : S → Doc → List UInt32

/-- A part of a check.  Its errors are panics. -/
abbrev CheckM (S : Type) := Eff String S

namespace CheckM

/-- `result.expect(what)`. -/
def expect (what : String) (p : Eff PersistenceError S α) : CheckM S α := fun s =>
  match p s with
  | (.ok a, t) => (.ok a, t)
  | (.err _, t) => (.err what, t)
  | (.crash, t) => (.crash, t)

/-- `assert!`. -/
def assert (ok : Bool) (text : String) : CheckM S Unit :=
  if ok then pure () else Eff.fail text

/-- A `for` loop. -/
def forEach (l : List α) (body : α → CheckM S Unit) : CheckM S Unit :=
  match l with
  | [] => pure ()
  | a :: l => do
      body a
      forEach l body

end CheckM

/-- A small deterministic generator. -/
structure XorShift where
  state : UInt64

/-- `XorShift::next`. -/
def XorShift.next (rng : XorShift) : UInt64 × XorShift :=
  let x := rng.state ^^^ (rng.state <<< 13)
  let x := x ^^^ (x >>> 7)
  let x := x ^^^ (x <<< 17)
  (x, ⟨x⟩)

/-- What `random_operations_match_model` keeps between its steps: the index, a
plain map with the document of each live id, and the documents replaced or
deleted. -/
structure Trial (S : Type) where
  store : S
  rng : XorShift
  live : FinMap UInt32 UInt64
  retired : List (UInt32 × UInt64)
  nextDoc : UInt64
  log : List String

namespace Trial

/-- The start of a random test. -/
def start (store : S) (seed : UInt64) : Trial S where
  store := store
  rng := ⟨(seed * 0x9E3779B97F4A7C15) ||| 1⟩
  live := ∅
  retired := []
  nextDoc := seed * 1000000
  log := []

/-- A call on the index. -/
def onStore (p : CheckM S α) : CheckM (Trial S) α :=
  Eff.zoom store (fun t s => { t with store := s }) p

/-- The next random number, reduced. -/
def draw (bound : UInt64) : CheckM (Trial S) UInt64 := do
  let t ← Eff.get
  Eff.update fun t => { t with rng := t.rng.next.2 }
  pure (t.rng.next.1 % bound)

/-- `next_doc += 1`. -/
def countDoc : CheckM (Trial S) UInt64 := do
  let t ← Eff.get
  if t.nextDoc.toNat + 1 < UInt64.size then
    Eff.update fun t => { t with nextDoc := t.nextDoc + 1 }
    pure (t.nextDoc + 1)
  else
    Eff.fail "attempt to add with overflow"

/-- The documents retired once the id is replaced or deleted. -/
def retire (t : Trial S) (id : UInt32) : List (UInt32 × UInt64) :=
  match t.live.lookup id with
  | some old => t.retired ++ [(id, old)]
  | none => t.retired

/-- The text that tells where a random check failed. -/
def context (t : Trial S) (seed : UInt64) (step : Nat) : String :=
  "seed " ++ toString seed ++ ", step " ++ toString step ++ "; ops: " ++
    ", ".intercalate t.log

end Trial

namespace ConformanceStore

variable (t : ConformanceStore Dir S Doc F)

/-- Drop the index and open its directory again. -/
def reopen : CheckM S Unit := fun s =>
  match t.open (t.drop s) with
  | (.ok s', _) => (.ok (), s')
  | (.err _, _) => (.err "reopen", s)
  | (.crash, _) => (.crash, s)

/-- Run a check on a new index. -/
def onNew (memory : Dir) (body : CheckM S Unit) : Outcome String Unit :=
  match t.open memory with
  | (.ok s, _) => (body s).1
  | (.err _, _) => .err "open"
  | (.crash, _) => .crash

/-- `assert_current`. -/
def assertCurrent (id : UInt32) (doc : UInt64) («when» : String) : CheckM S Unit := do
  let s ← Eff.get
  CheckM.assert ((t.matching s (t.doc doc)).contains id)
    ("id " ++ toString id ++ " not found by its current document " ++ toString doc ++ " " ++
      «when»)

/-- `assert_retired`. -/
def assertRetired (id : UInt32) (doc : UInt64) («when» : String) : CheckM S Unit := do
  let s ← Eff.get
  CheckM.assert (!(t.matching s (t.doc doc)).contains id)
    ("id " ++ toString id ++ " still returned for its old document " ++ toString doc ++ " " ++
      «when»)

/-- `re_add_replaces_old_document`. -/
def reAddReplacesOldDocument (memory : Dir) : Outcome String Unit :=
  t.onNew memory do
    CheckM.expect "add" (t.add 7 (t.doc 1))
    CheckM.expect "checkpoint" t.checkpoint
    CheckM.expect "re-add" (t.add 7 (t.doc 2))
    t.assertCurrent 7 2 "after re-add"
    t.assertRetired 7 1 "after re-add"
    CheckM.expect "compact" t.compact
    t.assertRetired 7 1 "after compact"
    t.reopen
    t.assertCurrent 7 2 "after reopen"
    t.assertRetired 7 1 "after reopen"

/-- `delete_hides_document`. -/
def deleteHidesDocument (memory : Dir) : Outcome String Unit :=
  t.onNew memory do
    CheckM.expect "add" (t.add 3 (t.doc 10))
    CheckM.expect "add" (t.add 4 (t.doc 11))
    CheckM.expect "checkpoint" t.checkpoint
    CheckM.expect "delete" (t.delete 3)
    t.assertRetired 3 10 "after delete"
    t.assertCurrent 4 11 "neighbour after delete"
    t.reopen
    t.assertRetired 3 10 "after reopen"

/-- `reopen_without_checkpoint_keeps_writes`. -/
def reopenWithoutCheckpointKeepsWrites (memory : Dir) : Outcome String Unit :=
  t.onNew memory do
    CheckM.forEach [0, 1, 2, 3, 4] fun id =>
      CheckM.expect "add" (t.add id (t.doc (100 + id.toUInt64)))
    t.reopen
    CheckM.forEach [0, 1, 2, 3, 4] fun id =>
      t.assertCurrent id (100 + id.toUInt64) "after reopen"

/-- The operation that a step draws, and its text. -/
def turn [F64 F] (id : UInt32) (roll : UInt64) : CheckM (Trial S) String :=
  if roll ≤ 6 then do
    let doc ← Trial.countDoc
    Trial.onStore (CheckM.expect "add" (t.add id (t.doc doc)))
    Eff.update fun (tr : Trial S) =>
      { tr with live := tr.live.insert id doc, retired := tr.retire id }
    pure ("add(" ++ toString id ++ ", doc " ++ toString doc ++ ")")
  else if roll ≤ 9 then do
    Trial.onStore (CheckM.expect "delete" (t.delete id))
    Eff.update fun (tr : Trial S) =>
      { tr with live := tr.live.erase id, retired := tr.retire id }
    pure ("delete(" ++ toString id ++ ")")
  else if roll = 10 then do
    Trial.onStore (CheckM.expect "checkpoint" t.checkpoint)
    pure "checkpoint"
  else if roll = 11 then do
    Trial.onStore (CheckM.expect "compact" t.compact)
    pure "compact"
  else if roll = 12 then do
    Trial.onStore (CheckM.expect "compact_tiers" t.compactTiers)
    pure "compact_tiers"
  else if roll = 13 then do
    Trial.onStore (CheckM.expect "reclaim" (t.reclaim (F64.ofRatio 1 2)))
    pure "reclaim(0.5)"
  else do
    Trial.onStore t.reopen
    pure "reopen"

/-- The checks after every step.  The map is gone through by ascending id. -/
def agree (seed : UInt64) (step : Nat) : CheckM (Trial S) Unit := do
  let tr ← Eff.get
  CheckM.forEach (tr.live.pairs.insertionSort fun p q => p.1 ≤ q.1) fun p =>
    CheckM.assert ((t.matching tr.store (t.doc p.2)).contains p.1)
      ("live id " ++ toString p.1 ++ " not found by its document " ++ toString p.2 ++ " (" ++
        tr.context seed step ++ ")")
  CheckM.forEach tr.retired fun p =>
    CheckM.assert (!(t.matching tr.store (t.doc p.2)).contains p.1)
      ("id " ++ toString p.1 ++ " still returned for its replaced or deleted document " ++
        toString p.2 ++ " (" ++ tr.context seed step ++ ")")

/-- One step of `random_operations_match_model`. -/
def step [F64 F] (seed : UInt64) (n : Nat) : CheckM (Trial S) Unit := do
  let id ← Trial.draw 12
  let roll ← Trial.draw 16
  let op ← t.turn id.toUInt32 roll
  Eff.update fun (tr : Trial S) => { tr with log := tr.log ++ [op] }
  t.agree seed n

/-- `random_operations_match_model`. -/
def randomOperationsMatchModel [F64 F] (memory : Dir) (seed : UInt64) (steps : Nat) :
    Outcome String Unit :=
  if seed.toNat * 1000000 < UInt64.size then
    t.onNew memory do
      let s ← Eff.get
      Eff.within (Trial.start s seed) (CheckM.forEach (List.range steps) (t.step seed))
  else
    .err "attempt to multiply with overflow"

end ConformanceStore

/-- An index that keeps its documents as the items of a store, and finds the ids
whose current document is accepted.  An open finds the directory as the dropped
index left it. -/
def SegmentedStore.asIndex [F64 F] (st : Store UInt32 Item Seg)
    (entries : Seg → List (UInt32 × Item)) (opts : Options F) (keep : Nat)
    (doc : UInt64 → Item) (accepts : Item → Item → Bool) :
    ConformanceStore (Directory UInt32 Item Seg) (SegmentedStore UInt32 Item Seg F) Item F where
  «open» := fun d => openWithOptions st opts (d.settle keep [])
  drop := SegmentedStore.dir
  add id item := Cmd.exec st (.add id item)
  delete id := Cmd.exec st (.delete id)
  compact := Cmd.exec st .compact
  compactTiers := Cmd.exec st .compactTiers
  reclaim minLiveRatio := Cmd.exec st (.reclaimTombstones minLiveRatio)
  checkpoint := Cmd.exec st .checkpoint
  doc := doc
  matching s item :=
    let pairs := s.sealed.flatMap (fun p => (entries p.2).filter fun e => s.isLiveIn p.1 e.1) ++
      s.buffer
    (pairs.filter fun e => accepts item e.2).map Prod.fst

end Segstore
