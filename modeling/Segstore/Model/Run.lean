import Segstore.Model.Open

/-!
# Runs

A process owns at most one writer on the directory.  An event is a call on the
writer, under given fates of the directory calls made inside, or a drop
followed by an open.  A stop inside a call ends the writer.
-/

namespace Segstore

variable {Id Item Seg F : Type}

/-- The mutating calls on a writer. -/
inductive Cmd (Id Item F : Type)
  | add (id : Id) (item : Item)
  | extend (items : List (Id × Item))
  | delete (id : Id)
  | checkpoint
  | compact
  | compactTiers
  | forceMergeTo (maxSegments : Nat)
  | reclaimTombstones (minLiveRatio : F)

/-- The operations a call issues, in order. -/
def Cmd.ops : Cmd Id Item F → List (Op Id Item)
  | .add id item => [.add id item]
  | .extend items => items.map (fun e => .add e.1 e.2)
  | .delete id => [.delete id]
  | _ => []

/-- Execute a call. -/
def Cmd.exec [DecidableEq Id] [F64 F] (st : Store Id Item Seg) :
    Cmd Id Item F → StoreM Id Item Seg F Unit
  | .add id item => SegmentedStore.add st id item
  | .extend items => SegmentedStore.extend st items
  | .delete id => SegmentedStore.delete id
  | .checkpoint => SegmentedStore.checkpoint st
  | .compact => do
      let _ ← SegmentedStore.compact st
      pure ()
  | .compactTiers => do
      let _ ← SegmentedStore.compactTiers st
      pure ()
  | .forceMergeTo maxSegments => do
      let _ ← SegmentedStore.forceMergeTo st maxSegments
      pure ()
  | .reclaimTombstones minLiveRatio => do
      let _ ← SegmentedStore.reclaimTombstones st minLiveRatio
      pure ()

/-- One event of a run.  `keep` is how many records of each log the next process
finds at least as far as they were appended. -/
inductive Event (Id Item F : Type)
  | call (cmd : Cmd Id Item F) (fates : List (Call → Fate))
  | reopen (opts : Options F) (keep : Nat) (fates : List (Call → Fate))

/-- A process: with a writer, or with the directory only. -/
inductive Proc (Id Item Seg F : Type)
  | closed (dir : Directory Id Item Seg)
  | running (s : SegmentedStore Id Item Seg F)

namespace Proc

/-- The directory of a process. -/
def dir : Proc Id Item Seg F → Directory Id Item Seg
  | closed d => d
  | running s => s.dir

/-- The process after a call.  Only a stop ends the writer. -/
def afterCall (r : Outcome PersistenceError Unit) (s : SegmentedStore Id Item Seg F) :
    Proc Id Item Seg F :=
  match r with
  | .crash => closed s.dir
  | _ => running s

/-- The process after an attempt to open. -/
def afterOpen (r : Outcome PersistenceError (SegmentedStore Id Item Seg F))
    (d : Directory Id Item Seg) : Proc Id Item Seg F :=
  match r with
  | .ok s => running s
  | _ => closed d

/-- Whether a call returned `Ok`. -/
def acked : Outcome PersistenceError Unit → Bool
  | .ok () => true
  | _ => false

variable [DecidableEq Id] [F64 F] (st : Store Id Item Seg)

/-- The writer with the fates of the next call. -/
def armed (s : SegmentedStore Id Item Seg F) (fates : List (Call → Fate)) :
    SegmentedStore Id Item Seg F :=
  { s with dir := { s.dir with fates := fates } }

/-- One event: the next process, and the operations it issued with whether they
were acknowledged.  Without a writer a call does nothing. -/
def step : Proc Id Item Seg F → Event Id Item F →
    Proc Id Item Seg F × List (Op Id Item × Bool)
  | closed d, .call _ _ => (closed d, [])
  | running s, .call cmd fates =>
      let run := cmd.exec st (armed s fates)
      (afterCall run.1 run.2, flagged (acked run.1) cmd.ops)
  | p, .reopen opts keep fates =>
      let run := openWithOptions st opts (p.dir.settle keep fates)
      (afterOpen run.1 run.2, [])

/-- A run: the process it ends in and everything it issued. -/
def run (p : Proc Id Item Seg F) (issued : List (Op Id Item × Bool)) :
    List (Event Id Item F) → Proc Id Item Seg F × List (Op Id Item × Bool)
  | [] => (p, issued)
  | e :: events => run (step st p e).1 (issued ++ (step st p e).2) events

end Proc

end Segstore
