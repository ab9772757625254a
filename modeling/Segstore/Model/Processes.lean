import Mathlib.Logic.Function.Basic
import Segstore.Model.Run

/-!
# Several openers of one directory

Processes, or several handles of one process, that share a directory on a file
system.  `open_with_options` looks for older formats before it tries the lock,
so between the two others may do anything.  Whoever gets the lock holds it until
its writer is dropped or its process dies; who does not get it is refused.
-/

namespace Segstore

variable {Id Item Seg F : Type}

/-! ## Openers -/

/-- One who may open the store. -/
inductive Opener (Id Item Seg F : Type)
  | closed
  | checked (opts : Options F)
  | running (s : SegmentedStore Id Item Seg F)

/-- A directory with the holder of its lock and all openers.  The directory of a
running writer is the shared one, whatever its own field says. -/
structure World (Id Item Seg F : Type) where
  dir : Directory Id Item Seg
  holder : Option Nat
  openers : Nat → Opener Id Item Seg F

/-- What one opener does next, or what others do with files of their own. -/
inductive Turn (Id Item Seg F : Type)
  | check (i : Nat) (opts : Options F)
  | acquire (i : Nat) (keep : Nat) (fates : List (Call → Fate))
  | call (i : Nat) (cmd : Cmd Id Item F) (fates : List (Call → Fate))
  | close (i : Nat)
  | write (name : String) (file : File Id Item Seg)
  | remove (name : String)

/-- The lock file is there, and someone else holds its lock. -/
def contended : Call → Fate
  | .lock =>
      .failed (.lockFailed LOCK_PATH "another SegmentedStore holds this directory") .everything
  | _ => .done

namespace World

/-- Nobody has opened the directory yet. -/
def fresh : World Id Item Seg F where
  dir := .empty true
  holder := none
  openers := fun _ => .closed

/-- An opener is closed, and no longer holds the lock. -/
def release (w : World Id Item Seg F) (i : Nat) : World Id Item Seg F where
  dir := w.dir
  holder := if w.holder = some i then none else w.holder
  openers := Function.update w.openers i .closed

/-- The directory that someone finds who tries the lock now. -/
def approach (w : World Id Item Seg F) (keep : Nat) (fates : List (Call → Fate)) :
    Directory Id Item Seg :=
  if w.holder.isSome then { w.dir with fates := [contended] } else w.dir.settle keep fates

variable [DecidableEq Id] [F64 F] (st : Store Id Item Seg)

/-- One turn: the next world, and the operations issued with whether they were
acknowledged. -/
def step (w : World Id Item Seg F) :
    Turn Id Item Seg F → World Id Item Seg F × List (Op Id Item × Bool)
  | .check i opts =>
      match w.openers i with
      | .closed =>
          let run := openChecks opts w.dir
          match run.1 with
          | .ok () => ({ w with
              dir := run.2, openers := Function.update w.openers i (.checked opts) }, [])
          | _ => ({ w with dir := run.2 }, [])
      | _ => (w, [])
  | .acquire i keep fates =>
      match w.openers i with
      | .checked opts =>
          let run := openLocked st opts (w.approach keep fates)
          match run.1 with
          | .ok s => ({
              dir := run.2
              holder := some i
              openers := Function.update w.openers i (.running s) }, [])
          | _ => ({ w with dir := run.2, openers := Function.update w.openers i .closed }, [])
      | _ => (w, [])
  | .call i cmd fates =>
      match w.openers i with
      | .running s =>
          let run := cmd.exec st { s with dir := { w.dir with fates := fates } }
          let w := { w with
            dir := run.2.dir, openers := Function.update w.openers i (.running run.2) }
          match run.1 with
          | .crash => (w.release i, flagged false cmd.ops)
          | r => (w, flagged (Proc.acked r) cmd.ops)
      | _ => (w, [])
  | .close i => (w.release i, [])
  | .write name file => ({ w with dir := w.dir.become (w.dir.files.insert name file) }, [])
  | .remove name => ({ w with dir := w.dir.become (w.dir.files.erase name) }, [])

/-- A run: the world it ends in and everything issued in it. -/
def run (w : World Id Item Seg F) (issued : List (Op Id Item × Bool)) :
    List (Turn Id Item Seg F) → World Id Item Seg F × List (Op Id Item × Bool)
  | [] => (w, issued)
  | t :: turns => run (w.step st t).1 (issued ++ (w.step st t).2) turns

end World

end Segstore
