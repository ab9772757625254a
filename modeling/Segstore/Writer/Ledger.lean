import Mathlib.Logic.Relation
import Segstore.Memory.Groups
import Segstore.Disk.Image
import Segstore.Model.Run

/-!
# The ledger of a writer

What a writer amounts to, seen from outside: its memory, the image its
directory stands for, the live log, and the snapshot its readers have.

The first part says what every call does to the ledger when nothing fails.  The
second part lists the moves that a compaction or a checkpoint consists of.
Whatever fails and wherever the process stops, the ledger has made a sequence
of such moves.
-/

namespace Segstore

/-- Memory, image, live log, readers' snapshot. -/
structure Ledger (Id Item Seg : Type) where
  contents : Contents Id Item Seg
  image : Image Id Seg
  log : RecordLog Id Item
  published : PubState Id Seg

namespace Contents

variable {Id Item Seg : Type}

/-- The image of a checkpoint of this memory. -/
def image (c : Contents Id Item Seg) (epoch : Nat) : Image Id Seg where
  toLoadedManifest := .ofCurrent epoch c.manifest
    { version := MANIFEST_EXT_VERSION, superseded := c.supersededRefs }
  segments := c.segments

end Contents

namespace Ledger

variable {Id Item Seg F : Type}

/-- One more record in the log. -/
def append (l : Ledger Id Item Seg) (op : Op Id Item) : Ledger Id Item Seg :=
  { l with log := l.log.append op }

/-- The log is flushed. -/
def sync (l : Ledger Id Item Seg) : Ledger Id Item Seg :=
  { l with log := l.log.flushed }

/-- The memory changes. -/
def mapContents (f : Contents Id Item Seg → Contents Id Item Seg) (l : Ledger Id Item Seg) :
    Ledger Id Item Seg :=
  { l with contents := f l.contents }

variable [DecidableEq Id]

/-- An operation takes effect in memory. -/
def apply (l : Ledger Id Item Seg) (op : Op Id Item) : Ledger Id Item Seg :=
  l.mapContents (fun c => c.apply op)

variable (st : Store Id Item Seg)

/-- `checkpoint`. -/
def commit (l : Ledger Id Item Seg) : Ledger Id Item Seg :=
  let c := (l.contents.flushBuffer st).retainSuperseded
  { contents := c
    image := c.image (l.image.epoch + 1)
    log := .empty
    published := c.toPubState }

/-- `compact`. -/
def compact (l : Ledger Id Item Seg) : Ledger Id Item Seg :=
  (l.mapContents (fun c => (c.flushBuffer st).compacted st)).commit st

/-- A partial compaction: nothing but a seal, or a seal, merges and a commit. -/
def compactBy (merges : Contents Id Item Seg → Contents Id Item Seg × Nat)
    (l : Ledger Id Item Seg) : Ledger Id Item Seg :=
  let p := merges (l.contents.flushBuffer st)
  let l := l.mapContents (fun _ => p.1)
  if 0 < p.2 then l.commit st else l

variable [F64 F]

/-- `compact_tiers`. -/
def compactTiers (opts : Options F) (l : Ledger Id Item Seg) : Ledger Id Item Seg :=
  l.compactBy st (fun c => c.tierMerges st opts.tiering opts.flushThreshold c.segments.length)

omit [F64 F] in
/-- `force_merge_to`. -/
def forceMergeTo (opts : Options F) (maxSegments : Nat) (l : Ledger Id Item Seg) :
    Ledger Id Item Seg :=
  if maxSegments ≤ 1 then
    l.compact st
  else
    l.compactBy st (fun c => c.forceMerges st opts.tiering maxSegments c.segments.length)

/-- `reclaim_tombstones`. -/
def reclaimTombstones (minLiveRatio : F) (l : Ledger Id Item Seg) : Ledger Id Item Seg :=
  l.compactBy st (fun c =>
    match c.reclaimTargets st minLiveRatio c.sealed.zipIdx with
    | none => (c, 0)
    | some [] => (c, 0)
    | some (target :: targets) => (c.merge st (target :: targets), 1))

/-- Seal a full buffer, then compact if that is due. -/
def sealAndCompact (opts : Options F) (l : Ledger Id Item Seg) : Ledger Id Item Seg :=
  if opts.flushThreshold ≤ l.contents.buffer.length then
    let l := l.mapContents (fun c => c.flushBuffer st)
    if opts.autoCompact &&
        (l.contents.nextMergeGroup st opts.tiering opts.flushThreshold).isSome then
      l.sync.compactTiers st opts
    else
      l
  else
    l

theorem sealAndCompact_of_short {opts : Options F} {l : Ledger Id Item Seg}
    (hshort : ¬ opts.flushThreshold ≤ l.contents.buffer.length) :
    l.sealAndCompact st opts = l :=
  if_neg hshort

theorem sealAndCompact_of_full (opts : Options F) {l : Ledger Id Item Seg}
    (hfull : opts.flushThreshold ≤ l.contents.buffer.length) :
    l.sealAndCompact st opts =
      if opts.autoCompact && ((l.contents.flushBuffer st).nextMergeGroup st opts.tiering
          opts.flushThreshold).isSome then
        (l.mapContents (fun c => c.flushBuffer st)).sync.compactTiers st opts
      else
        l.mapContents (fun c => c.flushBuffer st) :=
  if_pos hfull

/-- `add`. -/
def add (opts : Options F) (id : Id) (item : Item) (l : Ledger Id Item Seg) :
    Ledger Id Item Seg :=
  ((l.append (.add id item)).sync.apply (.add id item)).sealAndCompact st opts

/-- The loop of `extend`. -/
def extendItems (opts : Options F) (items : List (Id × Item)) (l : Ledger Id Item Seg) :
    Ledger Id Item Seg :=
  items.foldl (fun l e =>
    ((l.append (.add e.1 e.2)).apply (.add e.1 e.2)).sealAndCompact st opts) l

/-- `extend`. -/
def extend (opts : Options F) (items : List (Id × Item)) (l : Ledger Id Item Seg) :
    Ledger Id Item Seg :=
  if items.isEmpty then l else (l.extendItems st opts items).sync

/-- `delete`. -/
def delete (id : Id) (l : Ledger Id Item Seg) : Ledger Id Item Seg :=
  (l.append (.delete id)).sync.apply (.delete id)

/-- What a call does when nothing fails. -/
def exec (opts : Options F) : Cmd Id Item F → Ledger Id Item Seg → Ledger Id Item Seg
  | .add id item => add st opts id item
  | .extend items => extend st opts items
  | .delete id => delete id
  | .checkpoint => commit st
  | .compact => compact st
  | .compactTiers => compactTiers st opts
  | .forceMergeTo maxSegments => forceMergeTo st opts maxSegments
  | .reclaimTombstones minLiveRatio => reclaimTombstones st minLiveRatio

/-! ## Moves -/

/-- One move of a compaction or a checkpoint. -/
inductive Move : Ledger Id Item Seg → Ledger Id Item Seg → Prop
  | flush (l : Ledger Id Item Seg) : Move l (l.mapContents (fun c => c.flushBuffer st))
  | alloc (l : Ledger Id Item Seg) : Move l (l.mapContents Contents.allocId)
  | merge (l : Ledger Id Item Seg) (indices : List Nat)
      (hpos : Positions l.contents.segments.length indices) :
      Move l (l.mapContents (fun c => c.merge st indices))
  | compacted (l : Ledger Id Item Seg) (hbuffer : l.contents.buffer = []) :
      Move l (l.mapContents (fun c => c.compacted st))
  | prune (l : Ledger Id Item Seg) : Move l (l.mapContents Contents.retainSuperseded)
  | sync (l : Ledger Id Item Seg) : Move l l.sync
  | commit (l : Ledger Id Item Seg) (hbuffer : l.contents.buffer = []) :
      Move l { l with image := l.contents.image (l.image.epoch + 1), log := .empty }
  | publish (l : Ledger Id Item Seg) :
      Move l { l with published := l.contents.toPubState }

/-- Any number of moves. -/
abbrev Moves : Ledger Id Item Seg → Ledger Id Item Seg → Prop :=
  Relation.ReflTransGen (Move st)

/-- After moves the buffer is as it was or empty. -/
theorem Moves.buffer {l l' : Ledger Id Item Seg} (h : Moves st l l') :
    l'.contents.buffer = l.contents.buffer ∨ l'.contents.buffer = [] := by
  induction h with
  | refl => exact .inl rfl
  | tail _ hmove ih =>
      cases hmove with
      | flush => exact .inr (Contents.flushBuffer_buffer _ st)
      | merge indices =>
          rw [mapContents, Contents.merge_buffer]
          exact ih
      | compacted hbuffer => exact .inr (Contents.compacted_buffer st hbuffer)
      | alloc => exact ih
      | prune => exact ih
      | sync => exact ih
      | commit => exact ih
      | publish => exact ih

/-- All operations were logged and applied, with moves after each. -/
inductive Logged : Ledger Id Item Seg → List (Op Id Item) → Ledger Id Item Seg → Prop
  | done (l : Ledger Id Item Seg) : Logged l [] l
  | step {l l₁ l' : Ledger Id Item Seg} {op : Op Id Item} {ops : List (Op Id Item)} :
      Moves st ((l.append op).apply op) l₁ → Logged l₁ ops l' → Logged l (op :: ops) l'

/-- The operations were logged and applied up to some point. -/
inductive Issued : Ledger Id Item Seg → List (Op Id Item) → Ledger Id Item Seg → Prop
  | none {l l' : Ledger Id Item Seg} {ops : List (Op Id Item)} :
      Moves st l l' → Issued l ops l'
  | logged {l l' : Ledger Id Item Seg} {op : Op Id Item} {ops : List (Op Id Item)} :
      Moves st (l.append op) l' → Issued l (op :: ops) l'
  | step {l l₁ l' : Ledger Id Item Seg} {op : Op Id Item} {ops : List (Op Id Item)} :
      Moves st ((l.append op).apply op) l₁ → Issued l₁ ops l' → Issued l (op :: ops) l'

/-- All operations were logged, applied and made durable. -/
def Acked (l : Ledger Id Item Seg) (ops : List (Op Id Item)) (l' : Ledger Id Item Seg) :
    Prop :=
  ops = [] ∧ Moves st l l' ∨ ∃ l₁, Logged st l ops l₁ ∧ Moves st l₁.sync l'

variable {st}

/-- A record that was to be logged, whether it got there or not. -/
theorem Issued.of_append {l l' : Ledger Id Item Seg} {op : Op Id Item} {ops : List (Op Id Item)}
    (h : l' = l ∨ l' = l.append op) : Issued st l (op :: ops) l' := by
  rcases h with rfl | rfl
  · exact .none .refl
  · exact .logged .refl

theorem Issued.append_right {l l' : Ledger Id Item Seg} {ops : List (Op Id Item)}
    (h : Issued st l ops l') (more : List (Op Id Item)) : Issued st l (ops ++ more) l' := by
  induction h with
  | none h => exact .none h
  | logged h => exact .logged h
  | step h _ ih => exact .step h ih

/-! ## What moves and operations keep -/

variable (st) in
/-- A property of ledgers that moves, records and operations keep. -/
structure Closed (P : Ledger Id Item Seg → Prop) : Prop where
  move : ∀ {l l'}, P l → Move st l l' → P l'
  append : ∀ {l} op, P l → P (l.append op)
  apply : ∀ {l} op, P l → P (l.apply op)

namespace Closed

variable {P : Ledger Id Item Seg → Prop}

theorem moves (h : Closed st P) {l l' : Ledger Id Item Seg} (hl : P l) (hmoves : Moves st l l') :
    P l' := by
  induction hmoves with
  | refl => exact hl
  | tail _ hmove ih => exact h.move ih hmove

theorem issued (h : Closed st P) {l l' : Ledger Id Item Seg} {ops : List (Op Id Item)} (hl : P l)
    (hissued : Issued st l ops l') : P l' := by
  induction hissued with
  | none hmoves => exact h.moves hl hmoves
  | logged hmoves => exact h.moves (h.append _ hl) hmoves
  | step hmoves _ ih => exact ih (h.moves (h.apply _ (h.append _ hl)) hmoves)

theorem logged (h : Closed st P) {l l' : Ledger Id Item Seg} {ops : List (Op Id Item)} (hl : P l)
    (hlogged : Logged st l ops l') : P l' := by
  induction hlogged with
  | done => exact hl
  | step hmoves _ ih => exact ih (h.moves (h.apply _ (h.append _ hl)) hmoves)

theorem acked (h : Closed st P) {l l' : Ledger Id Item Seg} {ops : List (Op Id Item)} (hl : P l)
    (hacked : Acked st l ops l') : P l' := by
  rcases hacked with ⟨-, hmoves⟩ | ⟨l₁, hlogged, hmoves⟩
  · exact h.moves hl hmoves
  · exact h.moves (h.move (h.logged hl hlogged) (.sync l₁)) hmoves

end Closed

theorem Logged.issued {l l₁ l' : Ledger Id Item Seg} {ops more : List (Op Id Item)}
    (h : Logged st l ops l₁) (hmore : Issued st l₁ more l') :
    Issued st l (ops ++ more) l' := by
  induction h with
  | done => exact hmore
  | step h _ ih => exact .step h (ih hmore)

end Ledger

end Segstore
