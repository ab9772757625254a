import Segstore.Kernel.Blame
import Segstore.Writer.Calm
import Segstore.Writer.Memory

/-!
# Errors are accounted for

A call on a writer fails for one of few reasons: the writer is poisoned, a record could
not be logged, or a segment or the manifest could not be written.  The error is the
one the directory gave, and that of a write says what could not be written.
-/

namespace Segstore

variable {Id Item Seg F α β : Type}

/-! ## The directory -/

namespace Directory

/-- The process may stop in one of the calls to come. -/
def Stopping (d : Directory Id Item Seg) : Prop :=
  ∃ fate ∈ d.fates, ∃ call landed, fate call = .stopped landed

/-- The call uses up fates, and stops only where one of them says so. -/
def Spends (p : DirM Id Item Seg α) : Prop :=
  ∀ d, Ends p d (fun r d' => d'.fates ⊆ d.fates ∧ (r = .crash → d.Stopping))

theorem Stopping.mono {d d' : Directory Id Item Seg} (h : d'.fates ⊆ d.fates)
    (hstop : d'.Stopping) : d.Stopping := by
  obtain ⟨fate, hfate, hcall⟩ := hstop
  exact ⟨fate, h hfate, hcall⟩

namespace Spends

theorem pure (a : α) : Spends (Pure.pure a : DirM Id Item Seg α) :=
  fun _ => ⟨List.Subset.refl _, by rintro ⟨⟩⟩

theorem read_bind {g : Directory Id Item Seg → β} {f : β → DirM Id Item Seg α}
    (hf : ∀ b, Spends (f b)) : Spends (Eff.read g >>= f) :=
  fun d => hf (g d) d

theorem bind {p : DirM Id Item Seg α} {f : α → DirM Id Item Seg β} (hp : Spends p)
    (hf : ∀ a, Spends (f a)) : Spends (p >>= f) := by
  intro d
  refine Ends.bind (hp d) (fun a d' hd' => (hf a d').mono fun r d'' hd'' => ?_) ?_ ?_
  · exact ⟨List.Subset.trans hd''.1 hd'.1, fun hr => (hd''.2 hr).mono hd'.1⟩
  · exact fun e d' hd' => ⟨hd'.1, by rintro ⟨⟩⟩
  · exact fun d' hd' => ⟨hd'.1, fun _ => hd'.2 rfl⟩

theorem attempt_bind {p : DirM Id Item Seg α}
    {f : Except PersistenceError α → DirM Id Item Seg β} (hp : Spends p)
    (hf : ∀ a, Spends (f a)) : Spends (Eff.attempt p >>= f) := by
  intro d
  refine Ends.attempt_bind (hp d) (fun a d' hd' => (hf (.ok a) d').mono fun r d'' hd'' => ?_)
    (fun e d' hd' => (hf (.error e) d').mono fun r d'' hd'' => ?_) ?_
  · exact ⟨List.Subset.trans hd''.1 hd'.1, fun hr => (hd''.2 hr).mono hd'.1⟩
  · exact ⟨List.Subset.trans hd''.1 hd'.1, fun hr => (hd''.2 hr).mono hd'.1⟩
  · exact fun d' hd' => ⟨hd'.1, fun _ => hd'.2 rfl⟩

end Spends

/-- A changing call has the fate that comes next. -/
theorem perform_fates (call : Call) (torn whole : Files Id Item Seg → Files Id Item Seg)
    (d : Directory Id Item Seg) :
    Ends (perform call torn whole) d (fun r d' => (d'.fates ⊆ d.fates ∧
      (r = .crash → d.Stopping)) ∧
      ∀ e, r = .err e → ∃ fate ∈ d.fates, ∃ landed, fate call = .failed e landed) := by
  unfold Ends perform nextFate
  cases hfates : d.fates with
  | nil => simp [become, hfates]
  | cons fate fates =>
      dsimp only
      cases hfate : fate call with
      | done => simp [become, hfates]
      | failed e landed =>
          refine ⟨⟨by simp [become, hfates], by simp⟩, ?_⟩
          rintro _ ⟨⟩
          exact ⟨fate, List.mem_cons_self, landed, hfate⟩
      | stopped landed =>
          refine ⟨⟨by simp [become, hfates], fun _ => ?_⟩, by simp⟩
          exact ⟨fate, by simp [hfates], call, landed, hfate⟩

theorem perform_spends (call : Call) (torn whole : Files Id Item Seg → Files Id Item Seg) :
    Spends (perform call torn whole) :=
  fun d => (perform_fates call torn whole d).mono fun _ _ h => h.1

theorem listDir_spends : Spends (listDir : DirM Id Item Seg (List String)) := by
  intro d
  unfold Ends listDir observe nextFate
  cases hfates : d.fates with
  | nil => simp
  | cons fate fates =>
      dsimp only
      cases hfate : fate .list with
      | done => simp
      | failed e landed => simp
      | stopped landed =>
          exact ⟨by simp,
            fun _ => ⟨fate, by simp [hfates], .list, landed, hfate⟩⟩

theorem deleteEach_spends (names : List String) :
    Spends (deleteEach names : DirM Id Item Seg Bool) := by
  induction names with
  | nil => exact .pure false
  | cons name names ih =>
      refine .bind (.read_bind fun there => ?_) fun _ => .bind ih fun _ => .pure _
      split
      · refine .attempt_bind (perform_spends _ _ _) fun r => ?_
        split <;> exact .pure _
      · exact .pure false

theorem collectGarbage_spends (garbage : List String) (test : String → Bool) :
    Spends (collectGarbage garbage test : DirM Id Item Seg Unit) := by
  refine .attempt_bind listDir_spends fun listed => .read_bind fun durable => ?_
  refine .bind (deleteEach_spends _) fun deleted => ?_
  split
  · exact .attempt_bind (perform_spends _ _ _) fun _ => .pure ()
  · exact .pure ()

end Directory

/-! ## The writer -/

namespace SegmentedStore

/-- The error of an append to the log, or of a flush of it, that fails. -/
def LogError (s : SegmentedStore Id Item Seg F) (e : PersistenceError) : Prop :=
  ∃ fate ∈ s.dir.fates, ∃ call landed,
    (call = .append ∨ call = .flush) ∧ fate call = .failed e landed

/-- Why a call on the writer fails: the check for poison, a segment or the manifest that
could not be written, or a stop; and if the call `logs`, a log writer that is poisoned,
or a record that could not be written. -/
inductive Cause (logs : Prop) (s : SegmentedStore Id Item Seg F) :
    Failure PersistenceError → Prop
  | poisoned : s.poisoned = true → Cause logs s (some poisonedError)
  | wal : logs → s.walPoisoned = true → Cause logs s (some walPoisonedError)
  | log {e : PersistenceError} : logs → LogError s e → Cause logs s (some e)
  | segment {fate : Call → Fate} {e : PersistenceError} {landed : Landed} (id : Nat) :
      fate ∈ s.dir.fates → fate .write = .failed e landed →
        Cause logs s (some (sizeCapContext e ("segment " ++ toString id)))
  | manifest {fate : Call → Fate} {e : PersistenceError} {landed : Landed} :
      fate ∈ s.dir.fates → fate .write = .failed e landed →
        Cause logs s (some (sizeCapContext e "manifest (segment ids + tombstones)"))
  | stop : s.dir.Stopping → Cause logs s none

/-- Fates are used up, and the log writer is not poisoned. -/
def LogSpared (s t : SegmentedStore Id Item Seg F) : Prop :=
  t.dir.fates ⊆ s.dir.fates ∧ (t.walPoisoned = true → s.walPoisoned = true)

instance : Std.Refl (LogSpared : SegmentedStore Id Item Seg F → _ → Prop) :=
  ⟨fun _ => ⟨List.Subset.refl _, id⟩⟩

instance : IsTrans (SegmentedStore Id Item Seg F) LogSpared :=
  ⟨fun _ _ _ h h' => ⟨List.Subset.trans h'.1 h.1, fun hwal => h.2 (h'.2 hwal)⟩⟩

variable {logs : Prop}

theorem LogError.mono {s t : SegmentedStore Id Item Seg F} {e : PersistenceError}
    (hfates : t.dir.fates ⊆ s.dir.fates) (h : LogError t e) : LogError s e := by
  obtain ⟨fate, hfate, hcall⟩ := h
  exact ⟨fate, hfates hfate, hcall⟩

theorem Cause.mono {s t : SegmentedStore Id Item Seg F} (hspared : LogSpared s t)
    (hpoisoned : t.poisoned = true → s.poisoned = true) (failure : Failure PersistenceError)
    (h : Cause logs t failure) : Cause logs s failure := by
  obtain ⟨hfates, hwal⟩ := hspared
  cases h with
  | poisoned hp => exact .poisoned (hpoisoned hp)
  | wal hlogs hp => exact .wal hlogs (hwal hp)
  | log hlogs herror => exact .log hlogs (herror.mono hfates)
  | segment id hfate hfailed => exact .segment id (hfates hfate) hfailed
  | manifest hfate hfailed => exact .manifest (hfates hfate) hfailed
  | stop hstop => exact .stop (hstop.mono hfates)

theorem checkPoisoned_blames :
    Blames (Cause logs) (checkPoisoned : StoreM Id Item Seg F Unit) := by
  intro s
  rw [checkPoisoned, Ends.read_bind_iff]
  split
  · rename_i hpoisoned
    exact Blames.fail (.poisoned hpoisoned)
  · exact Blames.pure () s

theorem onContents_blames (f : Contents Id Item Seg → Contents Id Item Seg) :
    Blames (Cause logs) (onContents (F := F) f) :=
  .update fun _ => Cause.mono ⟨List.Subset.refl _, id⟩ id

/-- A change of the log. -/
theorem onWal_fates {call : Call} (hcall : call = .append ∨ call = .flush)
    (torn whole : String → Files Id Item Seg → Files Id Item Seg)
    (s : SegmentedStore Id Item Seg F) :
    Ends (onWal call fun wal => Directory.perform call (torn wal) (whole wal)) s (fun r t =>
      t.poisoned = s.poisoned ∧ t.dir.fates ⊆ s.dir.fates ∧ (r = .crash → s.dir.Stopping) ∧
      (∀ e, r = .err e → s.walPoisoned = true ∧ e = walPoisonedError ∨ LogError s e) ∧
      (t.walPoisoned = true → s.walPoisoned = true ∨ ∃ e, r = .err e ∧ LogError s e)) := by
  have hlogError : ∀ {r : Outcome PersistenceError Unit} {e},
      (∀ e, r = .err e → ∃ fate ∈ s.dir.fates, ∃ landed, fate call = .failed e landed) →
        r = .err e → LogError s e := by
    intro r e herror he
    obtain ⟨fate, hfate, landed, hfailed⟩ := herror e he
    exact ⟨fate, hfate, call, landed, hcall, hfailed⟩
  refine (onWal_runs (Directory.perform_fates call (torn s.wal) (whole s.wal) s.dir)).mono ?_
  rintro r t (⟨hpoisoned, rfl, rfl⟩ | ⟨-, d, b, rfl, ⟨⟨hfates, hstop⟩, herror⟩, hb⟩)
  · refine ⟨rfl, List.Subset.refl _, by simp, fun e he => .inl ⟨hpoisoned, ?_⟩, .inl⟩
    cases he
    rfl
  · refine ⟨rfl, hfates, hstop, fun e he => .inr (hlogError herror he), fun h => .inr ?_⟩
    obtain ⟨-, e, he⟩ := hb h
    exact ⟨e, he, hlogError herror he⟩

theorem onWal_blames (hlogs : logs) {call : Call} (hcall : call = .append ∨ call = .flush)
    (torn whole : String → Files Id Item Seg → Files Id Item Seg) :
    Blames (Cause logs)
      (onWal (F := F) call fun wal => Directory.perform call (torn wal) (whole wal)) := by
  refine fun s => (onWal_fates hcall torn whole s).mono ?_
  rintro r t ⟨hpoisoned, hfates, hstop, herror, hwal⟩
  refine ⟨fun e he => ?_, fun hr => .stop (hstop hr), fun _ hr => ?_⟩
  · rcases herror e he with ⟨hpoisoned, rfl⟩ | herror
    · exact .wal hlogs hpoisoned
    · exact .log hlogs herror
  · refine Cause.mono ⟨hfates, fun h => (hwal h).resolve_right ?_⟩ (hpoisoned ▸ id)
    rintro ⟨e, he, -⟩
    exact absurd (hr.symm.trans he) (by simp)

/-- A file is written, or the write has had a fate that says why not. -/
theorem writeCheckpoint_fates (logs : Prop) (name : String) (lastAppliedId : Nat)
    (payload : Payload Id Seg) (s : SegmentedStore Id Item Seg F) :
    Ends (onDir (Directory.writeCheckpoint name lastAppliedId payload)) s (fun r t =>
      (∀ failure, Cause logs t failure → Cause logs s failure) ∧
      (r = .crash → Cause logs s none) ∧
      ∀ e, r = .err e → ∃ fate ∈ s.dir.fates, ∃ landed, fate .write = .failed e landed) := by
  rw [Directory.writeCheckpoint, Directory.atomicWrite]
  refine Ends.zoom ((Directory.perform_fates .write _ _ s.dir).mono ?_)
  rintro r d ⟨⟨hfates, hstop⟩, herror⟩
  exact ⟨Cause.mono ⟨hfates, id⟩ id, fun hr => .stop (hstop hr), herror⟩

theorem persistSegment_blames (id : Nat) (seg : Seg) :
    Blames (Cause logs) (persistSegment id seg : StoreM Id Item Seg F Unit) := by
  refine .bind (fun s => ?_) fun _ => .update fun _ =>
    Cause.mono ⟨List.Subset.refl _, fun h => h⟩ fun h => h
  refine Ends.mapErr (writeCheckpoint_fates logs _ _ _ s) ?_ ?_ ?_
  · exact fun _ t ht => ⟨by rintro _ ⟨⟩, by rintro ⟨⟩, fun _ _ => ht.1⟩
  · rintro e t ⟨-, -, herror⟩
    obtain ⟨fate, hfate, landed, hfailed⟩ := herror e rfl
    exact ⟨by rintro _ ⟨⟩; exact .segment id hfate hfailed, by rintro ⟨⟩, by rintro _ ⟨⟩⟩
  · exact fun t ht => ⟨by rintro _ ⟨⟩, fun _ => ht.2.1 rfl, by rintro _ ⟨⟩⟩

theorem persistAll_blames (todo : List (Nat × Seg)) :
    Blames (Cause logs) (persistAll todo : StoreM Id Item Seg F Unit) := by
  induction todo with
  | nil => exact .pure ()
  | cons p todo ih => exact .bind (persistSegment_blames p.1 p.2) fun _ => ih

theorem writeManifest_blames : Blames (Cause logs) (writeManifest : StoreM Id Item Seg F Unit) := by
  refine .bind (onContents_blames _) fun _ s => ?_
  rw [Ends.get_bind_iff]
  refine Ends.attempt_bind (writeCheckpoint_fates logs _ _ _ s) ?_ ?_ ?_
  · exact fun _ t ht => ⟨by rintro _ ⟨⟩, by rintro ⟨⟩, fun _ _ => ht.1⟩
  · rintro e t ⟨-, -, herror⟩
    obtain ⟨fate, hfate, landed, hfailed⟩ := herror e rfl
    exact ⟨by rintro _ ⟨⟩; exact .manifest hfate hfailed, by rintro ⟨⟩, by rintro _ ⟨⟩⟩
  · exact fun t ht => ⟨by rintro _ ⟨⟩, fun _ => ht.2.1 rfl, by rintro _ ⟨⟩⟩

/-- Collecting garbage gives no error of its own. -/
theorem gcOrphanSegments_blames (keep : List Nat) (garbage : List String) :
    Blames (Cause logs) (gcOrphanSegments keep garbage : StoreM Id Item Seg F Unit) := by
  intro s
  have hspends : Ends (gcOrphanSegments keep garbage) s (fun r t =>
      (t.dir.fates ⊆ s.dir.fates ∧ (r = .crash → s.dir.Stopping)) ∧
        t.poisoned = s.poisoned ∧ t.walPoisoned = s.walPoisoned) := by
    rw [gcOrphanSegments, Ends.update_bind_iff]
    exact Ends.zoom ((Directory.collectGarbage_spends _ _ _).mono fun _ _ h => ⟨h, rfl, rfl⟩)
  refine (hspends.and (gcOrphanSegments_noError keep garbage s)).mono ?_
  rintro r t ⟨⟨⟨hfates, hstop⟩, hpoisoned, hwal⟩, hnoError⟩
  exact ⟨fun e he => absurd he (hnoError e), fun hr => .stop (hstop hr),
    fun _ _ => Cause.mono ⟨hfates, fun h => hwal ▸ h⟩ fun h => hpoisoned ▸ h⟩

variable [DecidableEq Id] (st : Store Id Item Seg)

theorem checkpoint_blames : Blames (Cause logs) (checkpoint st : StoreM Id Item Seg F Unit) :=
  .bind checkPoisoned_blames fun _ => .bind (onContents_blames _) fun _ =>
    .bind .get fun _ => .bind (persistAll_blames _) fun _ => .bind writeManifest_blames fun _ =>
      .bind (.update fun _ => Cause.mono ⟨List.Subset.refl _, by simp⟩ fun h => h) fun _ =>
        .bind (gcOrphanSegments_blames _ _) fun _ =>
          .update fun _ => Cause.mono ⟨List.Subset.refl _, id⟩ fun h => h

variable (logs) in
theorem compactwise_blames : Compactwise st (fun {_} p => Blames (Cause (F := F) logs) p) where
  toCompositional := Blames.compositional
  contents := onContents_blames
  persist := persistSegment_blames
  checkpoint := checkpoint_blames st

theorem partwise_blames (hlogs : logs) :
    Partwise st (fun {_} p => Blames (Cause (F := F) logs) p) where
  toCompositional := Blames.compositional
  checkPoisoned := checkPoisoned_blames
  contents := onContents_blames
  append := fun _ => onWal_blames hlogs (.inl rfl) (fun _ => id) _
  sync := onWal_blames hlogs (.inr rfl) (fun _ => id) _
  persist := persistSegment_blames
  checkpoint := checkpoint_blames st

variable [F64 F]

/-- A call that issues nothing does not touch the log. -/
theorem exec_blames (cmd : Cmd Id Item F) : Blames (Cause (cmd.ops ≠ [])) (cmd.exec st) := by
  have hcompacts := compactwise_blames (F := F) (cmd.ops ≠ []) st
  by_cases hlogs : cmd.ops ≠ []
  · exact (partwise_blames st hlogs).exec cmd
  · cases cmd with
    | add id item => exact absurd (List.cons_ne_nil _ _) hlogs
    | extend items =>
        obtain rfl : items = [] := List.map_eq_nil_iff.mp (not_not.mp hlogs)
        exact .bind checkPoisoned_blames fun _ => .bind (.pure ()) fun _ => .pure ()
    | delete id => exact absurd (List.cons_ne_nil _ _) hlogs
    | checkpoint => exact checkpoint_blames st
    | compact => exact .bind hcompacts.compact fun _ => .pure _
    | compactTiers => exact .bind hcompacts.compactTiers fun _ => .pure _
    | forceMergeTo maxSegments => exact .bind (hcompacts.forceMergeTo maxSegments) fun _ => .pure _
    | reclaimTombstones minLiveRatio =>
        exact .bind (hcompacts.reclaimTombstones minLiveRatio) fun _ => .pure _

omit [F64 F]

/-! ## Poison of the store -/

/-- The error of a manifest that could not be written. -/
def ManifestError (e : PersistenceError) : Prop :=
  ∃ e₀, e = sizeCapContext e₀ "manifest (segment ids + tombstones)"

/-- Nothing but a manifest that could not be written poisons the writer. -/
abbrev Spoils (p : StoreM Id Item Seg F α) : Prop :=
  Raises poisoned (fun _ => ManifestError) p

omit [DecidableEq Id] in
theorem spoils_of_same {p : StoreM Id Item Seg F α}
    (hp : Respects (fun s t => t.poisoned = s.poisoned) p) : Spoils p :=
  .of_respects fun s => (hp s).mono fun _ _ ht => ⟨fun h => ht ▸ h, fun _ h => h⟩

omit [DecidableEq Id] in
theorem onDir_poisoned (p : DirM Id Item Seg α) :
    Respects (fun s t => t.poisoned = s.poisoned) (onDir (F := F) p) :=
  fun _ => rfl

omit [DecidableEq Id] in
theorem update_spoils {g : SegmentedStore Id Item Seg F → SegmentedStore Id Item Seg F}
    (hg : ∀ s, (g s).poisoned = s.poisoned) : Spoils (Eff.update g) :=
  spoils_of_same (.update hg)

omit [DecidableEq Id] in
theorem persistSegment_spoils (id : Nat) (seg : Seg) :
    Spoils (persistSegment id seg : StoreM Id Item Seg F Unit) :=
  .bind (spoils_of_same (.mapErr (onDir_poisoned _))) fun _ => update_spoils fun _ => rfl

omit [DecidableEq Id] in
theorem persistAll_spoils (todo : List (Nat × Seg)) :
    Spoils (persistAll todo : StoreM Id Item Seg F Unit) := by
  induction todo with
  | nil => exact .pure ()
  | cons p todo ih => exact .bind (persistSegment_spoils p.1 p.2) fun _ => ih

omit [DecidableEq Id] in
theorem writeManifest_spoils : Spoils (writeManifest : StoreM Id Item Seg F Unit) := by
  refine .bind (update_spoils fun _ => rfl) fun _ s => ?_
  rw [Ends.get_bind_iff]
  refine Ends.attempt_bind (onDir_poisoned _ s) ?_ ?_ ?_
  · exact fun _ t ht => ⟨fun h => .inl (ht ▸ h), fun _ _ _ h => h⟩
  · exact fun e t _ => ⟨fun _ => .inr ⟨_, rfl, e, rfl⟩, by rintro _ ⟨⟩⟩
  · exact fun t ht => ⟨fun h => .inl (ht ▸ h), by rintro _ ⟨⟩⟩

theorem partwise_spoils :
    Partwise st (fun {_} (p : StoreM Id Item Seg F _) => Spoils p) where
  toCompositional := Raises.compositional
  checkPoisoned := spoils_of_same checkPoisoned_respects
  contents := fun _ => update_spoils fun _ => rfl
  append := fun _ => spoils_of_same (onWal_respects fun _ _ _ => rfl)
  sync := spoils_of_same (onWal_respects fun _ _ _ => rfl)
  persist := persistSegment_spoils
  checkpoint := .bind (spoils_of_same checkPoisoned_respects) fun _ =>
    .bind (update_spoils fun _ => rfl) fun _ => .bind .get fun _ =>
      .bind (persistAll_spoils _) fun _ => .bind writeManifest_spoils fun _ =>
        .bind (update_spoils fun _ => rfl) fun _ =>
          .bind (.bind (update_spoils fun _ => rfl) fun _ =>
            spoils_of_same (onDir_poisoned _)) fun _ => update_spoils fun _ => rfl

/-! ## Poison of the log writer -/

/-- Nothing but an append or a flush that failed poisons the log writer. -/
abbrev SpoilsLog (p : StoreM Id Item Seg F α) : Prop :=
  Raises walPoisoned LogError p

omit [DecidableEq Id] in
theorem spoilsLog_of_spared {p : StoreM Id Item Seg F α} (hp : Respects LogSpared p) :
    SpoilsLog p :=
  .of_respects fun s => (hp s).mono fun _ _ ht => ⟨ht.2, fun _ h => h.mono ht.1⟩

omit [DecidableEq Id] in
theorem onDir_spared {p : DirM Id Item Seg α} (hp : Directory.Spends p) :
    Respects LogSpared (onDir (F := F) p) :=
  fun s => Ends.zoom ((hp s.dir).mono fun _ _ h => ⟨h.1, id⟩)

omit [DecidableEq Id] in
theorem update_spared {g : SegmentedStore Id Item Seg F → SegmentedStore Id Item Seg F}
    (hdir : ∀ s, (g s).dir = s.dir) (hwal : ∀ s, (g s).walPoisoned = true → s.walPoisoned = true) :
    Respects LogSpared (Eff.update g : StoreM Id Item Seg F Unit) :=
  .update fun s => ⟨by rw [hdir]; exact List.Subset.refl _, hwal s⟩

omit [DecidableEq Id] in
theorem onContents_spared (f : Contents Id Item Seg → Contents Id Item Seg) :
    Respects LogSpared (onContents (F := F) f) :=
  update_spared (fun _ => rfl) fun _ h => h

omit [DecidableEq Id] in
theorem persistSegment_spared (id : Nat) (seg : Seg) :
    Respects LogSpared (persistSegment id seg : StoreM Id Item Seg F Unit) :=
  .bind (.mapErr (onDir_spared (Directory.perform_spends _ _ _))) fun _ =>
    update_spared (fun _ => rfl) fun _ h => h

omit [DecidableEq Id] in
theorem persistAll_spared (todo : List (Nat × Seg)) :
    Respects LogSpared (persistAll todo : StoreM Id Item Seg F Unit) := by
  induction todo with
  | nil => exact .pure ()
  | cons p todo ih => exact .bind (persistSegment_spared p.1 p.2) fun _ => ih

omit [DecidableEq Id] in
theorem writeManifest_spared : Respects LogSpared (writeManifest : StoreM Id Item Seg F Unit) := by
  refine .bind (onContents_spared _) fun _ => .get_bind fun s => ?_
  refine .attempt_bind (onDir_spared (Directory.perform_spends _ _ _)) fun written => ?_
  split
  · exact .pure ()
  · exact .bind (update_spared (fun _ => rfl) fun _ h => h) fun _ => .fail _

/-- A checkpoint starts a log of its own, with a writer that is not poisoned. -/
theorem checkpoint_spared : Respects LogSpared (checkpoint st : StoreM Id Item Seg F Unit) :=
  .bind checkPoisoned_respects fun _ => .bind (onContents_spared _) fun _ => .get_bind fun _ =>
    .bind (persistAll_spared _) fun _ => .bind writeManifest_spared fun _ =>
      .bind (update_spared (fun _ => rfl) fun _ h => by cases h) fun _ =>
        .bind (.bind (update_spared (fun _ => rfl) fun _ h => h) fun _ =>
          onDir_spared (Directory.collectGarbage_spends _ _)) fun _ =>
            update_spared (fun _ => rfl) fun _ h => h

omit [DecidableEq Id] in
theorem onWal_spoilsLog {call : Call} (hcall : call = .append ∨ call = .flush)
    (torn whole : String → Files Id Item Seg → Files Id Item Seg) :
    SpoilsLog (onWal (F := F) call fun wal => Directory.perform call (torn wal) (whole wal)) := by
  refine fun s => (onWal_fates hcall torn whole s).mono ?_
  rintro r t ⟨-, hfates, -, -, hwal⟩
  exact ⟨hwal, fun _ _ _ h => h.mono hfates⟩

theorem partwise_spoilsLog :
    Partwise st (fun {_} (p : StoreM Id Item Seg F _) => SpoilsLog p) where
  toCompositional := Raises.compositional
  checkPoisoned := spoilsLog_of_spared checkPoisoned_respects
  contents := fun f => spoilsLog_of_spared (onContents_spared f)
  append := fun _ => onWal_spoilsLog (.inl rfl) (fun _ => id) _
  sync := onWal_spoilsLog (.inr rfl) (fun _ => id) _
  persist := fun id seg => spoilsLog_of_spared (persistSegment_spared id seg)
  checkpoint := spoilsLog_of_spared (checkpoint_spared st)

/-- Past the manifest the log writer is a new one. -/
theorem checkpoint_renewsLog (s : SegmentedStore Id Item Seg F) :
    Ends (checkpoint st) s (fun r t => r = .ok () → t.walPoisoned = false) := by
  have hlater : ∀ {β : Type} {p : StoreM Id Item Seg F β} {f : β → StoreM Id Item Seg F Unit}
      {s : SegmentedStore Id Item Seg F},
      (∀ b t, Ends (f b) t (fun r u => r = .ok () → u.walPoisoned = false)) →
        Ends (p >>= f) s (fun r u => r = .ok () → u.walPoisoned = false) := fun hf =>
    Ends.bind (R := fun _ _ => True) trivial (fun b t _ => hf b t) (by simp) (by simp)
  refine hlater fun _ _ => hlater fun _ _ => Ends.get_bind_iff.mpr ?_
  refine hlater fun _ _ => hlater fun _ t => ?_
  rw [rotateWal, Ends.update_bind_iff]
  refine Ends.bind (R := fun _ u => u.walPoisoned = false) ?_ ?_ (by simp) (by simp)
  · rw [gcOrphanSegments, Ends.update_bind_iff]
    exact Ends.zoom ((Directory.collectGarbage_spends _ _ _).mono fun _ _ _ => rfl)
  · exact fun _ u hu => Ends.update_iff.mpr fun _ => hu

end SegmentedStore

/-- Whatever the state of the writer and the fates of a call: its error is that of a
poisoned writer, or of a segment or the manifest that could not be written, which it then
names, and of a write also that of a poisoned log writer, or of a record that could not be
logged; it stops only where a fate says so; only the manifest poisons the writer, and only
a failed append or flush its log writer, which then refuses every write before anything
else happens, until a checkpoint; and under kind fates a call on a healthy writer returns,
unless it is a write and the log writer is poisoned. -/
theorem errors_accounted [DecidableEq Id] [F64 F] (st : Store Id Item Seg)
    (s : SegmentedStore Id Item Seg F) (cmd : Cmd Id Item F) (fates : List (Call → Fate)) :
    let q := cmd.exec st (Proc.armed s fates)
    (∀ e, q.1 = .err e → (Proc.armed s fates).Cause (cmd.ops ≠ []) (some e)) ∧
    (q.1 = .crash → ∃ fate ∈ fates, ∃ call landed, fate call = .stopped landed) ∧
    (q.2.poisoned = true → s.poisoned = true ∨
      ∃ e, q.1 = .err e ∧ SegmentedStore.ManifestError e) ∧
    (q.2.walPoisoned = true → s.walPoisoned = true ∨
      ∃ e, q.1 = .err e ∧ (Proc.armed s fates).LogError e) ∧
    (s.poisoned = false → s.walPoisoned = true → cmd.ops ≠ [] →
      q = (.err SegmentedStore.walPoisonedError, Proc.armed s fates)) ∧
    (cmd = .checkpoint → q.1 = .ok () → q.2.walPoisoned = false) ∧
    (s.poisoned = false → (cmd.ops ≠ [] → s.walPoisoned = false) →
      (∀ fate ∈ fates, ∀ call, fate call = .done) → q.1 = .ok ()) := by
  intro q
  have hblames := SegmentedStore.exec_blames st cmd (Proc.armed s fates)
  have hstop : q.1 = .crash → ∃ fate ∈ fates, ∃ call landed, fate call = .stopped landed := by
    intro hcrash
    cases hblames.stop hcrash with
    | stop hstop => exact hstop
  have hspoils := (SegmentedStore.partwise_spoils st).exec cmd (Proc.armed s fates)
  have hspoilsLog := (SegmentedStore.partwise_spoilsLog st).exec cmd (Proc.armed s fates)
  refine ⟨hblames.error, hstop, hspoils.raised, hspoilsLog.raised, ?_, ?_, ?_⟩
  · exact fun hhealthy hwal hlogs =>
      SegmentedStore.exec_refused st (s := Proc.armed s fates) hhealthy hwal hlogs
  · rintro rfl
    exact SegmentedStore.checkpoint_renewsLog st (Proc.armed s fates)
  intro hhealthy hlog hkind
  cases hq : q.1 with
  | ok u => rfl
  | err e =>
      cases hblames.error e hq with
      | poisoned hpoisoned => exact absurd hpoisoned (by simp [Proc.armed, hhealthy])
      | wal hlogs hpoisoned => exact absurd hpoisoned (by simp [Proc.armed, hlog hlogs])
      | log _ herror =>
          obtain ⟨fate, hfate, call, landed, -, hfailed⟩ := herror
          rw [hkind fate hfate] at hfailed
          cases hfailed
      | segment id hfate hfailed =>
          rw [hkind _ hfate] at hfailed
          cases hfailed
      | manifest hfate hfailed =>
          rw [hkind _ hfate] at hfailed
          cases hfailed
  | crash =>
      obtain ⟨fate, hfate, call, landed, hstopped⟩ := hstop hq
      rw [hkind fate hfate] at hstopped
      cases hstopped

end Segstore
