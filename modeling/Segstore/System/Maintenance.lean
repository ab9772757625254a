import Segstore.System.LiveMap
import Segstore.Writer.Memory

/-!
# Maintenance that fails

Checkpoints and compactions that return an error.  As long as no write has
failed, memory holds what the image and the live log make together: a new
process on the same directory would hold the same map.  Every move of a
compaction or a checkpoint keeps it so.
-/

namespace Segstore

variable {Id Item F : Type} [DecidableEq Id]

/-! ## Memory and directory hold one map -/

/-- Memory holds the map, and so do the image and the log together. -/
structure Mirrored (m : Id → Option Item) (l : Ledger Id Item (List (Id × Item))) : Prop where
  memory : l.contents.Stores m
  disk : ∃ boot base, l.image.boot (defaultStore Id Item) l.image.segments = .ok boot ∧
    boot.Stores base ∧ m = history base l.log.records

namespace Mirrored

variable {m : Id → Option Item} {l l' : Ledger Id Item (List (Id × Item))}

theorem move (h : Mirrored m l) (hmove : Ledger.Move (defaultStore Id Item) l l') :
    Mirrored m l' := by
  cases hmove with
  | flush => exact ⟨h.memory.flushBuffer, h.disk⟩
  | alloc => exact ⟨h.memory.allocId, h.disk⟩
  | merge indices hpos => exact ⟨h.memory.merge hpos.1, h.disk⟩
  | compacted hbuffer => exact ⟨h.memory.compacted, h.disk⟩
  | prune => exact ⟨h.memory.retainSuperseded, h.disk⟩
  | sync => exact ⟨h.memory, h.disk⟩
  | commit hbuffer =>
      obtain ⟨boot, hboot, hsame⟩ := h.memory.tracked.reload hbuffer (l.image.epoch + 1)
      exact ⟨h.memory, boot, m, hboot, hsame.stores h.memory, rfl⟩
  | publish => exact ⟨h.memory, h.disk⟩

theorem moves (h : Mirrored m l) (hmoves : Ledger.Moves (defaultStore Id Item) l l') :
    Mirrored m l' := by
  induction hmoves with
  | refl => exact h
  | tail _ hmove ih => exact ih.move hmove

/-- An operation that is logged and applied. -/
theorem apply (h : Mirrored m l) (op : Op Id Item) :
    Mirrored (op.write.run m) ((l.append op).apply op) := by
  obtain ⟨boot, base, hboot, hbase, hm⟩ := h.disk
  refine ⟨h.memory.apply op, boot, base, hboot, hbase, ?_⟩
  show _ = history base (l.log.records ++ [op])
  rw [history_concat, hm]

theorem logged {ops : List (Op Id Item)} (h : Mirrored m l)
    (hlogged : Ledger.Logged (defaultStore Id Item) l ops l') : ∃ m', Mirrored m' l' := by
  induction hlogged generalizing m with
  | done => exact ⟨m, h⟩
  | step hmoves _ ih => exact ih ((h.apply _).moves hmoves)

/-- A call that returned. -/
theorem acknowledge {ops : List (Op Id Item)} (h : Mirrored m l)
    (hacked : Ledger.Acked (defaultStore Id Item) l ops l') : ∃ m', Mirrored m' l' := by
  rcases hacked with ⟨-, hmoves⟩ | ⟨l₁, hlogged, hmoves⟩
  · exact ⟨m, h.moves hmoves⟩
  · obtain ⟨m', h'⟩ := h.logged hlogged
    exact ⟨m', (h'.move (.sync l₁)).moves hmoves⟩

/-- A call without operations, however it ended. -/
theorem issue_nil (h : Mirrored m l)
    (hissued : Ledger.Issued (defaultStore Id Item) l [] l') : Mirrored m l' := by
  cases hissued with
  | none hmoves => exact h.moves hmoves

/-- Replay makes memory hold what image and log make. -/
theorem start {im : Image Id (List (Id × Item))}
    {boot : Contents Id Item (List (Id × Item))} {base : Id → Option Item}
    (hboot : im.boot (defaultStore Id Item) im.segments = .ok boot) (hbase : boot.Stores base)
    (flushThreshold : Nat) (log : RecordLog Id Item) (published : PubState Id _) :
    Mirrored (history base log.records) {
      contents := boot.replay (defaultStore Id Item) flushThreshold log.records
      image := im
      log := log
      published := published } :=
  ⟨hbase.replay flushThreshold log.records, boot, base, hboot, hbase, rfl⟩

end Mirrored

/-! ## Runs in which no write fails -/

/-- A checkpoint or a compaction. -/
def Cmd.Maintains : Cmd Id Item F → Prop
  | .add _ _ => False
  | .extend _ => False
  | .delete _ => False
  | _ => True

omit [DecidableEq Id] in
theorem Cmd.Maintains.ops_eq {cmd : Cmd Id Item F} (h : cmd.Maintains) : cmd.ops = [] := by
  cases cmd with
  | add id item => exact h.elim
  | extend items => exact h.elim
  | delete id => exact h.elim
  | _ => rfl

variable [F64 F]

/-- A failed checkpoint or compaction has published nothing. -/
theorem exec_onError {Seg : Type} (st : Store Id Item Seg) {cmd : Cmd Id Item F}
    (h : cmd.Maintains) : RespectsOnError Unpublished (cmd.exec st) := by
  have hunit : ∀ {α : Type} (_ : α) (s : SegmentedStore Id Item Seg F),
      Ends (pure () : StoreM Id Item Seg F Unit) s (fun r _ => ∀ e, r ≠ .err e) :=
    fun _ _ => Ends.pure_iff.mpr (by simp)
  cases cmd with
  | add id item => exact h.elim
  | extend items => exact h.elim
  | delete id => exact h.elim
  | checkpoint => exact SegmentedStore.checkpoint_onError st
  | compact => exact (SegmentedStore.compact_onError st).bind hunit
  | compactTiers => exact (SegmentedStore.compactTiers_onError st).bind hunit
  | forceMergeTo maxSegments =>
      exact (SegmentedStore.forceMergeTo_onError st maxSegments).bind hunit
  | reclaimTombstones minLiveRatio =>
      exact (SegmentedStore.reclaimTombstones_onError st minLiveRatio).bind hunit

namespace Proc

/-- The event is a write that returns an error. -/
def FailsWrite {Seg : Type} (st : Store Id Item Seg) :
    Proc Id Item Seg F → Event Id Item F → Prop
  | .running s, .call cmd fates =>
      ¬ cmd.Maintains ∧ ∃ e, (cmd.exec st (armed s fates)).1 = .err e
  | _, _ => False

/-- No write of the run returns an error. -/
def WritesReturn {Seg : Type} (st : Store Id Item Seg) :
    Proc Id Item Seg F → List (Event Id Item F) → Prop
  | _, [] => True
  | p, e :: events => ¬ p.FailsWrite st e ∧ WritesReturn st (step st p e).1 events

/-- The writer, if there is one, is in agreement with its directory, and mirrored
by it. -/
def Mirrors (p : Proc Id Item (List (Id × Item)) F) : Prop :=
  ∀ s, p = .running s → ∃ im m, Framed s im ∧ Current s im ∧ Bounded s ∧
    Mirrored m (s.ledger im)

/-- One event. -/
theorem Mirrors.step {p : Proc Id Item (List (Id × Item)) F} (h : p.Mirrors)
    {fileBacked : Bool} {issued : List (Op Id Item × Bool)} (hsound : p.Sound fileBacked issued)
    {e : Event Id Item F} (he : ¬ p.FailsWrite (defaultStore Id Item) e) :
    (Proc.step (defaultStore Id Item) p e).1.Mirrors := by
  cases e with
  | call cmd fates =>
      cases p with
      | closed d => exact h
      | running s =>
          obtain ⟨im, m, hframed, hcur, hb, hm⟩ := h s rfl
          obtain ⟨im', ht, hcur', -, hb', hissued, hok⟩ :=
            Resilient.armed_exec_ends (defaultStore Id Item) hframed hcur hb cmd fates
          simp only [FailsWrite, not_and, not_exists] at he
          simp only [Proc.step]
          generalize (cmd.exec (defaultStore Id Item) (armed s fates)).1 = r at *
          generalize (cmd.exec (defaultStore Id Item) (armed s fates)).2 = t at *
          cases r with
          | ok u =>
              rintro t ⟨⟩
              obtain ⟨m', hm'⟩ := hm.acknowledge (hok rfl).2.1
              exact ⟨im', m', ht, hcur' (by simp), hb', hm'⟩
          | err e =>
              rintro t ⟨⟩
              have hmaintains : cmd.Maintains := by
                by_contra hno
                exact he hno e rfl
              rw [hmaintains.ops_eq] at hissued
              exact ⟨im', m, ht, hcur' (by simp), hb', hm.issue_nil hissued⟩
          | crash =>
              rintro t ⟨⟩
  | reopen opts keep fates =>
      obtain ⟨-, im, hcoh, ops, hrec⟩ := resilient_survives.drop hsound
      obtain ⟨boot, hboot, hstores⟩ := hrec.boots
      obtain ⟨-, -, -, hopened⟩ :=
        step_reopen_ends (defaultStore Id Item) p hcoh opts keep fates
      intro s hs
      obtain ⟨hframed, hcur, hb, boot', hboot', hledger⟩ := hopened s hs
      rw [hboot] at hboot'
      cases hboot'
      have hstart := Mirrored.start hboot hstores opts.flushThreshold
        ((Directory.logOf p.dir.files (walPath im.epoch)).settled keep) boot.toPubState
      exact ⟨im, _, hframed, hcur, hb, hledger ▸ hstart⟩

theorem Mirrors.run {events : List (Event Id Item F)}
    {p : Proc Id Item (List (Id × Item)) F} (h : p.Mirrors) {fileBacked : Bool}
    {issued : List (Op Id Item × Bool)} (hsound : p.Sound fileBacked issued)
    (hevents : p.WritesReturn (defaultStore Id Item) events) :
    (Proc.run (defaultStore Id Item) p issued events).1.Mirrors := by
  induction events generalizing p issued with
  | nil => exact h
  | cons e events ih =>
      exact ih (h.step hsound hevents.1) (resilient_survives.step hsound e) hevents.2

end Proc

/-! ## Failed maintenance -/

/-- A checkpoint or a compaction that returns an error, after a run in which no
write did: the live map, the view and the epoch are those before the call, and
whoever opens the directory finds that map. -/
theorem failed_maintenance_keeps_data (fileBacked : Bool) (events : List (Event Id Item F))
    (hevents : (Proc.fresh fileBacked).WritesReturn (defaultStore Id Item) events)
    (s : SegmentedStore Id Item (List (Id × Item)) F)
    (hs : (Proc.run (defaultStore Id Item) (.fresh fileBacked) [] events).1 = .running s)
    (cmd : Cmd Id Item F) (hcmd : cmd.Maintains) (fates : List (Call → Fate))
    (e : PersistenceError) (t : SegmentedStore Id Item (List (Id × Item)) F)
    (ht : cmd.exec (defaultStore Id Item) (Proc.armed s fates) = (.err e, t)) :
    t.published = s.published ∧ t.epoch = s.epoch ∧
      ∃ m, Shown s.livePairs m ∧ Shown t.livePairs m ∧
        ∀ opts : Options F, (opts.sync = .fsync → fileBacked = true) →
          ∃ u d, openWithOptions (defaultStore Id Item) opts { t.dir with fates := [] } =
            (.ok u, d) ∧ Shown u.livePairs m := by
  have hsound := sound_run fileBacked events
  have hmirrors : (Proc.run (defaultStore Id Item) (.fresh fileBacked) [] events).1.Mirrors :=
    Proc.Mirrors.run (fun s hs => by cases hs) (sound_fresh fileBacked) hevents
  rw [hs] at hsound
  obtain ⟨hback, -⟩ := hsound
  obtain ⟨im, m, hframed, hcur, hb, hm⟩ := hmirrors s hs
  obtain ⟨im', hframed', -, hguar, -, hissued, -⟩ :=
    (Resilient.armed_exec_ends (defaultStore Id Item) hframed hcur hb cmd fates).of_run ht
  have hunpub := exec_onError (defaultStore Id Item) hcmd (Proc.armed s fates)
  rw [hcmd.ops_eq] at hissued
  have hm' := hm.issue_nil hissued
  obtain ⟨hpublished, hepoch⟩ := hunpub.of_run ht e rfl
  refine ⟨hpublished, hepoch, m, Contents.shown_livePairs hm.memory.tracked hm.memory.map,
    Contents.shown_livePairs hm'.memory.tracked hm'.memory.map, fun opts hfsync => ?_⟩
  obtain ⟨boot, base, hboot, hbase, hmap⟩ := hm'.disk
  have hcoh : ({ t.dir with fates := [] } : Directory Id Item (List (Id × Item))).Coherent im' :=
    hframed'.disk.congr rfl rfl
  have hopen := open_calm (defaultStore Id Item) hcoh rfl opts
    (fun hsync => (hguar.backed.trans hback).trans (hfsync hsync)) hboot
  have hstores := hbase.replay opts.flushThreshold
    (Directory.logOf t.dir.files (walPath im'.epoch)).records
  replace hmap : m = history base (Directory.logOf t.dir.files (walPath im'.epoch)).records :=
    hmap
  rw [← hmap] at hstores
  exact ⟨_, _, Prod.ext hopen.2 rfl, Contents.shown_livePairs hstores.tracked hstores.map⟩

/-- A checkpoint whose manifest write is refused, after a write. -/
theorem failed_maintenance_keeps_data_refused :
    ∃ s t : SegmentedStore Nat Nat (List (Nat × Nat)) Rat, ∃ e,
      Cmd.exec (defaultStore Nat Nat) .checkpoint
        (Proc.armed s [fun _ => .done, fun _ => .failed (.io "full") .everything]) = (.err e, t) ∧
      t.published = s.published ∧ t.epoch = s.epoch ∧
        ∃ m, Shown s.livePairs m ∧ Shown t.livePairs m := by
  have hrun : ∃ s, (Proc.run (defaultStore Nat Nat) (.fresh (F := Rat) false) []
      [.reopen (.new 2) 0 [], .call (.add 1 5) []]).1 = .running s := ⟨_, rfl⟩
  obtain ⟨s, hs⟩ := hrun
  have hevents : (Proc.fresh (F := Rat) false).WritesReturn (defaultStore Nat Nat)
      [.reopen (.new 2) 0 [], .call (.add 1 5) []] := by
    refine ⟨id, ?_, trivial⟩
    rintro ⟨-, e, he⟩
    cases he
  cases hs
  obtain ⟨hpublished, hepoch, m, hm, hm', -⟩ := failed_maintenance_keeps_data false
    [.reopen (.new 2) 0 [], .call (.add 1 5) []] hevents _ rfl .checkpoint trivial
    [fun _ => .done, fun _ => .failed (.io "full") .everything] _ _ rfl
  exact ⟨_, _, _, rfl, hpublished, hepoch, m, hm, hm'⟩

end Segstore
