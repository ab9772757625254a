import Segstore.Kernel.Tandem
import Segstore.System.Readers

/-!
# A batch and its items one by one

`extend` appends a whole batch before it syncs the log; `add` syncs each record.
Without faults both lead to the same memory and the same files, apart from the
marks of how far a log is synced.  The two runs go side by side: their
directories are `Alike` all the time, so every merge and every checkpoint that
the batch causes on the way happens in both.
-/

namespace Segstore

variable {Id Item Seg F : Type}

/-! ## Directories -/

/-- The file without the mark of how far a log is synced. -/
def File.unmarked : File Id Item Seg → File Id Item Seg
  | .log l => .log { l with synced := 0 }
  | file => file

/-- Two directory contents that differ in the marks of their logs only. -/
def SameFiles (files files' : Files Id Item Seg) : Prop :=
  ∀ name, (files.lookup name).map File.unmarked = (files'.lookup name).map File.unmarked

namespace SameFiles

variable {files files' : Files Id Item Seg}

theorem insert (h : SameFiles files files') (name : String) {file file' : File Id Item Seg}
    (hfile : file.unmarked = file'.unmarked) :
    SameFiles (files.insert name file) (files'.insert name file') := by
  intro n
  rw [FinMap.lookup_insert_eq, FinMap.lookup_insert_eq]
  split
  · rw [Option.map_some, Option.map_some, hfile]
  · exact h n

theorem erase (h : SameFiles files files') (name : String) :
    SameFiles (files.erase name) (files'.erase name) := by
  intro n
  rw [FinMap.lookup_erase_eq, FinMap.lookup_erase_eq]
  split
  · rfl
  · exact h n

theorem symm (h : SameFiles files files') : SameFiles files' files :=
  fun name => (h name).symm

theorem checkpoint (h : SameFiles files files') (name : String) (lastAppliedId : Nat)
    (payload : Payload Id Seg) : files.lookup name = some (.checkpoint lastAppliedId payload) ↔
      files'.lookup name = some (.checkpoint lastAppliedId payload) := by
  have honly : ∀ file : Option (File Id Item Seg), file = some (.checkpoint lastAppliedId payload) ↔
      file.map File.unmarked = some (.checkpoint lastAppliedId payload) := by
    rintro (- | - | - | -) <;> simp [File.unmarked]
  rw [honly, h name, ← honly]

theorem records (h : SameFiles files files') (name : String) :
    (Directory.logOf files name).records = (Directory.logOf files' name).records := by
  have hname := h name
  rw [Directory.logOf, Directory.logOf]
  cases hfile : files.lookup name with
  | none =>
      rw [hfile, Option.map_none, eq_comm, Option.map_eq_none_iff] at hname
      rw [hname]
  | some file =>
      rw [hfile, Option.map_some, eq_comm, Option.map_eq_some_iff] at hname
      obtain ⟨file', hfile', hsame⟩ := hname
      rw [hfile']
      cases file <;> cases file' <;> simp_all [File.unmarked]

end SameFiles

/-- Directories without faults to come whose contents differ in the marks of
their logs only. -/
structure Directory.Alike (d d' : Directory Id Item Seg) : Prop where
  calm : d.Calm
  calm' : d'.Calm
  backed : d.fileBacked = d'.fileBacked
  files : SameFiles d.files d'.files

namespace Directory

/-- Without faults a change is carried out. -/
theorem Calm.perform {d : Directory Id Item Seg} (h : d.Calm) (call : Call)
    (torn whole : Files Id Item Seg → Files Id Item Seg) :
    perform call torn whole d = (.ok (), d.become (whole d.files)) ∧
      (d.become (whole d.files)).Calm := by
  rw [Calm] at h
  constructor
  · rw [Directory.perform, nextFate, h]
  · rw [Calm, become, h]
    rfl

/-- Two changes of the directory that lead to the same files. -/
theorem perform_tandem (call : Call)
    {torn whole torn' whole' : Files Id Item Seg → Files Id Item Seg}
    (hwhole : ∀ files files', SameFiles files files' → SameFiles (whole files) (whole' files')) :
    Tandem Alike (perform call torn whole) (perform call torn' whole') := by
  intro d d' h
  obtain ⟨hrun, hcalm⟩ := h.calm.perform call torn whole
  obtain ⟨hrun', hcalm'⟩ := h.calm'.perform call torn' whole'
  exact ⟨(), _, _, hrun, hrun', hcalm, hcalm', h.backed, hwhole _ _ h.files⟩

theorem writeCheckpoint_tandem (name : String) (lastAppliedId : Nat) (payload : Payload Id Seg) :
    Tandem (Alike : Directory Id Item Seg → _ → Prop) (writeCheckpoint name lastAppliedId payload)
      (writeCheckpoint name lastAppliedId payload) :=
  perform_tandem .write fun _ _ h => (h.erase _).insert name rfl

theorem appendLog_tandem (name : String) (op : Op Id Item) :
    Tandem (Alike : Directory Id Item Seg → _ → Prop) (appendLog name op) (appendLog name op) := by
  refine perform_tandem .append fun files files' h => h.insert name ?_
  simp only [File.unmarked, RecordLog.append, h.records name]

/-- Syncing a log changes its mark only. -/
theorem flushLog_tandem (name : String) :
    Tandem (Alike : Directory Id Item Seg → _ → Prop) (flushLog name) (pure ()) := by
  intro d d' h
  obtain ⟨hrun, hcalm⟩ := h.calm.perform .flush id _
  refine ⟨(), _, d', hrun, rfl, hcalm, h.calm', h.backed, fun n => ?_⟩
  rw [← h.files n, become]
  split
  · rename_i log hlog
    rw [FinMap.lookup_insert_eq]
    split
    · rename_i hn
      rw [hn, hlog]
      rfl
    · rfl
  · rfl

theorem Calm.obliging {d : Directory Id Item Seg} (h : d.Calm) : d.Obliging := by
  intro fate hfate
  rw [show d.fates = [] from h] at hfate
  cases hfate

/-- Garbage collection deletes the same names on both sides. -/
theorem collectGarbage_tandem (garbage : List String) (test : String → Bool) :
    Tandem (Alike : Directory Id Item Seg → _ → Prop) (collectGarbage garbage test)
      (collectGarbage garbage test) := by
  have hone : ∀ {d : Directory Id Item Seg}, d.Calm → ∃ d₁,
      collectGarbage garbage test d = (.ok (), d₁) ∧ d₁.Calm ∧ d₁.fileBacked = d.fileBacked ∧
        ∀ name, d₁.files.lookup name =
          if name ∈ garbage ∨ test name = true then none else d.files.lookup name := by
    intro d hcalm
    have hends := (collectGarbage_returns garbage test d hcalm).and
      (collectGarbage_deletes garbage test d)
    obtain ⟨⟨⟨⟨⟩, hok⟩, hcalm₁⟩, hsteps, -, hgone⟩ := hends
    refine ⟨_, Prod.ext hok rfl, hcalm₁, hsteps.fileBacked, fun name => ?_⟩
    split
    · exact hgone hcalm.obliging hok name ‹_›
    · exact hsteps.trimmed.eq ‹_›
  intro d d' h
  obtain ⟨d₁, hrun, hcalm, hbacked, hfiles⟩ := hone h.calm
  obtain ⟨d₁', hrun', hcalm', hbacked', hfiles'⟩ := hone h.calm'
  refine ⟨(), d₁, d₁', hrun, hrun', hcalm, hcalm', ?_, fun name => ?_⟩
  · rw [hbacked, hbacked', h.backed]
  · rw [hfiles, hfiles']
    split
    · rfl
    · exact h.files name

end Directory

/-! ## The writer -/

/-- Healthy writers with the same memory, whose directories are alike. -/
def SameWriter (s t : SegmentedStore Id Item Seg F) : Prop :=
  ∃ d, t = { s with dir := d } ∧ s.dir.Alike d ∧ s.Healthy

instance : Std.Symm (SameWriter : SegmentedStore Id Item Seg F → _ → Prop) where
  symm := by
    rintro s _ ⟨d, rfl, hd, hhealthy⟩
    exact ⟨s.dir, rfl, ⟨hd.calm', hd.calm, hd.backed.symm, hd.files.symm⟩, hhealthy⟩

namespace SegmentedStore

theorem onDir_tandem {α : Type} {p q : DirM Id Item Seg α}
    (h : Tandem Directory.Alike p q) : Tandem (SameWriter (F := F)) (onDir p) (onDir q) := by
  refine .zoom h ?_ ?_
  · rintro s _ ⟨d, rfl, hd, -⟩
    exact hd
  · rintro s _ ⟨d, rfl, -, hhealthy⟩ u v huv
    exact ⟨v, rfl, huv, hhealthy⟩

/-- Both memories change in the same way. -/
theorem update_tandem (g : SegmentedStore Id Item Seg F → SegmentedStore Id Item Seg F)
    (hdir : ∀ s d, g { s with dir := d } = { g s with dir := d })
    (hkept : ∀ s, (g s).dir = s.dir) (hhealthy : ∀ s, s.Healthy → (g s).Healthy) :
    Tandem SameWriter (Eff.update g : StoreM Id Item Seg F Unit) (Eff.update g) := by
  refine .update ?_
  rintro s _ ⟨d, rfl, hd, hs⟩
  exact ⟨d, hdir s d, by rwa [hkept], hhealthy s hs⟩

theorem onContents_tandem (f : Contents Id Item Seg → Contents Id Item Seg) :
    Tandem (SameWriter (F := F)) (onContents f) (onContents f) :=
  update_tandem _ (fun _ _ => rfl) (fun _ => rfl) fun _ h => h

theorem checkPoisoned_tandem :
    Tandem (SameWriter : SegmentedStore Id Item Seg F → _ → Prop) checkPoisoned (pure ()) := by
  rintro s t ⟨d, rfl, hd, hhealthy⟩
  exact ⟨(), s, _, checkPoisoned_passes hhealthy.1, rfl, d, rfl, hd, hhealthy⟩

theorem syncWal_tandem :
    Tandem (SameWriter : SegmentedStore Id Item Seg F → _ → Prop) syncWal (pure ()) := by
  rintro s _ ⟨d, rfl, hd, hhealthy⟩
  obtain ⟨⟨⟩, d₁, d₁', hrun, hrun', hd'⟩ := Directory.flushLog_tandem s.wal _ _ hd
  obtain rfl : d = d₁' := congrArg Prod.snd hrun'
  exact ⟨(), _, _, onWal_ok hhealthy.2 hrun, rfl, _, rfl, hd', hhealthy⟩

theorem appendWal_tandem (op : Op Id Item) :
    Tandem (SameWriter : SegmentedStore Id Item Seg F → _ → Prop) (appendWal op)
      (appendWal op) := by
  rintro s _ ⟨d, rfl, hd, hhealthy⟩
  obtain ⟨⟨⟩, d₁, d₁', hrun, hrun', hd'⟩ := Directory.appendLog_tandem s.wal op _ _ hd
  exact ⟨(), _, _, onWal_ok hhealthy.2 hrun,
    onWal_ok (s := { s with dir := d }) hhealthy.2 hrun', _, rfl, hd', hhealthy⟩

theorem persistSegment_tandem (id : Nat) (seg : Seg) :
    Tandem (SameWriter : SegmentedStore Id Item Seg F → _ → Prop) (persistSegment id seg)
      (persistSegment id seg) := by
  refine .bind (.mapErr (onDir_tandem (Directory.writeCheckpoint_tandem _ _ _))) fun _ => ?_
  exact update_tandem _ (fun _ _ => rfl) (fun _ => rfl) fun _ h => h

theorem persistAll_tandem (todo : List (Nat × Seg)) :
    Tandem (SameWriter : SegmentedStore Id Item Seg F → _ → Prop) (persistAll todo)
      (persistAll todo) := by
  induction todo with
  | nil => exact .pure ()
  | cons p todo ih => exact .bind (persistSegment_tandem p.1 p.2) fun _ => ih

theorem writeManifest_tandem :
    Tandem (SameWriter : SegmentedStore Id Item Seg F → _ → Prop) writeManifest
      writeManifest := by
  refine .bind (onContents_tandem _) fun _ => .get_bind ?_
  rintro s _ ⟨d, rfl, -, -⟩
  exact .attempt_bind (onDir_tandem (Directory.writeCheckpoint_tandem _ _ _)) fun _ => .pure ()

theorem gcOrphanSegments_tandem (keep : List Nat) (garbage : List String) :
    Tandem (SameWriter : SegmentedStore Id Item Seg F → _ → Prop)
      (gcOrphanSegments keep garbage) (gcOrphanSegments keep garbage) := by
  refine .bind (update_tandem _ (fun _ _ => rfl) (fun _ => rfl) fun _ h => h) fun _ => ?_
  exact onDir_tandem (Directory.collectGarbage_tandem _ _)

variable [DecidableEq Id] (st : Store Id Item Seg)

theorem checkpoint_tandem :
    Tandem (SameWriter (F := F)) (checkpoint st) (checkpoint st) := by
  refine .left checkPoisoned_tandem (.right checkPoisoned_tandem.symm ?_)
  refine .bind (onContents_tandem _) fun _ => .get_bind ?_
  rintro s _ ⟨d, rfl, -, -⟩
  refine .bind (persistAll_tandem s.toWrite) fun _ => .bind writeManifest_tandem fun _ => ?_
  refine .bind (update_tandem _ (fun _ _ => rfl) (fun _ => rfl) fun _ h => ⟨h.1, rfl⟩) fun _ => ?_
  refine .bind (gcOrphanSegments_tandem _ _) fun _ => ?_
  exact update_tandem _ (fun _ _ => rfl) (fun _ => rfl) fun _ h => h

theorem mergeGroup_tandem (indices : List Nat) :
    Tandem (SameWriter (F := F)) (mergeGroup st indices) (mergeGroup st indices) := by
  refine .get_bind ?_
  rintro s _ ⟨d, rfl, -, -⟩
  refine .bind (.get_bind ?_) fun _ => .pure _
  rintro t _ ⟨d', rfl, -, -⟩
  refine .ite (fun _ => ?_) fun _ => onContents_tandem _
  exact .bind (onContents_tandem _) fun _ => .bind (persistSegment_tandem _ _) fun _ =>
    onContents_tandem _

omit [DecidableEq Id] in
theorem withSegmentsAfter_tandem (stats : CompactionStats) :
    Tandem (SameWriter : SegmentedStore Id Item Seg F → _ → Prop) (withSegmentsAfter stats)
      (withSegmentsAfter stats) := by
  refine .get_bind ?_
  rintro s _ ⟨d, rfl, -, -⟩
  exact .pure _

theorem finishCompaction_tandem (stats : CompactionStats) :
    Tandem (SameWriter (F := F)) (finishCompaction st stats) (finishCompaction st stats) := by
  unfold finishCompaction
  refine .ite (fun _ => ?_) fun _ => withSegmentsAfter_tandem _
  exact .bind (checkpoint_tandem st) fun _ => withSegmentsAfter_tandem _

variable [F64 F]

theorem tierLoop_tandem (fuel : Nat) (stats : CompactionStats) :
    Tandem (SameWriter (F := F)) (tierLoop st fuel stats) (tierLoop st fuel stats) := by
  induction fuel generalizing stats with
  | zero => exact .pure _
  | succ fuel ih =>
      refine .get_bind ?_
      rintro s _ ⟨d, rfl, -, -⟩
      dsimp only
      cases s.nextMergeGroup st s.opts.tiering s.opts.flushThreshold with
      | none => exact .pure _
      | some group => exact .bind (mergeGroup_tandem st group) fun _ => ih _

theorem compactTiers_tandem :
    Tandem (SameWriter (F := F)) (compactTiers st) (compactTiers st) := by
  refine .bind (.bind (onContents_tandem _) fun _ => .get_bind ?_) fun _ =>
    finishCompaction_tandem st _
  rintro s _ ⟨d, rfl, -, -⟩
  exact tierLoop_tandem st _ _

/-- The batch syncs before it compacts; the single write has synced already. -/
theorem sealAndCompact_tandem :
    Tandem (SameWriter (F := F)) (sealAndCompact st syncWal) (sealAndCompact st (pure ())) := by
  refine .get_bind ?_
  rintro s _ ⟨d, rfl, -, -⟩
  refine .ite (fun _ => ?_) fun _ => .pure ()
  refine .bind (onContents_tandem _) fun _ => .get_bind ?_
  rintro t _ ⟨d', rfl, -, -⟩
  refine .ite (fun _ => ?_) fun _ => .pure ()
  exact .bind syncWal_tandem fun _ => .bind (compactTiers_tandem st) fun _ => .pure ()

/-- One round of a batch goes along with one `add`. -/
theorem extendItem_tandem (id : Id) (item : Item) :
    Tandem (SameWriter (F := F)) (extendItem st id item) (add st id item) := by
  refine .right checkPoisoned_tandem.symm (.bind (appendWal_tandem _) fun _ => ?_)
  exact .right syncWal_tandem.symm (.bind (onContents_tandem _) fun _ => sealAndCompact_tandem st)

theorem extendItems_tandem (items : List (Id × Item)) :
    Tandem (SameWriter (F := F)) (extendItems st items)
      (items.forM fun e => add st e.1 e.2) := by
  induction items with
  | nil => exact .pure ()
  | cons e items ih => exact .bind (extendItem_tandem st e.1 e.2) fun _ => ih

/-- A batch goes along with its items one by one. -/
theorem extend_tandem (items : List (Id × Item)) :
    Tandem (SameWriter (F := F)) (extend st items) (items.forM fun e => add st e.1 e.2) := by
  refine .left checkPoisoned_tandem ?_
  rw [← bind_pure (items.forM fun e => add st e.1 e.2)]
  refine .bind (extendItems_tandem st items) fun _ => ?_
  split
  · exact .pure ()
  · exact syncWal_tandem

end SegmentedStore

/-! ## A poisoned log writer -/

/-- A batch is refused as its first item is. -/
theorem extend_refused [DecidableEq Id] [F64 F] (st : Store Id Item Seg)
    {s : SegmentedStore Id Item Seg F} (hhealthy : s.poisoned = false)
    (hwal : s.walPoisoned = true) {items : List (Id × Item)} (hitems : items ≠ []) :
    SegmentedStore.extend st items s = (.err SegmentedStore.walPoisonedError, s) ∧
      (items.forM fun e => SegmentedStore.add st e.1 e.2) s =
        (.err SegmentedStore.walPoisonedError, s) := by
  have hrefused : ∀ cmd : Cmd Id Item F, cmd.ops ≠ [] →
      cmd.exec st s = (.err SegmentedStore.walPoisonedError, s) := fun _ hcmd =>
    SegmentedStore.exec_refused st hhealthy hwal hcmd
  obtain ⟨e, rest, rfl⟩ := List.exists_cons_of_ne_nil hitems
  refine ⟨hrefused (.extend (e :: rest)) (List.cons_ne_nil _ _), ?_⟩
  exact Eff.bind_eq_err.mpr (.inl (hrefused (.add e.1 e.2) (List.cons_ne_nil _ _)))

/-! ## The end of both -/

variable [DecidableEq Id] [F64 F]

/-- From every healthy writer, when nothing fails, a batch and its items one by
one return with the same memory.  The files are the same, logs record for
record, apart from the marks of how far the logs are synced.  Only a log writer that
is poisoned itself keeps them from returning, and both in the same way. -/
theorem extend_eq_adds (st : Store Id Item Seg) (s : SegmentedStore Id Item Seg F)
    (hhealthy : s.poisoned = false) (items : List (Id × Item)) :
    ∃ r t t', SegmentedStore.extend st items (Proc.armed s []) = (r, t) ∧
      (items.forM fun e => SegmentedStore.add st e.1 e.2) (Proc.armed s []) = (r, t') ∧
      (s.walPoisoned = false ∨ items = [] → r = .ok ()) ∧ t' = { t with dir := t'.dir } ∧
      (∀ name lastAppliedId payload,
        t.dir.files.lookup name = some (.checkpoint lastAppliedId payload) ↔
          t'.dir.files.lookup name = some (.checkpoint lastAppliedId payload)) ∧
      (∀ name, (Directory.logOf t.dir.files name).records =
        (Directory.logOf t'.dir.files name).records) ∧
      SameFiles t.dir.files t'.dir.files := by
  by_cases hwal : s.walPoisoned = false
  · have hstart : SameWriter (Proc.armed s []) (Proc.armed s []) :=
      ⟨_, rfl, ⟨rfl, rfl, rfl, fun _ => rfl⟩, hhealthy, hwal⟩
    obtain ⟨⟨⟩, t, t', hextend, hadds, d, rfl, hd, -⟩ :=
      SegmentedStore.extend_tandem st items _ _ hstart
    exact ⟨_, t, _, hextend, hadds, fun _ => rfl, rfl, hd.files.checkpoint, hd.files.records,
      hd.files⟩
  replace hwal := eq_true_of_ne_false hwal
  by_cases hitems : items = []
  · subst hitems
    have hcheck := SegmentedStore.checkPoisoned_passes (s := Proc.armed s []) hhealthy
    exact ⟨.ok (), _, _, Eff.bind_of_ok hcheck _, rfl, fun _ => rfl, rfl, fun _ _ _ => .rfl,
      fun _ => rfl, fun _ => rfl⟩
  · obtain ⟨hextend, hadds⟩ := extend_refused st (s := Proc.armed s []) hhealthy hwal hitems
    exact ⟨_, _, _, hextend, hadds, by simp [hwal, hitems], rfl, fun _ _ _ => .rfl,
      fun _ => rfl, fun _ => rfl⟩

/-- A batch that compacts on its way, with one id twice. -/
theorem extend_eq_adds_twice :
    ∃ s t t' : SegmentedStore Nat Nat (List (Nat × Nat)) Rat,
      (Proc.run (defaultStore Nat Nat) (.fresh false) [] [.reopen eager 0 []]).1 = .running s ∧
      SegmentedStore.extend (defaultStore Nat Nat) [(1, 1), (2, 2), (1, 3)] (Proc.armed s []) =
        (.ok (), t) ∧
      ([(1, 1), (2, 2), (1, 3)].forM fun e => SegmentedStore.add (defaultStore Nat Nat) e.1 e.2)
        (Proc.armed s []) = (.ok (), t') ∧
      t.epoch = 1 ∧ t' = { t with dir := t'.dir } ∧ SameFiles t.dir.files t'.dir.files := by
  obtain ⟨s, hs, hok⟩ := Proc.holds_iff.mp
    (show (Proc.run (defaultStore Nat Nat) (.fresh false) [] [.reopen eager 0 []]).1.holds
      (fun s => decide (s.poisoned = false ∧ s.walPoisoned = false ∧
        (SegmentedStore.extend (defaultStore Nat Nat) [(1, 1), (2, 2), (1, 3)]
          (Proc.armed s [])).2.epoch = 1)) = true by decide +kernel)
  obtain ⟨hhealthy, hwal, hepoch⟩ := of_decide_eq_true hok
  obtain ⟨r, t, t', ht, ht', hreturned, hmem, -, -, hfiles⟩ :=
    extend_eq_adds (defaultStore Nat Nat) s hhealthy [(1, 1), (2, 2), (1, 3)]
  rw [ht] at hepoch
  rw [hreturned (.inl hwal)] at ht ht'
  exact ⟨s, t, t', hs, ht, ht', hepoch, hmem, hfiles⟩

end Segstore
