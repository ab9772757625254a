import Segstore.Writer.Parts
import Segstore.Writer.Reopen

/-!
# Runs without faults

When every call on the directory is carried out, every call on a writer that is
not poisoned, and whose log writer is not, returns.
-/

namespace Segstore

variable {Id Item Seg F : Type}

/-! ## The directory -/

namespace Directory

/-- No fault is to come. -/
def Calm (d : Directory Id Item Seg) : Prop := d.fates = []

theorem perform_returns (call : Call) (torn whole : Files Id Item Seg → Files Id Item Seg) :
    Returns Calm (perform call torn whole) := by
  intro d hd
  rw [Calm] at hd
  unfold Ends perform
  rw [nextFate, hd]
  exact ⟨⟨(), rfl⟩, by rw [Calm, become, hd]; rfl⟩

theorem listDir_returns : Returns (Calm : Directory Id Item Seg → Prop) listDir :=
  fun _ hd => (((Reads.observe .list _).calm hd).mono fun _ _ h => ⟨⟨_, h.2⟩, h.1.calm hd⟩)

theorem deleteIfThere_returns (name : String) :
    Returns (Calm : Directory Id Item Seg → Prop) (deleteIfThere name) := by
  refine .read_bind fun there => ?_
  split
  · exact .attempt_bind (perform_returns _ _ _) fun _ => .pure _
  · exact .pure _

theorem deleteEach_returns (names : List String) :
    Returns (Calm : Directory Id Item Seg → Prop) (deleteEach names) := by
  induction names with
  | nil => exact .pure _
  | cons name names ih =>
      exact .bind (deleteIfThere_returns name) fun _ => .bind ih fun _ => .pure _

theorem collectGarbage_returns (garbage : List String) (test : String → Bool) :
    Returns (Calm : Directory Id Item Seg → Prop) (collectGarbage garbage test) := by
  refine .attempt_bind listDir_returns fun listed => .read_bind fun durable => ?_
  refine .bind (deleteEach_returns _) fun deleted => ?_
  split
  · exact .attempt_bind (perform_returns _ _ _) fun _ => .pure _
  · exact .pure _

end Directory

/-! ## The writer -/

namespace SegmentedStore

/-- Neither the writer nor its log writer is poisoned. -/
def Healthy (s : SegmentedStore Id Item Seg F) : Prop :=
  s.poisoned = false ∧ s.walPoisoned = false

/-- No fault is to come and none has poisoned the writer. -/
def Calm (s : SegmentedStore Id Item Seg F) : Prop := s.dir.Calm ∧ s.Healthy

theorem onDir_returns {α : Type} {p : DirM Id Item Seg α} (hp : Returns Directory.Calm p) :
    Returns (Calm (F := F)) (onDir p) :=
  .zoom hp (fun _ hs => hs.1) fun _ _ hs hd => ⟨hd, hs.2⟩

theorem onContents_returns (f : Contents Id Item Seg → Contents Id Item Seg) :
    Returns (Calm (F := F)) (onContents f) :=
  .update fun _ hs => hs

theorem checkPoisoned_returns :
    Returns (Calm : SegmentedStore Id Item Seg F → Prop) checkPoisoned := by
  intro s hs
  rw [checkPoisoned, Ends.read_bind_iff, hs.2.1]
  exact ⟨⟨(), rfl⟩, hs⟩

theorem onWal_returns {call : Call} {p : String → DirM Id Item Seg Unit}
    (hp : ∀ wal, Returns Directory.Calm (p wal)) : Returns (Calm (F := F)) (onWal call p) := by
  intro s hs
  rw [onWal, Ends.read_bind_iff, hs.2.2]
  exact Returns.get_bind (fun _ => .attempt_bind (onDir_returns (hp _)) fun _ => .pure ()) s hs

theorem appendWal_returns (op : Op Id Item) :
    Returns (Calm : SegmentedStore Id Item Seg F → Prop) (appendWal op) :=
  onWal_returns fun _ => Directory.perform_returns _ _ _

theorem syncWal_returns :
    Returns (Calm : SegmentedStore Id Item Seg F → Prop) syncWal :=
  onWal_returns fun _ => Directory.perform_returns _ _ _

theorem persistSegment_returns (id : Nat) (seg : Seg) :
    Returns (Calm : SegmentedStore Id Item Seg F → Prop) (persistSegment id seg) :=
  .bind (.mapErr (onDir_returns (Directory.perform_returns _ _ _))) fun _ =>
    .update fun _ hs => hs

theorem persistAll_returns (todo : List (Nat × Seg)) :
    Returns (Calm : SegmentedStore Id Item Seg F → Prop) (persistAll todo) := by
  induction todo with
  | nil => exact .pure ()
  | cons p todo ih => exact .bind (persistSegment_returns p.1 p.2) fun _ => ih

theorem writeManifest_returns :
    Returns (Calm : SegmentedStore Id Item Seg F → Prop) writeManifest :=
  .bind (onContents_returns _) fun _ => .get_bind fun _ =>
    .attempt_bind (onDir_returns (Directory.perform_returns _ _ _)) fun _ => .pure ()

theorem gcOrphanSegments_returns (keep : List Nat) (garbage : List String) :
    Returns (Calm : SegmentedStore Id Item Seg F → Prop)
      (gcOrphanSegments keep garbage) :=
  .bind (.update fun _ hs => hs) fun _ => onDir_returns (Directory.collectGarbage_returns _ _)

variable [DecidableEq Id] (st : Store Id Item Seg)

theorem checkpoint_returns : Returns (Calm (F := F)) (checkpoint st) :=
  .bind checkPoisoned_returns fun _ => .bind (onContents_returns _) fun _ =>
    .get_bind fun _ => .bind (persistAll_returns _) fun _ => .bind writeManifest_returns fun _ =>
      .bind (.update fun _ hs => ⟨hs.1, hs.2.1, rfl⟩) fun _ =>
        .bind (gcOrphanSegments_returns _ _) fun _ => .update fun _ hs => hs

/-- So does every call. -/
theorem partwise_returns : Partwise st (fun {_} p => Returns (Calm (F := F)) p) where
  toCompositional := Returns.compositional Calm
  checkPoisoned := checkPoisoned_returns
  contents := onContents_returns
  append := appendWal_returns
  sync := syncWal_returns
  persist := persistSegment_returns
  checkpoint := checkpoint_returns st

end SegmentedStore

variable [DecidableEq Id] (st : Store Id Item Seg)

omit [DecidableEq Id] in
/-- Without faults an atomic write is carried out. -/
theorem Directory.writeCheckpoint_calm {d : Directory Id Item Seg} (hcalm : d.Calm)
    (name : String) (lastAppliedId : Nat) (payload : Payload Id Seg) :
    Ends (writeCheckpoint name lastAppliedId payload) d (fun r d' => r = .ok () ∧ d'.Calm ∧
      AgreeOff [name, tmpPath name] d.files d'.files ∧
        d'.files.lookup name = some (.checkpoint lastAppliedId payload)) := by
  have hreturns : Returns (Calm : Directory Id Item Seg → Prop)
      (writeCheckpoint name lastAppliedId payload) := perform_returns _ _ _
  refine ((hreturns d hcalm).and (writeCheckpoint_ends name lastAppliedId payload d)).mono ?_
  rintro r d' ⟨⟨⟨⟨⟩, rfl⟩, hcalm'⟩, files, rfl, ⟨hr, -⟩ | ⟨hagree, hfile⟩⟩
  · exact absurd rfl hr
  · exact ⟨rfl, hcalm', hagree, hfile⟩

/-- A checkpoint of a writer with nothing to seal and nothing to write: the
directory stands for the image of its memory, whatever order the ids are in. -/
theorem SegmentedStore.checkpoint_idle {s : SegmentedStore Id Item Seg F} (hcalm : s.Calm)
    (hbuffer : s.buffer = []) (hpers : ∀ k ∈ s.segmentIds, k ∈ s.persistedIds)
    (hsegs : List.Forall₂ (fun k seg => segFile s.dir.files k = some seg)
      s.segmentIds s.segments) :
    Ends (checkpoint st) s (fun r t => r = .ok () ∧ t.dir.Calm ∧
      Shows t.dir.files (s.toContents.retainSuperseded.image (s.epoch + 1)) ∧
      t.dir.files.lookup MANIFEST_PATH ≠ none ∧
      t.dir.files.lookup LEGACY_WAL_PATH = s.dir.files.lookup LEGACY_WAL_PATH) := by
  have hwrite : s.toWrite = [] := by
    refine List.filter_eq_nil_iff.mpr fun p hp => ?_
    simpa using hpers p.1 (Contents.fst_mem_of_mem_sealed hp)
  rw [checkpoint]
  refine Ends.bind (R := fun r t => t = s ∧ r = .ok ()) ?_ ?_ (by simp) (by simp)
  · rw [checkPoisoned, Ends.read_bind_iff, hcalm.2.1]
    exact ⟨rfl, rfl⟩
  rintro ⟨⟩ t ⟨rfl, -⟩
  rw [onContents, Ends.update_bind_iff, Ends.get_bind_iff,
    Contents.flushBuffer_of_empty t.toContents st hbuffer, hwrite]
  refine Ends.pure_bind_iff.mpr (Ends.bind (R := fun r u => r = .ok () ∧
    ∃ d : Directory Id Item Seg,
      u = { t with toContents := t.toContents.retainSuperseded, dir := d } ∧ d.Calm ∧
      AgreeOff [MANIFEST_PATH, tmpPath MANIFEST_PATH] t.dir.files d.files ∧
        d.files.lookup MANIFEST_PATH = some (.checkpoint (t.epoch + 1)
          (.manifest t.toContents.retainSuperseded.manifest))) ?_ ?_ (by simp) (by simp))
  · rw [writeManifest, onContents, Ends.update_bind_iff, Ends.get_bind_iff]
    refine Ends.attempt_bind (R := fun r u => r = .ok () ∧ ∃ d : Directory Id Item Seg,
      u = { t with toContents := t.toContents.retainSuperseded, dir := d } ∧ d.Calm ∧
      AgreeOff [MANIFEST_PATH, tmpPath MANIFEST_PATH] t.dir.files d.files ∧
        d.files.lookup MANIFEST_PATH = some (.checkpoint (t.epoch + 1)
          (.manifest t.toContents.retainSuperseded.manifest))) ?_ ?_ (by simp) (by simp)
    · exact Ends.zoom ((Directory.writeCheckpoint_calm hcalm.1 _ _ _).mono
        fun r d hd => ⟨hd.1, d, rfl, hd.2⟩)
    · exact fun _ u hu => Ends.pure_iff.mpr ⟨rfl, hu.2⟩
  rintro ⟨⟩ u ⟨-, d, rfl, hcalm', hagree, hman⟩
  rw [rotateWal, Ends.update_bind_iff]
  refine Ends.bind (R := fun r v => r = .ok () ∧ v.dir.Calm ∧ Trimmed (fun name =>
    name ∈ [walPath t.epoch] ∨ isOrphan t.segmentIds name = true) d.files v.dir.files)
    ?_ ?_ (by simp) (by simp)
  · rw [gcOrphanSegments, Ends.update_bind_iff]
    refine Ends.zoom (((Directory.collectGarbage_returns _ _ d hcalm').and
      (Directory.collectGarbage_deletes _ _ d)).mono ?_)
    rintro r d' ⟨⟨⟨⟨⟩, rfl⟩, hcalm''⟩, hsteps, -⟩
    exact ⟨rfl, hcalm'', hsteps.trimmed⟩
  rintro ⟨⟩ v ⟨-, hcalm'', htrim⟩
  rw [republish, Ends.update_iff]
  have hspared := dispensable_orphans
    (t.toContents.retainSuperseded.image (t.epoch + 1)) (Nat.lt_succ_self t.epoch)
  have hman' := (htrim.eq hspared.manifest).trans hman
  refine ⟨rfl, hcalm'', ⟨?_, ?_⟩, by simp [hman'], ?_⟩
  · rw [loadedOf, hman']
    rfl
  · refine Shows.forall₂_congr hsegs fun k hk => segFile_congr ?_
    exact (htrim.eq (hspared.named k hk)).trans (hagree.familyOf (by simp))
  · refine (htrim.eq ?_).trans (hagree.familyOf (by simp))
    rw [isOrphan_eq_false (by simp) (by simp)]
    simpa using (walPath_ne_LEGACY_WAL_PATH t.epoch).symm

/-- Without faults an image that boots is opened. -/
theorem open_calm {d : Directory Id Item Seg} {im : Image Id Seg} (hd : d.Coherent im)
    (hcalm : d.Calm) (opts : Options F) (hback : opts.sync = .fsync → d.fileBacked = true)
    {boot : Contents Id Item Seg} (hboot : im.boot st im.segments = .ok boot) :
    Ends (openWithOptions st opts) d (fun r d' => d'.Calm ∧
      r = .ok (SegmentedStore.opened st opts im.toLoadedManifest boot
        (Directory.logOf d.files (walPath im.epoch)).records d')) := by
  refine (Directory.open_ends st opts hd.shows hd.noLegacyWal hd.noLegacyCkpt hd.walLog).mono ?_
  rintro r d' (⟨-, -, herr⟩ | ⟨boot', d₂, r', hboot', hlocked, hgc, hr⟩)
  · obtain ⟨e, -, herr⟩ := herr hcalm hback
    rw [hboot] at herr
    cases herr
  · have hreturns := Directory.collectGarbage_returns []
      (isOpenGarbage im.epoch im.segmentIds) d₂ (hlocked.calm hcalm)
    obtain ⟨⟨⟨⟩, rfl⟩, hcalm'⟩ := hreturns.of_run hgc
    refine ⟨hcalm', ?_⟩
    rcases hr with ⟨-, hr⟩ | ⟨e, hr, -⟩ | ⟨hr, -⟩
    · rw [hboot] at hboot'
      cases hboot'
      exact hr
    · cases hr
    · cases hr

end Segstore
