import Segstore.Disk.Protection
import Segstore.Writer.Memory
import Segstore.Writer.Parts

/-!
# Calls spare what is protected

Whatever a call on a writer does and wherever it ends, no file that the
manifest of the moment protects disappears.
-/

namespace Segstore

variable {Id Item Seg F α : Type}

namespace SegmentedStore

/-- The directory went through contents that each spare what the one before it needs. -/
def Careful (s t : SegmentedStore Id Item Seg F) : Prop := s.dir.Careful t.dir

instance : Std.Refl (Careful : SegmentedStore Id Item Seg F → _ → Prop) :=
  ⟨fun s => Std.Refl.refl (r := Directory.Careful) s.dir⟩

instance : IsTrans (SegmentedStore Id Item Seg F) Careful :=
  ⟨fun _ _ _ h h' => IsTrans.trans (r := Directory.Careful) _ _ _ h h'⟩

theorem onDir_careful {p : DirM Id Item Seg α} (hp : Respects Directory.Careful p) :
    Respects (Careful (F := F)) (onDir p) :=
  .zoom hp fun _ _ h => h

theorem update_careful {f : SegmentedStore Id Item Seg F → SegmentedStore Id Item Seg F}
    (hf : ∀ s, (f s).dir = s.dir) :
    Respects Careful (Eff.update f : StoreM Id Item Seg F Unit) :=
  .update fun s => .of_same (congrArg Directory.files (hf s)) (congrArg Directory.past (hf s))

theorem onContents_careful (f : Contents Id Item Seg → Contents Id Item Seg) :
    Respects (Careful (F := F)) (onContents f) :=
  update_careful fun _ => rfl

theorem onWal_careful {call : Call} {p : String → DirM Id Item Seg Unit}
    (hp : ∀ wal, Respects Directory.Careful (p wal)) :
    Respects (Careful (F := F)) (onWal call p) := by
  intro s
  refine (onWal_leaves (hp s.wal s.dir) (Std.Refl.refl s.dir)).mono ?_
  rintro r t ⟨d, b, rfl, h⟩
  exact h

theorem appendWal_careful (op : Op Id Item) :
    Respects Careful (appendWal op : StoreM Id Item Seg F Unit) :=
  onWal_careful fun _ => Directory.appendLog_careful _ op

theorem syncWal_careful : Respects Careful (syncWal : StoreM Id Item Seg F Unit) :=
  onWal_careful fun _ => Directory.flushLog_careful _

theorem persistSegment_careful (id : Nat) (seg : Seg) :
    Respects Careful (persistSegment id seg : StoreM Id Item Seg F Unit) :=
  .bind (.mapErr (onDir_careful
    (Directory.writeCheckpoint_careful _ _ fun _ => not_protected_tmp_segPath id))) fun _ =>
      update_careful fun _ => rfl

theorem persistAll_careful (todo : List (Nat × Seg)) :
    Respects Careful (persistAll todo : StoreM Id Item Seg F Unit) := by
  induction todo with
  | nil => exact .pure ()
  | cons p todo ih => exact .bind (persistSegment_careful p.1 p.2) fun _ => ih

/-- The manifest was not written, or the directory has that of the next epoch with
the current segments. -/
def ManifestStep (s : SegmentedStore Id Item Seg F) (written : Bool) (files : Files Id Item Seg) :
    Prop :=
  written = false ∧ AgreeOff [tmpPath MANIFEST_PATH] s.dir.files files ∨
    AgreeOff [MANIFEST_PATH, tmpPath MANIFEST_PATH] s.dir.files files ∧
      files.lookup MANIFEST_PATH ≠ none ∧ ∃ m, loadedOf files = some m ∧
        m.epoch = s.epoch + 1 ∧ m.segmentIds = s.segmentIds

theorem writeManifest_files (s : SegmentedStore Id Item Seg F) :
    Ends writeManifest s (fun r t => ∃ files, t.dir = s.dir.become files ∧
      t.wal = s.wal ∧ t.epoch = s.epoch ∧ (r = .ok () → t.poisoned = s.poisoned) ∧
        ∃ written, (r = .ok () → written = true) ∧ ManifestStep s written files) := by
  have hwritten : ∀ u : SegmentedStore Id Item Seg F,
      Ends (onDir (F := F) (Directory.writeCheckpoint MANIFEST_PATH (u.epoch + 1)
        (.manifest u.manifest))) u (fun r t => ∃ files, t = { u with dir := u.dir.become files } ∧
          ∃ written, (r = .ok () → written = true) ∧ ManifestStep u written files) := by
    intro u
    refine Ends.zoom ((Directory.writeCheckpoint_ends MANIFEST_PATH (u.epoch + 1)
      (.manifest u.manifest) u.dir).mono ?_)
    rintro r _ ⟨files, rfl, ⟨hno, hagree⟩ | ⟨hagree, hlookup⟩⟩
    · exact ⟨files, rfl, false, fun hok => absurd hok hno, .inl ⟨rfl, hagree⟩⟩
    · have hloaded : loadedOf files = some (.ofCurrent (u.epoch + 1) u.manifest
          { version := MANIFEST_EXT_VERSION, superseded := u.supersededRefs }) := by
        rw [loadedOf, hlookup]
        simp [Contents.manifest]
      exact ⟨files, rfl, true, fun _ => rfl,
        .inr ⟨hagree, by simp [hlookup], _, hloaded, rfl, rfl⟩⟩
  rw [writeManifest, onContents, Ends.update_bind_iff, Ends.get_bind_iff]
  refine Ends.attempt_bind (hwritten _) ?_ ?_ ?_
  · rintro ⟨⟩ t ⟨files, rfl, written, hok, hstep⟩
    exact ⟨files, rfl, rfl, rfl, fun _ => rfl, written, fun _ => hok rfl, hstep⟩
  · rintro e t ⟨files, rfl, written, -, hstep⟩
    exact Ends.update_bind_iff.mpr
      (Ends.fail_iff.mpr ⟨files, rfl, rfl, rfl, by simp, written, by simp, hstep⟩)
  · rintro t ⟨files, rfl, written, -, hstep⟩
    exact ⟨files, rfl, rfl, rfl, by simp, written, by simp, hstep⟩

theorem ManifestStep.spares {s : SegmentedStore Id Item Seg F} {written : Bool}
    {files : Files Id Item Seg} (h : ManifestStep s written files) : Spares s.dir.files files := by
  refine .of_tmp (fun _ => not_protected_tmp_manifest) fun name hname hsome => ?_
  rcases h with ⟨-, hagree⟩ | ⟨hagree, hman, -⟩
  · rwa [hagree name (by simpa using hname)]
  · by_cases hn : name = MANIFEST_PATH
    · rw [hn]
      exact Option.isSome_iff_ne_none.mpr hman
    · rwa [hagree name (by simp [hn, hname])]

/-- Where the manifest is that of the current epoch and segments, garbage
collection picks nothing that is protected. -/
theorem gcOrphanSegments_careful {s : SegmentedStore Id Item Seg F} {m : LoadedManifest Id}
    (hm : loadedOf s.dir.files = some m) {old : Nat} (hold : old ≠ m.epoch) :
    Ends (gcOrphanSegments m.segmentIds [walPath old]) s (fun _ t => Careful s t) := by
  rw [gcOrphanSegments, Ends.update_bind_iff]
  refine Ends.zoom ((Directory.collectGarbage_deletes _ _ s.dir).mono fun r d' h => ?_)
  have hbad : ∀ name, name ∈ [walPath old] ∨ isOrphan m.segmentIds name = true →
      ¬ Protected m name := by
    rintro name (hname | horphan) hprot
    · exact hprot.ne_walPath hold (List.mem_singleton.mp hname)
    · rw [hprot.not_orphan] at horphan
      cases horphan
  refine h.1.careful (fun hman => hbad _ hman .manifest) fun m' hm' => ?_
  cases hm.symm.trans hm'
  exact hbad

variable [DecidableEq Id] (st : Store Id Item Seg)

theorem checkpoint_careful : Respects Careful (checkpoint st : StoreM Id Item Seg F Unit) := by
  refine .bind checkPoisoned_respects fun _ => .bind (onContents_careful _) fun _ => ?_
  intro s
  rw [Ends.get_bind_iff]
  refine Ends.bind ((persistAll_careful _ s).and (persistAll_onlyFiles _ s)) ?_
    (fun _ _ h => h.1) (fun _ h => h.1)
  rintro ⟨⟩ u ⟨hsu, honly⟩
  have hwritten : ∀ {v : SegmentedStore Id Item Seg F} {files : Files Id Item Seg}
      {written : Bool}, v.dir = u.dir.become files → ManifestStep u written files →
        Careful s v := by
    intro v files written hv hstep
    refine IsTrans.trans _ _ _ hsu ?_
    rw [Careful, hv]
    exact .become hstep.spares
  refine Ends.bind (writeManifest_files u) ?_ ?_ ?_
  · rintro ⟨⟩ v ⟨files, hv, -, hepoch, -, written, hok, hstep⟩
    have hsv := hwritten hv hstep
    rcases hstep with ⟨hno, -⟩ | ⟨-, -, m, hm, hmepoch, hmids⟩
    · rw [hok rfl] at hno
      cases hno
    · have hids : s.segmentIds = m.segmentIds := by rw [hmids, honly.memory]
      have hold : s.epoch ≠ m.epoch := by
        rw [hmepoch, honly.epoch]
        exact Nat.ne_of_lt (Nat.lt_succ_self _)
      have hm' : loadedOf v.dir.files = some m := by
        rw [hv]
        exact hm
      rw [rotateWal, Ends.update_bind_iff, hids]
      refine Ends.bind (gcOrphanSegments_careful (s := { v with
          wal := walPath (v.epoch + 1)
          walPoisoned := false
          epoch := v.epoch + 1 }) hm' hold) ?_
        (fun _ _ h => IsTrans.trans _ _ _ hsv h) (fun _ h => IsTrans.trans _ _ _ hsv h)
      exact fun _ w hw => Ends.update_iff.mpr (IsTrans.trans (r := Careful) _ _ _ hsv hw)
  · rintro e v ⟨files, hv, -, -, -, written, -, hstep⟩
    exact hwritten hv hstep
  · rintro v ⟨files, hv, -, -, -, written, -, hstep⟩
    exact hwritten hv hstep

/-- So does every call. -/
theorem partwise_careful :
    Partwise st (fun {_} p => Respects (Careful : SegmentedStore Id Item Seg F → _ → Prop) p) where
  toCompositional := Respects.compositional Careful
  checkPoisoned := checkPoisoned_respects
  contents := onContents_careful
  append := appendWal_careful
  sync := syncWal_careful
  persist := persistSegment_careful
  checkpoint := checkpoint_careful st

end SegmentedStore

end Segstore
