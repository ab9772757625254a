import Segstore.Writer.Housekeeping
import Segstore.Writer.Reload

/-!
# The view during a call

Whatever fails, the view of a writer that is not poisoned is the one that the
manifest of its directory describes, and the view of a poisoned writer does not
change any more.
-/

namespace Segstore

variable {Id Item Seg F α : Type} [DecidableEq Id]

/-- The view has the segments of the manifest, and answers alike which copies are
live. -/
structure Describes (m : LoadedManifest Id) (v : PubState Id Seg) : Prop where
  segmentIds : v.segmentIds = m.segmentIds
  live : ∀ seg id, v.isLiveIn seg id = copyIsLive m.tombstones m.superseded seg id

namespace SegmentedStore

/-- Unless the writer is poisoned, the manifest describes the view. -/
structure Advertised (s : SegmentedStore Id Item Seg F) : Prop where
  path : s.wal = walPath s.epoch
  described : s.poisoned = false →
    ∃ m, loadedOf s.dir.files = some m ∧ Describes m s.published

/-- What is kept when a call ends in any way but a stop. -/
abbrev Advertises (R : SegmentedStore Id Item Seg F → α → SegmentedStore Id Item Seg F → Prop)
    (p : StoreM Id Item Seg F α) : Prop :=
  Upholds Advertised (fun _ => True) R p

/-- The files change, and the manifest stays. -/
theorem Advertised.files {s t : SegmentedStore Id Item Seg F} (h : Advertised s)
    (hpath : t.wal = s.wal) (hepoch : t.epoch = s.epoch) (hpoisoned : t.poisoned = s.poisoned)
    (hpublished : t.published = s.published)
    (hmanifest : t.dir.files.lookup MANIFEST_PATH = s.dir.files.lookup MANIFEST_PATH) :
    Advertised t where
  path := by rw [hpath, hepoch, h.path]
  described := by
    rw [hpoisoned, hpublished, loadedOf_congr hmanifest]
    exact h.described

/-! ## The parts of a call -/

theorem checkPoisoned_advertises :
    Advertises (fun _ _ t => t.poisoned = false)
      (checkPoisoned : StoreM Id Item Seg F Unit) := by
  intro s hs
  rw [checkPoisoned, Ends.read_bind_iff]
  split
  · exact Ends.fail_iff.mpr ⟨by simp, fun _ => hs, by simp⟩
  · rename_i hhealthy
    exact Ends.pure_iff.mpr ⟨by simp, fun _ => hs, fun _ _ => by simpa using hhealthy⟩

theorem onContents_advertises (f : Contents Id Item Seg → Contents Id Item Seg) :
    Advertises (fun _ _ _ => True) (onContents (F := F) f) :=
  .update (fun _ hs => ⟨hs.path, hs.described⟩) fun _ => trivial

/-- A call that changes files of other families only. -/
theorem onDir_advertises {p : DirM Id Item Seg α} {names : List String}
    (hp : ∀ d, Ends p d (fun _ d' => ∃ files, d' = d.become files ∧
      AgreeOff names d.files files)) (hnames : ∀ name ∈ names, name ≠ MANIFEST_PATH) :
    Advertises (fun s _ t => t.poisoned = s.poisoned) (onDir (F := F) p) := by
  intro s hs
  refine Ends.zoom ((hp s.dir).mono ?_)
  rintro r _ ⟨files, rfl, hagree⟩
  refine ⟨fun _ => trivial, fun _ => ?_, fun _ _ => rfl⟩
  exact hs.files rfl rfl rfl rfl (hagree _ fun hmem => hnames _ hmem rfl)

/-- A call on the WAL of the writer. -/
theorem onWal_advertises {call : Call} {p : String → DirM Id Item Seg Unit}
    (hp : ∀ name d, Ends (p name) d (fun _ d' =>
      ∃ files, d' = d.become files ∧ AgreeOff [name] d.files files)) :
    Advertises (fun _ _ _ => True) (onWal (F := F) call p) := by
  intro s hs
  refine (onWal_runs (hp s.wal s.dir)).mono ?_
  rintro r t (⟨-, rfl, rfl⟩ | ⟨-, _, b, rfl, ⟨files, rfl, hagree⟩, -⟩)
  · exact ⟨by simp, fun _ => hs, by simp⟩
  refine ⟨fun _ => trivial, fun _ => ?_, fun _ _ => trivial⟩
  refine hs.files rfl rfl rfl rfl (hagree _ fun hmem => ?_)
  rw [List.mem_singleton, hs.path] at hmem
  exact ne_of_familyOf (by simp) hmem

theorem persistSegment_advertises (id : Nat) (seg : Seg) :
    Advertises (fun s _ t => t.poisoned = s.poisoned)
      (persistSegment id seg : StoreM Id Item Seg F Unit) := by
  have hwrite : Advertises (fun s _ t => t.poisoned = s.poisoned)
      (onDir (F := F) (Directory.writeCheckpoint (segPath id) 0
        (.segment seg : Payload Id Seg)) : StoreM Id Item Seg F Unit) := by
    refine onDir_advertises (Directory.writeCheckpoint_agreeOff (segPath id) 0 (.segment seg))
      fun name hname => ?_
    rcases List.mem_cons.mp hname with rfl | hname
    · exact ne_of_familyOf (by simp)
    · rw [List.mem_singleton.mp hname]
      exact ne_of_familyOf (by simp)
  have hrecord : Advertises (fun s _ t => t.poisoned = s.poisoned)
      (Eff.update (fun s => { s with persistedIds := s.persistedIds.insert id }) :
        StoreM Id Item Seg F Unit) :=
    .update (fun _ hs => ⟨hs.path, hs.described⟩) fun _ => rfl
  exact .bind hwrite.mapErr (fun _ => hrecord) fun h h' => h'.trans h

theorem persistAll_advertises (todo : List (Nat × Seg)) :
    Advertises (fun s _ t => t.poisoned = s.poisoned)
      (persistAll todo : StoreM Id Item Seg F Unit) := by
  induction todo with
  | nil => exact .pure () fun _ => rfl
  | cons p todo ih =>
      exact .bind (persistSegment_advertises p.1 p.2) (fun _ => ih) fun h h' => h'.trans h

/-! ## Checkpoints -/

/-- When the manifest is written, it is that of the memory; when not, the writer is
poisoned. -/
theorem writeManifest_describes {s : SegmentedStore Id Item Seg F} (hs : s.wal = walPath s.epoch) :
    Ends writeManifest s (fun r t => t.wal = walPath t.epoch ∧ (∀ e, r = .err e →
      t.poisoned = true) ∧ (r = .ok () → ∃ m, loadedOf t.dir.files = some m ∧
        Describes m t.toPubState)) := by
  have hwritten : ∀ u : SegmentedStore Id Item Seg F, u.wal = walPath u.epoch →
      Ends (onDir (F := F) (Directory.writeCheckpoint MANIFEST_PATH (u.epoch + 1)
        (.manifest u.manifest))) u (fun r t => t.wal = walPath t.epoch ∧
          (r = .ok () → ∃ m, loadedOf t.dir.files = some m ∧ Describes m t.toPubState)) := by
    intro u hu
    refine Ends.zoom ((Directory.writeCheckpoint_ends MANIFEST_PATH (u.epoch + 1)
      (.manifest u.manifest) u.dir).mono ?_)
    rintro r _ ⟨files, rfl, hfiles⟩
    refine ⟨hu, fun hr => ?_⟩
    obtain ⟨-, hlookup⟩ := hfiles.resolve_left fun hno => hno.1 hr
    have hloaded : loadedOf files = some (u.toContents.image (u.epoch + 1)).toLoadedManifest := by
      rw [loadedOf, hlookup]
      simp [Contents.manifest, Contents.image]
    refine ⟨_, hloaded, rfl, fun seg id => ?_⟩
    rw [Bool.eq_iff_iff, copyIsLive_iff, Contents.isLiveIn_iff,
      marked_congr (Contents.lookup_image_superseded u.toContents (u.epoch + 1) seg)]
    rfl
  rw [writeManifest, onContents, Ends.update_bind_iff, Ends.get_bind_iff]
  refine Ends.attempt_bind (hwritten _ hs) ?_ ?_ ?_
  · rintro ⟨⟩ t ⟨ht, hdescribed⟩
    exact Ends.pure_iff.mpr ⟨ht, by simp, fun _ => hdescribed rfl⟩
  · rintro e t ⟨ht, -⟩
    rw [Ends.update_bind_iff]
    exact Ends.fail_iff.mpr ⟨ht, fun _ _ => rfl, by simp⟩
  · rintro t ⟨ht, -⟩
    exact ⟨ht, by simp, by simp⟩

variable (st : Store Id Item Seg)

/-- A checkpoint that returns has published what it wrote. -/
theorem checkpoint_advertises : Advertises (fun _ _ _ => True)
    (checkpoint st : StoreM Id Item Seg F Unit) := by
  intro s hs
  refine Ends.bind (checkPoisoned_advertises s hs) ?_ (fun _ _ h => ⟨h.1, h.2.1, by simp⟩)
    fun _ h => ⟨h.1, h.2.1, by simp⟩
  rintro ⟨⟩ t ⟨-, ht, -⟩
  replace ht := ht (by simp)
  have hflushed : Advertised { t with toContents := t.toContents.flushBuffer st } :=
    ⟨ht.path, ht.described⟩
  rw [onContents, Ends.update_bind_iff, Ends.get_bind_iff]
  refine Ends.bind (persistAll_advertises _ _ hflushed) ?_ (fun _ _ h => ⟨h.1, h.2.1, by simp⟩)
    fun _ h => ⟨h.1, h.2.1, by simp⟩
  rintro ⟨⟩ u ⟨-, hu, -⟩
  refine Ends.bind (writeManifest_describes (hu (by simp)).path) ?_ ?_ fun _ _ => by simp
  · rintro ⟨⟩ v ⟨hpath, -, hdescribed⟩
    obtain ⟨m, hm, hdescribes⟩ := hdescribed rfl
    rw [rotateWal, Ends.update_bind_iff]
    refine Ends.bind (R := fun r w => (∀ e, r ≠ .err e) ∧ (w.wal = walPath w.epoch ∧
      ∃ m, loadedOf w.dir.files = some m ∧ Describes m w.toPubState)) ?_ ?_ ?_ fun _ _ => by simp
    · rw [gcOrphanSegments, Ends.update_bind_iff]
      refine Ends.zoom ((Directory.collectGarbage_deletes _ _ _).mono ?_)
      rintro r d ⟨hdeletes, hnoError, -⟩
      refine ⟨hnoError, rfl, m, ?_, hdescribes⟩
      rw [← hm]
      refine loadedOf_congr (hdeletes.trimmed.eq ?_)
      rw [isOrphan_eq_false (by simp) (by simp)]
      simpa using ne_of_familyOf (by simp)
    · rintro ⟨⟩ w ⟨-, hpath', hdescribed'⟩
      rw [republish, Ends.update_iff]
      exact ⟨by simp, fun _ => ⟨hpath', fun _ => hdescribed'⟩, fun _ _ => trivial⟩
    · exact fun e w h => absurd rfl (h.1 e)
  · rintro e v ⟨hpath, hpoisoned, -⟩
    refine ⟨by simp, fun _ => ⟨hpath, fun hhealthy => ?_⟩, by simp⟩
    rw [hpoisoned e rfl] at hhealthy
    cases hhealthy

/-- So does every call. -/
theorem partwise_advertises :
    Partwise st (fun {_} p => Advertises (F := F) (fun _ _ _ => True) p) where
  toCompositional := Upholds.compositional _ _
  checkPoisoned := checkPoisoned_advertises.mono fun _ _ _ _ => trivial
  contents := onContents_advertises
  append := fun op => onWal_advertises fun name d => Directory.appendLog_agreeOff name op d
  sync := onWal_advertises Directory.flushLog_agreeOff
  persist := fun id seg => (persistSegment_advertises id seg).mono fun _ _ _ _ => trivial
  checkpoint := checkpoint_advertises st

end SegmentedStore

end Segstore
