import Segstore.Writer.Framed

/-!
# Writing segments and the manifest

What `persist_segment` and `checkpoint` do to a framed writer, whatever fails.
The commit point is the manifest write: before it the directory stands for the
old image, from it on for the checkpoint's.
-/

namespace Segstore

variable {Id Item Seg F : Type}

open SegmentedStore

/-- Only segment files below the given ids' names and the record of written
files differ: what writing segments does to a writer. -/
structure Persisted (s t : SegmentedStore Id Item Seg F) (im : Image Id Seg) : Prop where
  framed : Framed t im
  memory : t.toContents = s.toContents
  published : t.published = s.published
  wal : t.wal = s.wal
  epoch : t.epoch = s.epoch
  opts : t.opts = s.opts
  poisoned : t.poisoned = s.poisoned
  backed : t.dir.fileBacked = s.dir.fileBacked
  index : ∀ name, familyOf name = some 'i' →
    t.dir.files.lookup name = s.dir.files.lookup name
  log : Directory.logOf t.dir.files (walPath im.epoch) =
    Directory.logOf s.dir.files (walPath im.epoch)
  mono : ∀ k ∈ s.persistedIds, k ∈ t.persistedIds

namespace Persisted

variable {s t u : SegmentedStore Id Item Seg F} {im : Image Id Seg}

theorem refl (h : Framed s im) : Persisted s s im :=
  ⟨h, rfl, rfl, rfl, rfl, rfl, rfl, rfl, fun _ _ => rfl, rfl, fun _ hk => hk⟩

theorem trans (h₁ : Persisted s t im) (h₂ : Persisted t u im) : Persisted s u im :=
  ⟨h₂.framed, h₂.memory.trans h₁.memory, h₂.published.trans h₁.published,
    h₂.wal.trans h₁.wal, h₂.epoch.trans h₁.epoch, h₂.opts.trans h₁.opts,
    h₂.poisoned.trans h₁.poisoned, h₂.backed.trans h₁.backed,
    fun name hname => (h₂.index name hname).trans (h₁.index name hname),
    h₂.log.trans h₁.log, fun k hk => h₂.mono k (h₁.mono k hk)⟩

theorem guar (h : Persisted s t im) : Guar s im t im :=
  ⟨h.opts, h.backed, h.memory ▸ .refl _, fun _ hp => .inl hp,
    fun name hname => .inl (h.index name hname)⟩

theorem ledger (h : Persisted s t im) : t.ledger im = s.ledger im := by
  simp only [SegmentedStore.ledger, h.memory, h.log, h.published]

theorem current (h : Persisted s t im) (hcur : Current s im) : Current t im := by
  intro hp
  rw [h.epoch]
  exact hcur (h.poisoned ▸ hp)

end Persisted

variable {s : SegmentedStore Id Item Seg F} {im : Image Id Seg}

/-- Writing one segment file under an id above the manifest's. -/
theorem persistSegment_ends (h : Framed s im) {k : Nat} (seg : Seg)
    (hk : im.nextSegId ≤ k) (hlt : k < s.nextSegId) (hnot : k ∉ s.persistedIds)
    (hseg : ∀ seg', (k, seg') ∈ s.sealed → seg' = seg) :
    Ends (persistSegment k seg) s (fun r t => Persisted s t im ∧
      (∀ j ∈ t.persistedIds, j = k ∨ j ∈ s.persistedIds) ∧
        (r = .ok () → k ∈ t.persistedIds ∧ segFile t.dir.files k = some seg)) := by
  have hdir : ∀ d : Directory Id Item Seg, d.Coherent im →
      d.fileBacked = s.dir.fileBacked →
      AgreeOff [segPath k, tmpPath (segPath k)] s.dir.files d.files →
      Persisted s { s with dir := d } im := by
    intro d hd hback hagree
    have hfam : ∀ name, familyOf name ≠ some 's' →
        d.files.lookup name = s.dir.files.lookup name := fun name hs =>
      hagree.familyOf (by simpa [eq_comm] using hs)
    refine ⟨⟨hd, h.shape, h.next_le, h.committed, fun p hp hpers => ?_, h.named,
      h.persisted_lt, h.wal⟩, rfl, rfl, rfl, rfl, rfl, rfl, hback,
      fun name hname => hfam name (by simp [hname]), ?_, fun _ hj => hj⟩
    · have hne : p.1 ≠ k := fun heq => hnot (heq ▸ hpers)
      rw [segFile_congr (hagree _ (by simp [hne, (tmpPath_ne_segPath (segPath k) p.1).symm]))]
      exact h.file p hp hpers
    · simp only [Directory.logOf, hfam (walPath im.epoch) (by simp)]
  rw [persistSegment]
  refine Ends.bind (R := fun r t => Persisted s t im ∧ t.persistedIds = s.persistedIds ∧
    (r = .ok () → segFile t.dir.files k = some seg)) ?_ ?_ ?_ ?_
  · refine Ends.mapErr (R := fun r t => Persisted s t im ∧ t.persistedIds = s.persistedIds ∧
      (r = .ok () → segFile t.dir.files k = some seg)) ?_ ?_ ?_ ?_
    · refine Ends.zoom ((Directory.writeSegment_ends h.disk hk seg).mono ?_)
      rintro r d ⟨hd, hback, hagree, hfile⟩
      exact ⟨hdir d hd hback hagree, rfl, hfile⟩
    · exact fun _ t ht => ht
    · exact fun _ t ht => ⟨ht.1, ht.2.1, by simp⟩
    · exact fun t ht => ht
  · rintro ⟨⟩ t ⟨ht, hpers, hfile⟩
    have hfile := hfile rfl
    have hmem : ∀ j, j ∈ t.persistedIds.insert k ↔ j = k ∨ j ∈ s.persistedIds := by
      intro j
      rw [List.mem_insert_iff, hpers]
    refine ⟨⟨⟨ht.framed.disk, ht.framed.shape, ht.framed.next_le, ht.framed.committed,
      ?_, ?_, ?_, ht.framed.wal⟩, ht.memory, ht.published, ht.wal, ht.epoch, ht.opts,
      ht.poisoned, ht.backed, ht.index, ht.log, ?_⟩, fun j => (hmem j).mp,
      fun _ => ⟨?_, hfile⟩⟩
    · intro p hp hp'
      rcases (hmem p.1).mp hp' with heq | hp'
      · have hsealed : (k, p.2) ∈ s.sealed := by
          rw [← heq, ← ht.memory]
          exact hp
        show segFile t.dir.files p.1 = some p.2
        rw [heq, hfile, hseg _ hsealed]
      · exact ht.framed.file p hp (hpers ▸ hp')
    · exact fun j hj => (hmem j).mpr (.inr (h.named j hj))
    · intro j hj
      show j < t.nextSegId
      rw [ht.memory]
      rcases (hmem j).mp hj with rfl | hj
      · exact hlt
      · exact h.persisted_lt j hj
    · exact fun j hj => (hmem j).mpr (.inr hj)
    · exact (hmem k).mpr (.inl rfl)
  · exact fun _ t ht => ⟨ht.1, fun j hj => .inr (ht.2.1 ▸ hj), by simp⟩
  · exact fun t ht => ⟨ht.1, fun j hj => .inr (ht.2.1 ▸ hj), by simp⟩

/-- Writing the files of sealed segments. -/
theorem persistAll_ends (h : Framed s im) {todo : List (Nat × Seg)}
    (htodo : ∀ p ∈ todo, p ∈ s.sealed ∧ p.1 ∉ s.persistedIds)
    (hnd : (todo.map Prod.fst).Nodup) :
    Ends (persistAll todo) s (fun r t => Persisted s t im ∧
      (r = .ok () → ∀ p ∈ todo, p.1 ∈ t.persistedIds)) := by
  induction todo generalizing s with
  | nil => exact Ends.pure_iff.mpr ⟨.refl h, by simp⟩
  | cons q todo ih =>
      obtain ⟨k, seg⟩ := q
      obtain ⟨hmem, hnot⟩ := htodo (k, seg) List.mem_cons_self
      have hk := h.lt_of_not_persisted hmem hnot
      have hlt := h.shape.below k (Contents.fst_mem_of_mem_sealed hmem)
      rw [List.map_cons, List.nodup_cons] at hnd
      rw [persistAll]
      refine Ends.bind (persistSegment_ends h _ hk hlt hnot fun seg' hseg' =>
        Contents.sealed_unique h.shape.sorted hseg' hmem) ?_ ?_ ?_
      · rintro ⟨⟩ t ⟨ht, hpers, hdone⟩
        have hrest : ∀ p ∈ todo, p ∈ t.sealed ∧ p.1 ∉ t.persistedIds := by
          intro p hp
          obtain ⟨hmem', hnot'⟩ := htodo p (List.mem_cons_of_mem _ hp)
          refine ⟨by rwa [ht.memory], fun hin => ?_⟩
          rcases hpers p.1 hin with heq | hin
          · exact hnd.1 (List.mem_map.mpr ⟨p, hp, heq⟩)
          · exact hnot' hin
        refine (ih ht.framed hrest hnd.2).mono fun r u hu => ⟨ht.trans hu.1, fun hr p hp => ?_⟩
        rcases List.mem_cons.mp hp with rfl | hp
        · exact hu.1.mono k (hdone rfl).1
        · exact hu.2 hr p hp
      · exact fun e t ht => ⟨ht.1, by simp⟩
      · exact fun t ht => ⟨ht.1, by simp⟩

/-- Writing what is not yet written leaves every sealed segment on record. -/
theorem persistUnwritten_ends (h : Framed s im) :
    Ends (persistAll s.toWrite) s (fun r t => Persisted s t im ∧
      (r = .ok () → ∀ k ∈ s.segmentIds, k ∈ t.persistedIds)) := by
  have hsub : (s.toWrite.map Prod.fst).Sublist s.segmentIds := by
    have hfilter := (List.filter_sublist (p := fun p : Nat × Seg =>
      !s.persistedIds.contains p.1) (l := s.sealed)).map Prod.fst
    rwa [Contents.map_fst_sealed h.shape.len] at hfilter
  have hnd : (s.toWrite.map Prod.fst).Nodup :=
    (h.shape.sorted.imp fun hlt => Nat.ne_of_lt hlt).sublist hsub
  refine (persistAll_ends h (fun p hp => ?_) hnd).mono fun r t ht => ⟨ht.1, fun hr k hk => ?_⟩
  · obtain ⟨hmem, hnot⟩ := List.mem_filter.mp hp
    exact ⟨hmem, by simpa using hnot⟩
  · by_cases hpers : k ∈ s.persistedIds
    · exact ht.1.mono k hpers
    · obtain ⟨seg, hseg⟩ := Contents.exists_mem_sealed h.shape.len hk
      exact ht.2 hr (k, seg) (List.mem_filter.mpr ⟨hseg, by simpa using hpers⟩)

/-! ## The commit point -/

/-- The image that a checkpoint of `s` writes. -/
def nextImage (s : SegmentedStore Id Item Seg F) (im : Image Id Seg) : Image Id Seg :=
  s.toContents.retainSuperseded.image (im.epoch + 1)

/-- The writer agrees with the image it has just written, too. -/
theorem Framed.committed_image (h : Framed s im) {d : Directory Id Item Seg} {p : Bool}
    (hd : d.Coherent (nextImage s im))
    (hfile : ∀ k, segFile d.files k = segFile s.dir.files k)
    (hpers : ∀ k ∈ s.segmentIds, k ∈ s.persistedIds) :
    Framed { s with
      toContents := s.toContents.retainSuperseded, dir := d, poisoned := p }
      (nextImage s im) where
  disk := hd
  shape := h.shape.retainSuperseded
  next_le := Nat.le_refl _
  committed := fun _ hp _ => hp
  file := fun p hp hp' => (hfile p.1).trans (h.file p hp hp')
  named := hpers
  persisted_lt := h.persisted_lt
  wal := h.wal

/-- A directory after a manifest write of any outcome. -/
structure ManifestWritten (s : SegmentedStore Id Item Seg F) (im : Image Id Seg)
    (d : Directory Id Item Seg) : Prop where
  backed : d.fileBacked = s.dir.fileBacked
  agree : AgreeOff [MANIFEST_PATH, tmpPath MANIFEST_PATH] s.dir.files d.files

namespace ManifestWritten

variable {d : Directory Id Item Seg}

theorem lookup_eq (hw : ManifestWritten s im d) {name : String}
    (hname : familyOf name ≠ some 'm') : d.files.lookup name = s.dir.files.lookup name :=
  hw.agree.familyOf (by simpa [eq_comm] using hname)

theorem segFile_eq (hw : ManifestWritten s im d) (k : Nat) :
    segFile d.files k = segFile s.dir.files k :=
  segFile_congr (hw.lookup_eq (by simp))

theorem index (hw : ManifestWritten s im d) (name : String) (hname : familyOf name = some 'i') :
    d.files.lookup name = s.dir.files.lookup name ∨ d.files.lookup name = none :=
  .inl (hw.lookup_eq (by simp [hname]))

variable [DecidableEq Id] (st : Store Id Item Seg)

/-- The call ended with the old manifest in place. -/
theorem yields_old (hw : ManifestWritten s im d) (h : Framed s im) (hd : d.Coherent im)
    (hlog : Directory.logOf d.files (walPath im.epoch) =
      Directory.logOf s.dir.files (walPath im.epoch))
    {r : Outcome PersistenceError Unit} {p : Bool} (hr : r ≠ .ok ())
    (hp : r ≠ .crash → p = true) :
    Yields st s im (fun _ _ _ => False) r
      { s with toContents := s.toContents.retainSuperseded, dir := d, poisoned := p } := by
  refine ⟨im, ⟨hd, h.shape.retainSuperseded, h.next_le, h.committed,
    fun p hp hp' => (hw.segFile_eq p.1).trans (h.file p hp hp'), h.named, h.persisted_lt,
    h.wal⟩, fun hc hfalse => Bool.noConfusion ((hp hc).symm.trans hfalse),
    ⟨rfl, hw.backed, .retainSuperseded, fun _ hp => .inl hp, hw.index⟩, ?_,
    fun v hv => absurd hv hr⟩
  have hmove := Relation.ReflTransGen.single
    (show Ledger.Move st _ _ from .prune (s.ledger im))
  simpa only [SegmentedStore.ledger, Ledger.mapContents, hlog] using hmove

/-- The call ended with the new manifest in place. -/
theorem yields_new (hw : ManifestWritten s im d) (h : Framed s im) (hbuffer : s.buffer = [])
    (hpers : ∀ k ∈ s.segmentIds, k ∈ s.persistedIds) (hd : d.Coherent (nextImage s im))
    (hlog : Directory.logOf d.files (walPath (im.epoch + 1)) = .empty)
    {r : Outcome PersistenceError Unit} {p : Bool} (hr : r ≠ .ok ())
    (hp : r ≠ .crash → p = true) :
    Yields st s im (fun _ _ _ => False) r
      { s with toContents := s.toContents.retainSuperseded, dir := d, poisoned := p } := by
  refine ⟨nextImage s im, h.committed_image hd hw.segFile_eq hpers,
    fun hc hfalse => Bool.noConfusion ((hp hc).symm.trans hfalse),
    ⟨rfl, hw.backed, .retainSuperseded, fun p hp => .inr (.inl hp), hw.index⟩, ?_,
    fun v hv => absurd hv hr⟩
  have hprune := Relation.ReflTransGen.single
    (show Ledger.Move st _ _ from .prune (s.ledger im))
  have hcommit := hprune.tail (.commit _ hbuffer)
  rw [← hlog] at hcommit
  exact hcommit

end ManifestWritten

variable [DecidableEq Id] (st : Store Id Item Seg)

/-- Either the manifest write returned and the directory stands for the new
image, or the call ended, standing for the old image or the new one. -/
theorem writeManifest_ends (h : Framed s im) (hcur : im.epoch = s.epoch)
    (hbuffer : s.buffer = []) (hpers : ∀ k ∈ s.segmentIds, k ∈ s.persistedIds) :
    Ends writeManifest s (fun r t =>
      Yields st s im (fun _ _ _ => False) r t ∧ r ≠ .ok () ∨
        r = .ok () ∧ ∃ d : Directory Id Item Seg,
          t = { s with toContents := s.toContents.retainSuperseded, dir := d } ∧
            ManifestWritten s im d ∧ d.Coherent (nextImage s im) ∧
              Directory.logOf d.files (walPath (im.epoch + 1)) = .empty) := by
  have hsegs : List.Forall₂ (fun k seg => segFile s.dir.files k = some seg)
      s.segmentIds s.segments :=
    List.forall₂_iff_zip.mpr ⟨h.shape.len, fun {k seg} hmem =>
      h.file (k, seg) hmem (hpers k (List.of_mem_zip hmem).1)⟩
  have hnamed : ∀ k < im.nextSegId, k ∈ s.segmentIds → k ∈ im.segmentIds := by
    intro k hk hmem
    obtain ⟨seg, hseg⟩ := Contents.exists_mem_sealed h.shape.len hmem
    exact (List.of_mem_zip (h.committed (k, seg) hseg hk)).1
  have hwrite := Directory.writeManifest_ends h.disk (nextImage s im)
    (m := s.toContents.retainSuperseded.manifest) rfl rfl rfl
    ⟨h.shape.sorted, h.shape.below⟩ hsegs h.next_le hnamed
  rw [writeManifest, onContents, Ends.update_bind_iff, Ends.get_bind_iff]
  refine Ends.attempt_bind (R := fun r t => ∃ d : Directory Id Item Seg,
    t = { s with toContents := s.toContents.retainSuperseded, dir := d } ∧
      ManifestWritten s im d ∧
        (r ≠ .ok () ∧ d.Coherent im ∧ Directory.logOf d.files (walPath im.epoch) =
            Directory.logOf s.dir.files (walPath im.epoch) ∨
          d.Coherent (nextImage s im) ∧
            Directory.logOf d.files (walPath (im.epoch + 1)) = .empty)) ?_ ?_ ?_ ?_
  · rw [← hcur]
    exact Ends.zoom (hwrite.mono fun r d hd => ⟨d, rfl, ⟨hd.1, hd.2.1⟩, hd.2.2⟩)
  · rintro ⟨⟩ t ⟨d, rfl, hw, hd⟩
    obtain ⟨hd, hlog⟩ := hd.resolve_left fun hno => hno.1 rfl
    exact Ends.pure_iff.mpr (.inr ⟨rfl, d, rfl, hw, hd, hlog⟩)
  · rintro e t ⟨d, rfl, hw, hd⟩
    refine Ends.update_bind_iff.mpr (Ends.fail_iff.mpr (.inl ⟨?_, by simp⟩))
    rcases hd with ⟨_, hd, hlog⟩ | ⟨hd, hlog⟩
    · exact hw.yields_old st h hd hlog (by simp) fun _ => rfl
    · exact hw.yields_new st h hbuffer hpers hd hlog (by simp) fun _ => rfl
  · rintro t ⟨d, rfl, hw, hd⟩
    refine .inl ⟨?_, by simp⟩
    rcases hd with ⟨_, hd, hlog⟩ | ⟨hd, hlog⟩
    · exact hw.yields_old st h hd hlog (by simp) (by simp)
    · exact hw.yields_new st h hbuffer hpers hd hlog (by simp) (by simp)

/-! ## After the commit point -/

omit [DecidableEq Id] in
/-- The next WAL generation belongs to the new image. -/
theorem Framed.rotated (h : Framed s im) (hcur : im.epoch = s.epoch)
    (hpers : ∀ k ∈ s.segmentIds, k ∈ s.persistedIds) {d : Directory Id Item Seg}
    (hw : ManifestWritten s im d) (hd : d.Coherent (nextImage s im)) :
    Framed { s with
        toContents := s.toContents.retainSuperseded
        dir := d
        wal := walPath (s.epoch + 1)
        walPoisoned := false
        epoch := s.epoch + 1 } (nextImage s im) ∧
      (nextImage s im).epoch = s.epoch + 1 := by
  have hnew := h.committed_image (p := s.poisoned) hd hw.segFile_eq hpers
  refine ⟨⟨hnew.disk, hnew.shape, hnew.next_le, hnew.committed, hnew.file, hnew.named,
    hnew.persisted_lt, rfl⟩, ?_⟩
  show im.epoch + 1 = s.epoch + 1
  rw [hcur]

omit [DecidableEq Id] in
/-- The names that a checkpoint may delete. -/
theorem dispensable_orphans (im : Image Id Seg) {old : Nat} (hold : old < im.epoch) :
    Directory.Dispensable im (fun name =>
      name ∈ [walPath old] ∨ isOrphan im.segmentIds name = true) where
  manifest := by
    rw [isOrphan_eq_false (by simp) (by simp)]
    simpa using ne_of_familyOf (by simp)
  named := by
    intro k hk
    rw [isOrphan_segPath hk]
    simpa using ne_of_familyOf (by simp)
  wal := by
    rw [isOrphan_eq_false (by simp) (by simp)]
    simpa using Nat.ne_of_gt hold

omit [DecidableEq Id] in
/-- Garbage collection after a commit deletes files and forgets their ids. -/
theorem gcOrphanSegments_ends (h : Framed s im) (hids : im.segmentIds = s.segmentIds)
    {old : Nat} (hold : old < im.epoch) :
    Ends (gcOrphanSegments s.segmentIds [walPath old]) s (fun r t =>
      (∀ e, r ≠ .err e) ∧ ∃ (d : Directory Id Item Seg) (p : List Nat),
        t = { s with dir := d, persistedIds := p } ∧ Framed t im ∧ Guar s im t im ∧
          t.ledger im = s.ledger im) := by
  rw [gcOrphanSegments, Ends.update_bind_iff, ← hids]
  refine Ends.zoom ((Directory.collectGarbage_ends (dispensable_orphans im hold) h.disk).mono ?_)
  rintro r d ⟨hclean, hr⟩
  have hspared : ∀ k ∈ im.segmentIds, segFile d.files k = segFile s.dir.files k := by
    intro k hk
    exact segFile_congr (hclean.trimmed.eq ((dispensable_orphans im hold).named k hk))
  have hlog : d.files.lookup (walPath im.epoch) = s.dir.files.lookup (walPath im.epoch) :=
    hclean.trimmed.eq (dispensable_orphans im hold).wal
  refine ⟨hr, d, _, rfl, ⟨hclean.coherent, h.shape, h.next_le, h.committed, ?_, ?_, ?_, h.wal⟩,
    ⟨rfl, hclean.fileBacked, .refl _, fun _ hp => .inl hp, fun name _ =>
      (hclean.trimmed name).imp_right And.left⟩, ?_⟩
  · intro p hp hpers
    have hk : p.1 ∈ im.segmentIds := hids ▸ Contents.fst_mem_of_mem_sealed hp
    exact (hspared p.1 hk).trans (h.file p hp (List.mem_filter.mp hpers).1)
  · exact fun k hk => List.mem_filter.mpr ⟨h.named k hk, by simpa using hk⟩
  · exact fun k hk => h.persisted_lt k (List.mem_filter.mp hk).1
  · simp only [SegmentedStore.ledger, Directory.logOf, hlog]

theorem collectAndPublish_ends (h : Framed s im) (hcur : im.epoch = s.epoch)
    (hids : im.segmentIds = s.segmentIds) (old : Nat) (hold : old < im.epoch) :
    Ends (do gcOrphanSegments s.segmentIds [walPath old]; republish) s
      (Yields st s im (fun _ t im' =>
        t.ledger im' = { s.ledger im with published := s.toPubState } ∧
          t.epoch = s.epoch)) := by
  refine Ends.bind (gcOrphanSegments_ends h hids hold) ?_ ?_ ?_
  · rintro ⟨⟩ t ⟨-, d, p, rfl, ht, hguar, hledger⟩
    rw [republish, Ends.update_iff]
    have hfinal : SegmentedStore.ledger { s with
          dir := d, persistedIds := p, published := s.toPubState } im =
        { s.ledger im with published := s.toPubState } := by
      rw [← hledger]
      rfl
    refine ⟨im, ⟨ht.disk, ht.shape, ht.next_le, ht.committed, ht.file, ht.named,
      ht.persisted_lt, ht.wal⟩, fun _ _ => hcur, ⟨hguar.opts, hguar.backed,
      hguar.grows, hguar.image, hguar.index⟩, ?_, fun _ _ => ⟨rfl, hfinal, rfl⟩⟩
    rw [hfinal]
    exact .single (.publish (s.ledger im))
  · rintro e t ⟨hr, -⟩
    exact absurd rfl (hr e)
  · rintro t ⟨-, d, p, rfl, ht, hguar, hledger⟩
    exact ⟨im, ht, by simp, hguar, by rw [hledger], by simp⟩

/-- `checkpoint`: when it returns, the ledger has been committed. -/
theorem checkpoint_ends (h : Framed s im) (hcur : Current s im) :
    Ends (checkpoint st) s (Yields st s im (fun _ t im' =>
      t.ledger im' = (s.ledger im).commit st ∧ t.epoch = s.epoch + 1)) := by
  rw [checkpoint]
  refine Ends.bind (checkPoisoned_ends s) ?_ ?_ ?_
  case refine_2 =>
    rintro e t ⟨rfl, -, -⟩
    exact .err h hcur
  case refine_3 =>
    exact fun t ht => absurd rfl ht.2.1
  rintro ⟨⟩ t ⟨rfl, -, hhealthy⟩
  have hhealthy := hhealthy rfl
  have hepoch : im.epoch = t.epoch := hcur hhealthy
  refine Yields.onContents_bind h hcur (h.shape.flushBuffer st) (.flushBuffer st h.shape)
    (.single (.flush _)) fun h₁ hcur₁ => ?_
  rw [Ends.get_bind_iff]
  refine Ends.bind (persistUnwritten_ends h₁) ?_ ?_ ?_
  case refine_2 =>
    rintro e u ⟨hu, -⟩
    exact ⟨im, hu.framed, fun _ => hu.current hcur₁, hu.guar, by rw [hu.ledger], by simp⟩
  case refine_3 =>
    rintro u ⟨hu, -⟩
    exact ⟨im, hu.framed, by simp, hu.guar, by rw [hu.ledger], by simp⟩
  rintro ⟨⟩ u ⟨hu, hall⟩
  have hids : u.segmentIds = (t.toContents.flushBuffer st).segmentIds := by rw [hu.memory]
  have hpers : ∀ k ∈ u.segmentIds, k ∈ u.persistedIds := fun k hk => hall rfl k (hids ▸ hk)
  have hbuffer : u.buffer = [] := by
    rw [hu.memory]
    exact Contents.flushBuffer_buffer _ st
  have hepoch' : im.epoch = u.epoch := hepoch.trans hu.epoch.symm
  refine Ends.mono (R := Yields st u im _) ?_
    fun r v hv => Yields.after hu.guar (by rw [hu.ledger]) hu.poisoned hv
  refine Ends.bind (writeManifest_ends st hu.framed hepoch' hbuffer hpers) ?_ ?_ ?_
  case refine_2 =>
    rintro e v (⟨⟨im', hv, hc, hguar, hmoves, -⟩, -⟩ | ⟨hno, -⟩)
    · exact ⟨im', hv, fun _ => hc (by simp), hguar, hmoves, by simp⟩
    · cases hno
  case refine_3 =>
    rintro v (⟨⟨im', hv, -, hguar, hmoves, -⟩, -⟩ | ⟨hno, -⟩)
    · exact ⟨im', hv, by simp, hguar, hmoves, by simp⟩
    · cases hno
  rintro ⟨⟩ v (⟨-, hno⟩ | ⟨-, d, rfl, hw, hd, hlog⟩)
  · exact absurd rfl hno
  rw [rotateWal, Ends.update_bind_iff]
  obtain ⟨h₂, hepoch₂⟩ := hu.framed.rotated hepoch' hpers hw hd
  generalize hv : ({ u with
    toContents := u.toContents.retainSuperseded
    dir := d
    wal := walPath (u.epoch + 1)
    walPoisoned := false
    epoch := u.epoch + 1 } : SegmentedStore Id Item Seg F) = v at h₂
  have hledger : v.ledger (nextImage u im) = { u.ledger im with
      contents := u.toContents.retainSuperseded
      image := nextImage u im
      log := .empty } := by
    rw [← hv, ← hlog]
    rfl
  have hguar : Guar u im v (nextImage u im) :=
    hv ▸ ⟨rfl, hw.backed, .retainSuperseded, fun p hp => .inr (.inl hp), hw.index⟩
  have hmoves : Ledger.Moves st (u.ledger im) (v.ledger (nextImage u im)) := by
    rw [hledger]
    exact (Relation.ReflTransGen.single (Ledger.Move.prune (u.ledger im))).tail
      (.commit _ hbuffer)
  have hvids : v.segmentIds = (t.toContents.flushBuffer st).segmentIds := by
    rw [← hids, ← hv]
    rfl
  have hvepoch : (nextImage u im).epoch = v.epoch := by rw [hepoch₂, ← hv]
  have hrest := collectAndPublish_ends st h₂ hvepoch (by rw [← hv]; rfl)
    t.epoch (by omega)
  rw [hvids] at hrest
  subst hv
  refine hrest.mono fun r w hw => (Yields.after hguar hmoves rfl hw).imp fun _ x im' hx => ?_
  obtain ⟨hx, hepoch₃⟩ := hx
  refine ⟨?_, ?_⟩
  · rw [hx, hledger]
    simp only [nextImage, hu.memory]
    rfl
  · exact hepoch₃.trans (congrArg (· + 1) hu.epoch)

end Segstore
