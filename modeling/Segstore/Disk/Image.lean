import Segstore.Model.Open

/-!
# What a directory stands for

The image of a directory is its manifest together with the segments the
manifest names.  `Evolves` relates the contents of one directory at two
moments, the earlier one first: segment ids that were known at the first moment
keep their meaning.  `Directory.Coherent` is what every directory of a run
satisfies, with a rule for each kind of change.
-/

namespace Segstore

variable {Id Item Seg : Type}

/-- A loaded manifest with the segments it names. -/
structure Image (Id Seg : Type) extends LoadedManifest Id where
  segments : List Seg

namespace Image

/-- The segments with their ids. -/
def sealed (im : Image Id Seg) : List (Nat × Seg) :=
  im.segmentIds.zip im.segments

/-- The ids increase and lie below the next one. -/
structure Numbered (im : Image Id Seg) : Prop where
  sorted : im.segmentIds.Pairwise (· < ·)
  below : ∀ k ∈ im.segmentIds, k < im.nextSegId

end Image

/-- The manifest of a directory, as `read_manifest` decodes it. -/
def loadedOf (files : Files Id Item Seg) : Option (LoadedManifest Id) :=
  match files.lookup MANIFEST_PATH with
  | none => some .absent
  | some (.checkpoint epoch (.manifest m)) =>
      match m.ext with
      | none => some (.ofOriginal epoch m)
      | some ext =>
          if ext.version = MANIFEST_EXT_VERSION then some (.ofCurrent epoch m ext) else none
  | some _ => none

/-- The segment in the file of the given id. -/
def segFile (files : Files Id Item Seg) (k : Nat) : Option Seg :=
  match files.lookup (segPath k) with
  | some (.checkpoint _ (.segment seg)) => some seg
  | _ => none

/-- The directory content `files` stands for `im`. -/
structure Shows (files : Files Id Item Seg) (im : Image Id Seg) : Prop where
  loaded : loadedOf files = some im.toLoadedManifest
  segs : List.Forall₂ (fun k seg => segFile files k = some seg) im.segmentIds im.segments

theorem loadedOf_congr {f f' : Files Id Item Seg}
    (h : f'.lookup MANIFEST_PATH = f.lookup MANIFEST_PATH) : loadedOf f' = loadedOf f := by
  rw [loadedOf, loadedOf, h]

theorem segFile_congr {f f' : Files Id Item Seg} {k : Nat}
    (h : f'.lookup (segPath k) = f.lookup (segPath k)) : segFile f' k = segFile f k := by
  rw [segFile, segFile, h]

namespace Shows

variable {files : Files Id Item Seg} {im im' : Image Id Seg}

theorem forall₂_unique {f : Nat → Option Seg} {ks : List Nat} {segs segs' : List Seg}
    (h : List.Forall₂ (fun k seg => f k = some seg) ks segs)
    (h' : List.Forall₂ (fun k seg => f k = some seg) ks segs') : segs = segs' := by
  induction h generalizing segs' with
  | nil =>
      cases h'
      rfl
  | cons hk _ ih =>
      cases h' with
      | cons hk' htail => rw [Option.some.inj (hk.symm.trans hk'), ih htail]

theorem forall₂_congr {f f' : Nat → Option Seg} {ks : List Nat} {segs : List Seg}
    (h : List.Forall₂ (fun k seg => f k = some seg) ks segs) (hf : ∀ k ∈ ks, f' k = f k) :
    List.Forall₂ (fun k seg => f' k = some seg) ks segs := by
  induction h with
  | nil => exact .nil
  | cons hk _ ih =>
      exact .cons ((hf _ List.mem_cons_self).trans hk)
        (ih fun k hk => hf k (List.mem_cons_of_mem _ hk))

/-- A directory stands for one image. -/
theorem unique (h : Shows files im) (h' : Shows files im') : im = im' := by
  obtain ⟨m, segs⟩ := im
  obtain ⟨m', segs'⟩ := im'
  have hm : m = m' := Option.some.inj (h.loaded.symm.trans h'.loaded)
  subst hm
  exact congrArg _ (forall₂_unique h.segs h'.segs)

theorem length_eq (h : Shows files im) : im.segmentIds.length = im.segments.length :=
  h.segs.length_eq

/-- The segments of the image are the contents of the files. -/
theorem segFile_of_mem (h : Shows files im) {p : Nat × Seg} (hp : p ∈ im.sealed) :
    segFile files p.1 = some p.2 :=
  List.forall₂_zip h.segs hp

theorem mem_sealed_of_segFile (h : Shows files im) {k : Nat} {seg : Seg}
    (hk : k ∈ im.segmentIds) (hseg : segFile files k = some seg) : (k, seg) ∈ im.sealed := by
  obtain ⟨i, hi, rfl⟩ := List.mem_iff_getElem.mp hk
  have hi' : i < im.segments.length := h.length_eq ▸ hi
  have hmem : (im.segmentIds[i], im.segments[i]) ∈ im.sealed :=
    List.mem_iff_getElem.mpr ⟨i, by simpa [Image.sealed] using ⟨hi, hi'⟩,
      by simp [Image.sealed]⟩
  have heq := (h.segFile_of_mem hmem).symm.trans hseg
  rwa [← Option.some.inj heq]

/-- Only the manifest and the named segments matter. -/
theorem congr {f f' : Files Id Item Seg} (h : Shows f im)
    (hman : f'.lookup MANIFEST_PATH = f.lookup MANIFEST_PATH)
    (hseg : ∀ k ∈ im.segmentIds, f'.lookup (segPath k) = f.lookup (segPath k)) :
    Shows f' im where
  loaded := (loadedOf_congr hman).trans h.loaded
  segs := forall₂_congr h.segs fun k hk => segFile_congr (hseg k hk)

end Shows

/-! ## Two moments of one directory -/

/-- From `f` to the later `f'`: the next id does not decrease, an id below it is
not named again once it is not named, and its file is as it was or gone. -/
structure Onward (f f' : Files Id Item Seg) (im im' : Image Id Seg) : Prop where
  next_le : im.nextSegId ≤ im'.nextSegId
  named : ∀ k < im.nextSegId, k ∈ im'.segmentIds → k ∈ im.segmentIds
  file : ∀ k < im.nextSegId, segFile f' k = segFile f k ∨ segFile f' k = none

/-- `Onward`, for the images the two contents stand for. -/
def Evolves (f f' : Files Id Item Seg) : Prop :=
  ∃ im im', Shows f im ∧ Shows f' im' ∧ Onward f f' im im'

theorem Onward.refl (f : Files Id Item Seg) (im : Image Id Seg) : Onward f f im im :=
  ⟨Nat.le_refl _, fun _ _ h => h, fun _ _ => .inl rfl⟩

theorem Onward.trans {f₁ f₂ f₃ : Files Id Item Seg} {im₁ im₂ im₃ : Image Id Seg}
    (h₁ : Onward f₁ f₂ im₁ im₂) (h₂ : Onward f₂ f₃ im₂ im₃) : Onward f₁ f₃ im₁ im₃ := by
  refine ⟨h₁.next_le.trans h₂.next_le, fun k hk hk₃ => ?_, fun k hk => ?_⟩
  · exact h₁.named k hk (h₂.named k (hk.trans_le h₁.next_le) hk₃)
  · rcases h₂.file k (hk.trans_le h₁.next_le) with h | h
    · rw [h]
      exact h₁.file k hk
    · exact .inr h

theorem Evolves.trans {f₁ f₂ f₃ : Files Id Item Seg} (h₁ : Evolves f₁ f₂)
    (h₂ : Evolves f₂ f₃) : Evolves f₁ f₃ := by
  obtain ⟨im₁, im₂, hs₁, hs₂, h₁₂⟩ := h₁
  obtain ⟨im₂', im₃, hs₂', hs₃, h₂₃⟩ := h₂
  have heq := hs₂'.unique hs₂
  subst heq
  exact ⟨im₁, im₃, hs₁, hs₃, h₁₂.trans h₂₃⟩

/-- Every content a directory had, newest first: each stands for a numbered
image, and each evolves into the newer ones. -/
structure Lineage (states : List (Files Id Item Seg)) : Prop where
  shows : ∀ f ∈ states, ∃ im, Shows f im ∧ im.Numbered
  evolves : states.Pairwise (fun newer older => Evolves older newer)

theorem Lineage.cons {f f' : Files Id Item Seg} {past : List (Files Id Item Seg)}
    {im im' : Image Id Seg} (h : Lineage (f :: past)) (hs : Shows f im) (hs' : Shows f' im')
    (hnum : im'.Numbered) (hon : Onward f f' im im') : Lineage (f' :: f :: past) where
  shows := by
    intro g hg
    rcases List.mem_cons.mp hg with rfl | hg
    · exact ⟨im', hs', hnum⟩
    · exact h.shows g hg
  evolves := by
    have hstep : Evolves f f' := ⟨im, im', hs, hs', hon⟩
    refine List.pairwise_cons.mpr ⟨fun g hg => ?_, h.evolves⟩
    rcases List.mem_cons.mp hg with rfl | hg
    · exact hstep
    · exact ((List.pairwise_cons.mp h.evolves).1 g hg).trans hstep

/-! ## Coherent directories -/

/-- No record was ever logged under this name. -/
def Unlogged (files : Files Id Item Seg) (name : String) : Prop :=
  files.lookup name = none ∨ files.lookup name = some (.log .empty)

theorem Unlogged.logOf_eq {files : Files Id Item Seg} {name : String}
    (h : Unlogged files name) : Directory.logOf files name = .empty := by
  rw [Directory.logOf]
  rcases h with h | h
  · rw [h]
  · rw [h]

/-- A directory that stands for `im`: nothing is logged for a later epoch than
the manifest's, it holds no store of an older format, and so it was always. -/
structure Directory.Coherent (d : Directory Id Item Seg) (im : Image Id Seg) : Prop where
  shows : Shows d.files im
  numbered : im.Numbered
  unlogged : ∀ k, im.epoch < k → Unlogged d.files (walPath k)
  walLog : d.files.lookup (walPath im.epoch) = none ∨
    ∃ log, d.files.lookup (walPath im.epoch) = some (.log log)
  noLegacyWal : d.files.lookup LEGACY_WAL_PATH = none
  noLegacyCkpt : d.files.lookup MANIFEST_PATH ≠ none ∨
    d.files.lookup LEGACY_CKPT_PATH = none
  lineage : Lineage d.states

namespace Directory.Coherent

variable {d : Directory Id Item Seg} {im : Image Id Seg} {files : Files Id Item Seg}

/-- Fates and the kind of backend do not matter. -/
theorem congr {d' : Directory Id Item Seg} (h : d.Coherent im) (hf : d'.files = d.files)
    (hp : d'.past = d.past) : d'.Coherent im where
  shows := hf ▸ h.shows
  numbered := h.numbered
  unlogged := hf ▸ h.unlogged
  walLog := hf ▸ h.walLog
  noLegacyWal := hf ▸ h.noLegacyWal
  noLegacyCkpt := hf ▸ h.noLegacyCkpt
  lineage := by
    rw [Directory.states, hf, hp]
    exact h.lineage

/-- A change that spares the manifest, the named segments and the current WAL,
and that does not write a segment file with an old id. -/
structure Harmless (im : Image Id Seg) (f f' : Files Id Item Seg) : Prop where
  manifest : f'.lookup MANIFEST_PATH = f.lookup MANIFEST_PATH
  named : ∀ k ∈ im.segmentIds, f'.lookup (segPath k) = f.lookup (segPath k)
  file : ∀ k < im.nextSegId,
    f'.lookup (segPath k) = f.lookup (segPath k) ∨ f'.lookup (segPath k) = none
  wal : f'.lookup (walPath im.epoch) = f.lookup (walPath im.epoch)
  later : ∀ k, im.epoch < k →
    f'.lookup (walPath k) = f.lookup (walPath k) ∨ f'.lookup (walPath k) = none
  legacyWal : f'.lookup LEGACY_WAL_PATH = f.lookup LEGACY_WAL_PATH
  legacyCkpt : f'.lookup LEGACY_CKPT_PATH = f.lookup LEGACY_CKPT_PATH ∨
    f'.lookup LEGACY_CKPT_PATH = none

/-- Every name outside the families of manifest, segment and WAL may change. -/
theorem Harmless.of_agree {f f' : Files Id Item Seg}
    (h : ∀ name, familyOf name ≠ some 'i' → familyOf name ≠ some 'l' →
      (∀ k, name ≠ tmpPath (segPath k)) → name ≠ tmpPath MANIFEST_PATH →
      f'.lookup name = f.lookup name) : Harmless im f f' := by
  have hseg : ∀ k, f'.lookup (segPath k) = f.lookup (segPath k) := fun k =>
    h _ (by simp) (by simp) (fun j => (tmpPath_ne_segPath _ k).symm)
      (tmpPath_ne_segPath _ k).symm
  have hother : ∀ name, familyOf name ≠ some 'i' → familyOf name ≠ some 'l' →
      familyOf name ≠ some 's' → name ≠ tmpPath MANIFEST_PATH →
      f'.lookup name = f.lookup name := fun name hi hl hs ht =>
    h name hi hl (fun k => ne_of_familyOf (by simpa using hs)) ht
  exact ⟨hother _ (by simp) (by simp) (by simp) (by decide), fun k _ => hseg k,
    fun k _ => .inl (hseg k),
    hother _ (by simp) (by simp) (by simp) (ne_of_familyOf (by simp)),
    fun k _ => .inl (hother _ (by simp) (by simp) (by simp) (ne_of_familyOf (by simp))),
    hother _ (by simp) (by simp) (by simp) (by decide),
    .inl (hother _ (by simp) (by simp) (by simp) (by decide))⟩

theorem Harmless.onward {f f' : Files Id Item Seg} (h : Harmless im f f') :
    Onward f f' im im :=
  ⟨Nat.le_refl _, fun _ _ hk => hk, fun k hk =>
    (h.file k hk).imp segFile_congr fun hnone => by rw [segFile, hnone]⟩

theorem Harmless.logOf_eq {f f' : Files Id Item Seg} (h : Harmless im f f') :
    Directory.logOf f' (walPath im.epoch) = Directory.logOf f (walPath im.epoch) := by
  rw [Directory.logOf, Directory.logOf, h.wal]

/-- A harmless change keeps the directory coherent. -/
theorem harmless (h : d.Coherent im) (hh : Harmless im d.files files) :
    (d.become files).Coherent im where
  shows := h.shows.congr hh.manifest hh.named
  numbered := h.numbered
  unlogged := by
    intro k hk
    rcases hh.later k hk with heq | hnone
    · exact (h.unlogged k hk).imp heq.trans heq.trans
    · exact .inl hnone
  walLog := by
    rw [Directory.become, hh.wal]
    exact h.walLog
  noLegacyWal := hh.legacyWal.trans h.noLegacyWal
  noLegacyCkpt := by
    rw [Directory.become, hh.manifest]
    refine h.noLegacyCkpt.imp_right fun hnone => ?_
    rcases hh.legacyCkpt with heq | heq
    · exact heq.trans hnone
    · exact heq
  lineage := h.lineage.cons h.shows (h.shows.congr hh.manifest hh.named) h.numbered hh.onward

/-- Only the current WAL changes, and it stays a log. -/
theorem walChange (h : d.Coherent im) {log : RecordLog Id Item}
    (hlog : files.lookup (walPath im.epoch) = some (.log log))
    (hother : ∀ name, name ≠ walPath im.epoch → files.lookup name = d.files.lookup name) :
    (d.become files).Coherent im := by
  have hfam : ∀ name, familyOf name ≠ some 'w' → files.lookup name = d.files.lookup name :=
    fun name hw => hother name (ne_of_familyOf (by simpa using hw))
  have hshows : Shows files im :=
    h.shows.congr (hfam _ (by simp)) (fun k _ => hfam _ (by simp))
  refine ⟨hshows, h.numbered, fun k hk => ?_, .inr ⟨log, hlog⟩, ?_, ?_, ?_⟩
  · have heq := hother (walPath k) (by simpa using Nat.ne_of_gt hk)
    exact (h.unlogged k hk).imp heq.trans heq.trans
  · exact (hother _ (walPath_ne_LEGACY_WAL_PATH _).symm).trans h.noLegacyWal
  · rw [Directory.become, hfam _ (by simp), hfam _ (by simp)]
    exact h.noLegacyCkpt
  · exact h.lineage.cons h.shows hshows h.numbered
      ⟨Nat.le_refl _, fun _ _ hk => hk, fun k _ => .inl (segFile_congr (hfam _ (by simp)))⟩

/-- A new manifest is the commit point. -/
theorem commit {im' : Image Id Seg} (h : d.Coherent im) (hshows : Shows files im')
    (hnum : im'.Numbered) (hepoch : im'.epoch = im.epoch + 1)
    (hman : files.lookup MANIFEST_PATH ≠ none)
    (hother : ∀ name, name ≠ MANIFEST_PATH → name ≠ tmpPath MANIFEST_PATH →
      files.lookup name = d.files.lookup name)
    (hnext : im.nextSegId ≤ im'.nextSegId)
    (hnamed : ∀ k < im.nextSegId, k ∈ im'.segmentIds → k ∈ im.segmentIds) :
    (d.become files).Coherent im' := by
  have hfam : ∀ name, familyOf name ≠ some 'm' → files.lookup name = d.files.lookup name :=
    fun name hm => hother name (ne_of_familyOf (by simpa using hm))
      (ne_of_familyOf (by simpa using hm))
  have hwal : ∀ k, im.epoch < k → Unlogged files (walPath k) := fun k hk =>
    (h.unlogged k hk).imp (hfam _ (by simp)).trans (hfam _ (by simp)).trans
  refine ⟨hshows, hnum, fun k hk => hwal k (by omega), ?_, ?_, .inl hman, ?_⟩
  · exact (hwal im'.epoch (by omega)).imp_right fun hlog => ⟨_, hlog⟩
  · exact (hfam _ (by simp)).trans h.noLegacyWal
  · exact h.lineage.cons h.shows hshows hnum
      ⟨hnext, hnamed, fun k _ => .inl (segFile_congr (hfam _ (by simp)))⟩

end Directory.Coherent

end Segstore
