import Segstore.Disk.Garbage

/-!
# Reading a directory

`Reads p d x` says that `p` only reads, and that `x` is what it finds in `d`
unless the environment interferes.  What the readers of manifests, segments
and logs find is told by the image of the directory.
-/

namespace Segstore

variable {Id Item Seg α β : Type}

namespace Directory

/-- The outcome of a computed result. -/
def outcome : Except PersistenceError α → Outcome PersistenceError α
  | .ok a => .ok a
  | .error e => .err e

@[simp] theorem outcome_ok (a : α) : outcome (.ok a) = .ok a := rfl

@[simp] theorem outcome_error (e : PersistenceError) :
    outcome (.error e : Except PersistenceError α) = .err e := rfl

/-- The content is unchanged, and no new faults come up. -/
structure Same (d d' : Directory Id Item Seg) : Prop where
  files : d'.files = d.files
  past : d'.past = d.past
  fileBacked : d'.fileBacked = d.fileBacked
  fates : d'.fates <:+ d.fates

theorem Same.refl (d : Directory Id Item Seg) : Same d d := ⟨rfl, rfl, rfl, List.suffix_rfl⟩

theorem Same.trans {d₁ d₂ d₃ : Directory Id Item Seg} (h₁ : Same d₁ d₂) (h₂ : Same d₂ d₃) :
    Same d₁ d₃ :=
  ⟨h₂.files.trans h₁.files, h₂.past.trans h₁.past, h₂.fileBacked.trans h₁.fileBacked,
    h₂.fates.trans h₁.fates⟩

theorem Same.tail (d : Directory Id Item Seg) : Same d { d with fates := d.fates.tail } :=
  ⟨rfl, rfl, rfl, List.tail_suffix _⟩

theorem Same.calm {d d' : Directory Id Item Seg} (h : Same d d') (hcalm : d.fates = []) :
    d'.fates = [] :=
  List.suffix_nil.mp (hcalm ▸ h.fates)

/-- `p` reads `x`: it ends with `x`, or with an interruption or a read error that
the environment brought about. -/
def Reads (p : DirM Id Item Seg α) (d : Directory Id Item Seg)
    (x : Except PersistenceError α) : Prop :=
  Ends p d (fun r d' => Same d d' ∧
    (r = outcome x ∨ d.fates ≠ [] ∧ (r = .crash ∨ ∃ msg, r = .err (.io msg))))

/-- One reading call returns what it finds when the environment carries it out,
and nothing otherwise. -/
theorem observe_exact (call : Call) (f : Files Id Item Seg → Except PersistenceError α)
    (d : Directory Id Item Seg) :
    Ends (observe call f) d (fun r d' => Same d d' ∧
      (r = .crash → ∃ landed, d.nextFate call = .stopped landed) ∧
      ∀ a, r = .ok a ↔ f d.files = .ok a ∧ d.nextFate call = .done) := by
  unfold Ends observe
  cases hfate : d.nextFate call with
  | done =>
      cases hf : f d.files with
      | ok a => exact ⟨.tail d, by simp, by simp⟩
      | error e => exact ⟨.tail d, by simp, by simp⟩
  | failed e landed => exact ⟨.tail d, by simp, by simp⟩
  | stopped landed => exact ⟨.tail d, fun _ => ⟨landed, rfl⟩, by simp⟩

namespace Reads

variable {d : Directory Id Item Seg}

theorem pure (a : α) : Reads (Pure.pure a : DirM Id Item Seg α) d (.ok a) :=
  ⟨.refl d, .inl rfl⟩

theorem fail (e : PersistenceError) : Reads (Eff.fail e : DirM Id Item Seg α) d (.error e) :=
  ⟨.refl d, .inl rfl⟩

theorem ofExcept (x : Except PersistenceError α) :
    Reads (Eff.ofExcept x : DirM Id Item Seg α) d x := by
  cases x with
  | ok a => exact pure a
  | error e => exact fail e

theorem observe (call : Call) (f : Files Id Item Seg → Except PersistenceError α) :
    Reads (Directory.observe call f) d (f d.files) := by
  have hfate : d.nextFate call ≠ .done → d.fates ≠ [] := by
    intro hfate hcalm
    exact hfate (by rw [nextFate, hcalm])
  unfold Reads Ends Directory.observe
  cases hnext : d.nextFate call with
  | done =>
      cases hf : f d.files with
      | ok a => exact ⟨.tail d, .inl rfl⟩
      | error e => exact ⟨.tail d, .inl rfl⟩
  | failed e landed =>
      refine ⟨.tail d, .inr ⟨hfate (by simp [hnext]), .inr ?_⟩⟩
      cases e with
      | io msg => exact ⟨msg, rfl⟩
      | _ => exact ⟨_, rfl⟩
  | stopped landed => exact ⟨.tail d, .inr ⟨hfate (by simp [hnext]), .inl rfl⟩⟩

theorem observe_eq (call : Call) (f : Files Id Item Seg → Except PersistenceError α)
    {x : Except PersistenceError α} (h : f d.files = x) : Reads (Directory.observe call f) d x :=
  h ▸ observe call f

/-- Sequencing. -/
theorem bind {p : DirM Id Item Seg α} {f : α → DirM Id Item Seg β} {a : α}
    {y : Except PersistenceError β} (hp : Reads p d (.ok a))
    (hf : ∀ d', Same d d' → Reads (f a) d' y) : Reads (p >>= f) d y := by
  refine Ends.bind hp ?_ ?_ ?_
  · rintro b d' ⟨hsame, hr | ⟨-, hr | ⟨msg, hr⟩⟩⟩
    · cases hr
      refine (hf d' hsame).mono fun r d'' hd => ⟨hsame.trans hd.1, hd.2.imp_right ?_⟩
      exact And.imp_left fun hne hnil => hne (hsame.calm hnil)
    · cases hr
    · cases hr
  · rintro e d' ⟨hsame, hr | ⟨hne, hr | ⟨msg, hr⟩⟩⟩
    · cases hr
    · cases hr
    · cases hr
      exact ⟨hsame, .inr ⟨hne, .inr ⟨msg, rfl⟩⟩⟩
  · rintro d' ⟨hsame, hr | ⟨hne, -⟩⟩
    · cases hr
    · exact ⟨hsame, .inr ⟨hne, .inl rfl⟩⟩

/-- Continue from a result that has been caught, as long as a read error is
passed on. -/
theorem attempt_bind {p : DirM Id Item Seg α} {f : Except PersistenceError α → DirM Id Item Seg β}
    {x : Except PersistenceError α} {y : Except PersistenceError β} (hp : Reads p d x)
    (hf : ∀ d', Same d d' → Reads (f x) d' y)
    (hio : ∀ msg, f (.error (.io msg)) = Eff.fail (.io msg)) :
    Reads (Eff.attempt p >>= f) d y := by
  have hcont : ∀ d', Same d d' → Ends (f x) d' (fun r d'' => Same d d'' ∧
      (r = outcome y ∨ d.fates ≠ [] ∧ (r = .crash ∨ ∃ msg, r = .err (.io msg)))) := by
    intro d' hsame
    refine (hf d' hsame).mono fun r d'' hd => ⟨hsame.trans hd.1, hd.2.imp_right ?_⟩
    exact And.imp_left fun hne hnil => hne (hsame.calm hnil)
  refine Ends.attempt_bind hp ?_ ?_ ?_
  · rintro a d' ⟨hsame, hr | ⟨-, hr | ⟨msg, hr⟩⟩⟩
    · cases x with
      | ok b =>
          cases hr
          exact hcont d' hsame
      | error e => cases hr
    · cases hr
    · cases hr
  · rintro e d' ⟨hsame, hr | ⟨hne, hr | ⟨msg, hr⟩⟩⟩
    · cases x with
      | ok b => cases hr
      | error e' =>
          cases hr
          exact hcont d' hsame
    · cases hr
    · cases hr
      rw [hio msg]
      exact Ends.fail_iff.mpr ⟨hsame, .inr ⟨hne, .inr ⟨msg, rfl⟩⟩⟩
  · rintro d' ⟨hsame, hr | ⟨hne, -⟩⟩
    · cases x <;> cases hr
    · exact ⟨hsame, .inr ⟨hne, .inl rfl⟩⟩

/-- A value that is returned is the one there is to read. -/
theorem ok {p : DirM Id Item Seg α} {x : Except PersistenceError α} (h : Reads p d x) :
    Ends p d (fun r d' => Same d d' ∧ ∀ a, r = .ok a → x = .ok a) := by
  refine h.mono fun r d' hd => ⟨hd.1, ?_⟩
  rintro a rfl
  rcases hd.2 with hr | ⟨-, hr | ⟨msg, hr⟩⟩
  · cases x with
    | ok b =>
        cases hr
        rfl
    | error e => cases hr
  · cases hr
  · cases hr

/-- Without faults the result is the one there is to read. -/
theorem calm {p : DirM Id Item Seg α} {x : Except PersistenceError α} (h : Reads p d x)
    (hcalm : d.fates = []) : Ends p d (fun r d' => Same d d' ∧ r = outcome x) :=
  h.mono fun _ _ hd => ⟨hd.1, hd.2.resolve_right fun hno => hno.1 hcalm⟩

end Reads

/-! ## What the readers find -/

variable {d : Directory Id Item Seg} {im : Image Id Seg}

theorem readCheckpoint_reads {name : String} {lastAppliedId : Nat} {payload : Payload Id Seg}
    (h : d.files.lookup name = some (.checkpoint lastAppliedId payload)) :
    Reads (readCheckpoint name) d (.ok (lastAppliedId, payload)) := by
  unfold readCheckpoint
  refine Reads.observe_eq .read _ ?_
  rw [h]

/-- A segment file is read as the segment in it, and never as another. -/
theorem readSegmentFile_reads {k : Nat} {seg : Seg} (h : segFile d.files k = some seg) :
    Reads (readSegmentFile (segPath k)) d (.ok seg) := by
  rw [segFile] at h
  split at h
  · rename_i hlookup
    cases h
    exact (readCheckpoint_reads hlookup).bind fun d' _ => .pure _
  · cases h

/-- A segment file that is read is the file of that id. -/
theorem readSegmentFile_ok (d : Directory Id Item Seg) (k : Nat) :
    Ends (readSegmentFile (segPath k)) d
      (fun r _ => ∀ seg, r = .ok seg → segFile d.files k = some seg) := by
  rw [readSegmentFile]
  refine Ends.bind (Reads.observe .read _).ok ?_ ?_ ?_
  · rintro ⟨lastAppliedId, payload⟩ d' ⟨-, hread⟩
    have hread := hread _ rfl
    cases payload with
    | manifest m => exact Ends.fail_iff.mpr (by simp)
    | segment seg =>
        refine Ends.pure_iff.mpr ?_
        rintro _ ⟨⟩
        rw [segFile]
        split at hread
        · rename_i hlookup
          cases hread
          rw [hlookup]
        · cases hread
        · cases hread
  · simp
  · simp

theorem readSegments_reads {ids : List Nat} {segs : List Seg}
    (h : List.Forall₂ (fun k seg => segFile d.files k = some seg) ids segs) :
    Reads (readSegments ids) d (.ok segs) := by
  induction ids generalizing segs d with
  | nil =>
      cases h
      exact .pure []
  | cons k ids ih =>
      cases h with
      | cons hk htail =>
          refine (readSegmentFile_reads hk).bind fun d' hsame => ?_
          exact (ih (hsame.files ▸ htail)).bind fun d'' _ => .pure _

theorem rejectLegacyFormats_reads (hwal : d.files.lookup LEGACY_WAL_PATH = none)
    (hckpt : d.files.lookup MANIFEST_PATH ≠ none ∨ d.files.lookup LEGACY_CKPT_PATH = none) :
    Reads rejectLegacyFormats d (.ok ()) := by
  have hexists : ∀ name, d.exists name = (d.files.lookup name).isSome := fun _ => rfl
  rw [rejectLegacyFormats, Reads, Ends.get_bind_iff, hexists, hexists, hexists, hwal]
  rcases hckpt with hman | hckpt
  · rw [Option.isSome_iff_ne_none.mpr hman]
    simp only [Option.isSome_none, Bool.false_eq_true, if_false, Bool.not_true, Bool.and_false]
    exact Reads.pure (d := d) ()
  · rw [hckpt]
    exact Reads.pure (d := d) ()

/-- `read_manifest` finds the manifest of the directory. -/
theorem readManifest_reads {m : LoadedManifest Id} (h : loadedOf d.files = some m) :
    ∃ v : Option (LoadedManifest Id), Reads readManifest d (.ok v) ∧ v.getD .absent = m := by
  rw [loadedOf] at h
  split at h
  · rename_i hnone
    refine ⟨none, ?_, Option.some.inj h⟩
    rw [readManifest, Reads, Ends.read_bind_iff, «exists», hnone]
    exact Reads.pure (d := d) none
  · rename_i epoch m' hlookup
    refine ⟨some m, ?_, rfl⟩
    rw [readManifest, Reads, Ends.read_bind_iff, «exists», hlookup, Option.isSome_some,
      if_pos rfl]
    suffices hexisting : Reads readExistingManifest d (.ok m) from
      hexisting.bind fun d' _ => .pure _
    have hread := readCheckpoint_reads hlookup
    rw [readExistingManifest]
    cases hext : m'.ext with
    | none =>
        rw [hext] at h
        cases h
        have hV2 : Reads readManifestV2 d (.error (.decode MANIFEST_PATH)) := by
          refine hread.bind fun d' _ => ?_
          simp only [hext]
          exact .fail _
        refine hV2.attempt_bind (fun d' hsame => ?_) fun _ => rfl
        have hV1 : Reads readManifestV1 d' (.ok (epoch, m')) :=
          (readCheckpoint_reads (hsame.files ▸ hlookup)).bind fun d'' _ => .pure _
        exact hV1.bind fun d'' _ => .pure _
    | some ext =>
        rw [hext] at h
        have hV2 : Reads readManifestV2 d (.ok (epoch, m', ext)) := by
          refine hread.bind fun d' _ => ?_
          simp only [hext]
          exact .pure _
        refine hV2.attempt_bind (fun d' _ => ?_) fun _ => rfl
        simp only at h
        split at h
        · rename_i hversion
          cases h
          simp only [hversion, ne_eq, not_true_eq_false, if_false]
          exact .pure _
        · cases h
  · cases h

/-- The live WAL is read as the records of the log. -/
theorem readLiveWal_reads {name : String}
    (h : d.files.lookup name = none ∨ ∃ log, d.files.lookup name = some (.log log)) :
    Reads (readLiveWal name) d (.ok (logOf d.files name).records) := by
  rw [readLiveWal, Reads, Ends.read_bind_iff, logOf, «exists»]
  rcases h with hnone | ⟨log, hlog⟩
  · rw [hnone]
    exact Reads.pure (d := d) []
  · rw [hlog]
    change Reads (readLog name) d _
    unfold readLog
    refine Reads.observe_eq .read _ ?_
    rw [hlog]

/-! ## The catalog -/

/-- `SegmentCatalog::open` finds the catalog of the manifest. -/
theorem catalog_open_reads (h : Shows d.files im)
    (hwal : d.files.lookup LEGACY_WAL_PATH = none)
    (hckpt : d.files.lookup MANIFEST_PATH ≠ none ∨ d.files.lookup LEGACY_CKPT_PATH = none) :
    Reads SegmentCatalog.open d (SegmentCatalog.ofManifest im.toLoadedManifest) := by
  rw [SegmentCatalog.open]
  refine (rejectLegacyFormats_reads hwal hckpt).bind fun d' hsame => ?_
  obtain ⟨v, hread, hv⟩ := readManifest_reads (d := d') (hsame.files ▸ h.loaded)
  refine hread.bind fun d'' _ => ?_
  rw [hv]
  exact .ofExcept _

/-- A catalog names the ids of its manifest. -/
theorem ofManifest_segmentIds {m : LoadedManifest Id} {c : SegmentCatalog Id}
    (h : SegmentCatalog.ofManifest m = .ok c) : c.segmentIds = m.segmentIds := by
  rw [SegmentCatalog.ofManifest] at h
  split at h
  · cases h
  · cases h
    rfl

/-- `ensure_segment_id` accepts exactly the ids of an increasing list. -/
theorem ensureSegmentId_ok_iff {c : SegmentCatalog Id}
    (hsorted : c.segmentIds.Pairwise (· < ·)) (k : Nat) :
    c.ensureSegmentId k = .ok () ↔ k ∈ c.segmentIds := by
  rw [SegmentCatalog.ensureSegmentId, ← binarySearch_isSome (hsorted.imp fun h => Nat.le_of_lt h)]
  split <;> simp_all

/-- `SegmentCatalog::read_segment` of a named id reads its file. -/
theorem readSegment_reads {c : SegmentCatalog Id} (hsorted : c.segmentIds.Pairwise (· < ·))
    {k : Nat} {seg : Seg} (hk : k ∈ c.segmentIds) (hseg : segFile d.files k = some seg) :
    Reads (c.readSegment k) d (.ok seg) := by
  have hname : c.segmentName k = .ok (segPath k) := by
    rw [SegmentCatalog.segmentName, (ensureSegmentId_ok_iff hsorted k).mpr hk]
    rfl
  rw [SegmentCatalog.readSegment, hname]
  exact (Reads.ofExcept _).bind fun d' hsame => readSegmentFile_reads (hsame.files ▸ hseg)

end Directory

end Segstore
