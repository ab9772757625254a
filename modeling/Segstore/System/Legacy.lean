import Segstore.Writer.Calm
import Segstore.Writer.Reload

/-!
# Opening a manifest of the original layout

A manifest of the original layout does not say which copies are superseded.
`open_with_options` gives every id to the last segment that lists it, in memory
only, and refuses the directory when one segment lists an id twice as live.
The next checkpoint writes down what it found.  The segment ids need not be in
any order.
-/

namespace Segstore

variable {Id Item Seg F : Type} [DecidableEq Id]

/-- A directory with a manifest of the original layout, the segments it names
and an empty WAL. -/
structure OriginalLayout (d : Directory Id Item Seg) (im : Image Id Seg) : Prop where
  shows : Shows d.files im
  original : ∃ epoch m, d.files.lookup MANIFEST_PATH = some (.checkpoint epoch (.manifest m)) ∧
    m.ext = none
  distinct : im.segmentIds.Nodup
  emptyWal : Unlogged d.files (walPath im.epoch)
  noLegacyWal : d.files.lookup LEGACY_WAL_PATH = none

namespace OriginalLayout

variable {d : Directory Id Item Seg} {im : Image Id Seg}

omit [DecidableEq Id] in
theorem image_eq (h : OriginalLayout d im) :
    im.hasOwnershipMetadata = false ∧ im.superseded = ∅ := by
  obtain ⟨epoch, m, hlookup, hext⟩ := h.original
  have hloaded := h.shows.loaded
  rw [loadedOf, hlookup] at hloaded
  simp only [hext] at hloaded
  rw [← Option.some.inj hloaded]
  exact ⟨rfl, rfl⟩

omit [DecidableEq Id] in
theorem walLog (h : OriginalLayout d im) : d.files.lookup (walPath im.epoch) = none ∨
    ∃ log, d.files.lookup (walPath im.epoch) = some (.log log) :=
  h.emptyWal.imp_right fun hlog => ⟨_, hlog⟩

omit [DecidableEq Id] in
theorem manifest_ne_none (h : OriginalLayout d im) : d.files.lookup MANIFEST_PATH ≠ none := by
  obtain ⟨epoch, m, hlookup, -⟩ := h.original
  rw [hlookup]
  exact Option.some_ne_none _

omit [DecidableEq Id] in
/-- The catalog has no use for such a manifest unless it names no segment. -/
theorem catalog_fails_iff (h : OriginalLayout d im) {d' : Directory Id Item Seg}
    (hcalm : d'.Calm) (hshows : Shows d'.files im)
    (hman : d'.files.lookup MANIFEST_PATH = d.files.lookup MANIFEST_PATH)
    (hwal : d'.files.lookup LEGACY_WAL_PATH = d.files.lookup LEGACY_WAL_PATH) :
    (∃ e, (SegmentCatalog.open d').1 = .err e) ↔ im.segmentIds ≠ [] := by
  obtain ⟨-, hr⟩ := (Directory.catalog_open_reads hshows (hwal.trans h.noLegacyWal)
    (.inl (hman ▸ h.manifest_ne_none))).calm hcalm
  rw [hr, SegmentCatalog.ofManifest, h.image_eq.1]
  cases im.segmentIds with
  | nil => simp
  | cons k ks => simp

end OriginalLayout

/-! ## Whose copy lives -/

namespace Image

/-- Some segment lists an id more than once that is not tombstoned. -/
def RepeatsLive (im : Image Id (List (Id × Item))) : Prop :=
  ∃ p ∈ im.sealed, ∃ id ∉ im.tombstones, 1 < (p.2.map Prod.fst).count id

/-- The last segment of manifest order that lists the id. -/
def lastLister (im : Image Id (List (Id × Item))) (id : Id) : Option Nat :=
  ((im.sealed.filter (fun p => decide (id ∈ p.2.map Prod.fst))).map Prod.fst).getLast?

variable {im : Image Id (List (Id × Item))}

/-- Without marks an id is ambiguous when a segment repeats it. -/
theorem ambiguous_iff (h : im.superseded = ∅) :
    Ambiguous im.toLoadedManifest im.segments ↔ im.RepeatsLive := by
  have hlive : ∀ seg id, copyIsLive im.tombstones im.superseded seg id = true ↔
      id ∉ im.tombstones := by
    intro seg id
    rw [copyIsLive_iff, h]
    exact and_iff_left (not_marked_empty seg id)
  rw [Ambiguous, RepeatsLive]
  refine exists_congr fun p => and_congr_right fun _ => ?_
  rw [List.nodup_iff_count_le_one, not_forall]
  refine exists_congr fun id => ?_
  rw [not_le, liveIds]
  by_cases hid : copyIsLive im.tombstones im.superseded p.1 id = true
  · rw [List.count_filter hid]
    exact (and_iff_right ((hlive _ _).mp hid)).symm
  · rw [List.count_eq_zero.mpr fun hmem => hid (List.mem_filter.mp hmem).2]
    exact iff_of_false (by simp) fun hno => hid ((hlive _ _).mpr hno.1)

/-- Without marks the claimants of an id are its listers. -/
theorem claimants_getLast? (h : im.superseded = ∅) (id : Id) (seg : Nat) :
    (claimants im.tombstones im.superseded (listed im.sealed) id).getLast? = some seg ↔
      id ∉ im.tombstones ∧ im.lastLister id = some seg := by
  have hlive : ∀ seg, copyIsLive im.tombstones im.superseded seg id =
      decide (id ∉ im.tombstones) := by
    intro seg
    rw [Bool.eq_iff_iff, copyIsLive_iff, h, decide_eq_true_iff]
    exact and_iff_left (not_marked_empty seg id)
  rw [claimants, listed, List.filter_map, List.map_map]
  simp only [hlive, Function.comp_def]
  by_cases hid : id ∈ im.tombstones
  · simp [hid]
  · simp [hid, lastLister]

end Image

/-! ## The open and the next checkpoint -/

namespace OriginalLayout

variable {d : Directory Id Item (List (Id × Item))} {im : Image Id (List (Id × Item))}

/-- Where the ownership of an id cannot be told, the open fails and changes no
file but the lock. -/
theorem refuses (h : OriginalLayout d im) (hcalm : d.fates = []) (opts : Options F)
    (hback : opts.sync = .fsync → d.fileBacked = true) (hdup : im.RepeatsLive) :
    ∃ seg, (openWithOptions (defaultStore Id Item) opts d).1 = .err (duplicateError seg) ∧
      ∀ name, name ≠ LOCK_PATH →
        (openWithOptions (defaultStore Id Item) opts d).2.files.lookup name =
          d.files.lookup name := by
  obtain ⟨seg, herr⟩ := boot_error h.shows.length_eq h.distinct
    ((Image.ambiguous_iff h.image_eq.2).mpr hdup)
  refine ⟨seg, ?_⟩
  rcases Directory.open_ends (defaultStore Id Item) opts h.shows h.noLegacyWal
    (.inl h.manifest_ne_none) h.walLog with ⟨-, hlocked, hr⟩ | ⟨boot, -, -, hboot, -⟩
  · obtain ⟨e, hfailed, he⟩ := hr hcalm hback
    obtain rfl : e = duplicateError seg := Except.error.inj (he.symm.trans herr)
    exact ⟨hfailed, fun name hname => hlocked.agree name (by simpa using hname)⟩
  · cases hboot.symm.trans herr

/-- Otherwise it succeeds, and all it does is to lock the directory and to delete what
it takes for garbage. -/
theorem runs (h : OriginalLayout d im) (hcalm : d.fates = []) (opts : Options F)
    (hback : opts.sync = .fsync → d.fileBacked = true) (hunique : ¬ im.RepeatsLive) :
    ∃ boot d₂ d', Booted im.toLoadedManifest im.segments boot ∧
      im.boot (defaultStore Id Item) im.segments = .ok boot ∧
      openWithOptions (defaultStore Id Item) opts d =
        (.ok (SegmentedStore.opened (defaultStore Id Item) opts im.toLoadedManifest boot [] d'),
          d') ∧
      d'.Calm ∧ Directory.Locked d d₂ ∧
      Directory.Deletes (fun name => name ∈ ([] : List String) ∨
        isOpenGarbage im.epoch im.segmentIds name = true) d₂ d' ∧
      ∀ name, isOpenGarbage im.epoch im.segmentIds name = true →
        d'.files.lookup name = none := by
  obtain ⟨boot, hboot, hb⟩ := boot_ok h.shows.length_eq h.distinct
    ((Image.ambiguous_iff h.image_eq.2).not.mpr hunique)
  have hends := Directory.open_ends (defaultStore Id Item) opts h.shows h.noLegacyWal
    (.inl h.manifest_ne_none) h.walLog
  rw [Ends] at hends
  generalize openWithOptions (defaultStore Id Item) opts d = q at hends ⊢
  obtain ⟨r, d'⟩ := q
  dsimp only at hends
  rcases hends with ⟨-, -, hr⟩ | ⟨boot', d₂, r', hboot', hlocked, hgc, hr⟩
  · obtain ⟨e, -, he⟩ := hr hcalm hback
    cases he.symm.trans hboot
  obtain rfl : boot' = boot := Except.ok.inj (hboot'.symm.trans hboot)
  have hcalm₂ := hlocked.calm hcalm
  have hreturns := Directory.collectGarbage_returns [] (isOpenGarbage im.epoch im.segmentIds)
    d₂ hcalm₂
  obtain ⟨hsteps, -, hgone⟩ :=
    (Directory.collectGarbage_deletes [] (isOpenGarbage im.epoch im.segmentIds) d₂).of_run hgc
  obtain ⟨⟨⟨⟩, rfl⟩, hcalm'⟩ := hreturns.of_run hgc
  obtain rfl : r = .ok _ := by
    rcases hr with ⟨-, hr⟩ | ⟨e, hno, -⟩ | ⟨hno, -⟩
    · exact hr
    · cases hno
    · cases hno
  have hobliging : d₂.Obliging := by
    rw [Directory.Obliging, hcalm₂]
    exact fun _ hfate => absurd hfate List.not_mem_nil
  exact ⟨boot', d₂, d', hb, hboot, by rw [h.emptyWal.logOf_eq]; rfl, hcalm', hlocked, hsteps,
    fun name hname => hgone hobliging rfl name (.inr hname)⟩

/-- Nothing that the manifest needs is touched. -/
theorem opens (h : OriginalLayout d im) (hcalm : d.fates = []) (opts : Options F)
    (hback : opts.sync = .fsync → d.fileBacked = true) (hunique : ¬ im.RepeatsLive) :
    ∃ boot d', Booted im.toLoadedManifest im.segments boot ∧
      openWithOptions (defaultStore Id Item) opts d =
        (.ok (SegmentedStore.opened (defaultStore Id Item) opts im.toLoadedManifest boot [] d'),
          d') ∧
      d'.Calm ∧ Shows d'.files im ∧
      d'.files.lookup MANIFEST_PATH = d.files.lookup MANIFEST_PATH ∧
      d'.files.lookup LEGACY_WAL_PATH = none := by
  obtain ⟨boot, d₂, d', hb, -, hopen, hcalm', hlocked, hsteps, -⟩ :=
    h.runs hcalm opts hback hunique
  have htrim := hsteps.trimmed
  have hspared := Directory.dispensable_openGarbage im
  refine ⟨boot, d', hb, hopen, hcalm', ?_, ?_, ?_⟩
  · exact (hlocked.shows h.shows).congr (htrim.eq hspared.manifest)
      fun k hk => htrim.eq (hspared.named k hk)
  · exact (htrim.eq hspared.manifest).trans (hlocked.lookup_eq _ (by simp))
  · exact hsteps.gone ((hlocked.lookup_eq _ (by simp)).trans h.noLegacyWal)

/-- The first checkpoint writes down what the open found, for catalogs to see. -/
theorem checkpointed {boot : Contents Id Item (List (Id × Item))}
    (hb : Booted im.toLoadedManifest im.segments boot) {d' : Directory Id Item (List (Id × Item))}
    (hcalm : d'.Calm) (hshows : Shows d'.files im)
    (hwal : d'.files.lookup LEGACY_WAL_PATH = none) (opts : Options F) :
    let s := SegmentedStore.opened (defaultStore Id Item) opts im.toLoadedManifest boot [] d'
    ∃ t c, SegmentedStore.checkpoint (defaultStore Id Item) s = (.ok (), t) ∧
      (SegmentCatalog.open t.dir).1 = .ok c ∧ c.segmentIds = im.segmentIds ∧
      ∀ seg ∈ im.segmentIds, ∀ id, c.isLiveIn seg id = s.isLiveIn seg id := by
  intro s
  have hidle := SegmentedStore.checkpoint_idle (defaultStore Id Item) (s := s) ⟨hcalm, rfl, rfl⟩
    hb.buffer (fun k hk => (hb.segmentIds ▸ hk : k ∈ im.segmentIds)) (by
      show List.Forall₂ _ boot.segmentIds boot.segments
      rw [hb.segmentIds, hb.segments]
      exact hshows.segs)
  rw [Ends] at hidle
  obtain ⟨hok, hcalm', hshows', hman, hwal'⟩ := hidle
  obtain ⟨-, hopened⟩ := (Directory.catalog_open_reads hshows'
    (hwal'.trans hwal) (.inl hman)).calm hcalm'
  refine ⟨_, _, Prod.ext hok rfl, hopened, hb.segmentIds, fun seg hseg id => ?_⟩
  refine (Contents.copyIsLive_image (s.epoch + 1) seg id).trans ?_
  rw [Bool.eq_iff_iff, Contents.isLiveIn_iff, Contents.isLiveIn_iff]
  refine and_congr_right fun _ => not_congr ?_
  refine marked_congr ?_ id
  have hmem : seg ∈ boot.segmentIds := hb.segmentIds ▸ hseg
  rw [Contents.retainSuperseded, FinMap.lookup_retain, if_pos]
  exact List.contains_iff_mem.mpr hmem

end OriginalLayout

/-- Opening a manifest of the original layout fails exactly when a segment
repeats an id that is not tombstoned, and then changes no file but the lock.
Otherwise the copy of an id in the last segment that lists it is the only live
one, for the writer, for its view, and for a catalog once there has been a
checkpoint.  That needs a next epoch: in the source an epoch is a `u64`. -/
theorem original_layout_resolves {d : Directory Id Item (List (Id × Item))}
    {im : Image Id (List (Id × Item))} (h : OriginalLayout d im) (hcalm : d.fates = [])
    (opts : Options F) (hback : opts.sync = .fsync → d.fileBacked = true) :
    ((∃ msg, (openWithOptions (defaultStore Id Item) opts d).1 = .err (.format msg)) ↔
      im.RepeatsLive) ∧
    ((∃ e, (SegmentCatalog.open d).1 = .err e) ↔ im.segmentIds ≠ []) ∧
    (im.RepeatsLive → ∀ name, name ≠ LOCK_PATH →
      (openWithOptions (defaultStore Id Item) opts d).2.files.lookup name =
        d.files.lookup name) ∧
    (¬ im.RepeatsLive → ∃ s,
      (openWithOptions (defaultStore Id Item) opts d).1 = .ok s ∧ s.sealed = im.sealed ∧
      (∀ seg id, s.Lists seg id ∧ s.isLiveIn seg id = true ↔
        id ∉ im.tombstones ∧ im.lastLister id = some seg) ∧
      s.published = s.toPubState ∧
      ((∃ e, (SegmentCatalog.open s.dir).1 = .err e) ↔ im.segmentIds ≠ []) ∧
      (im.epoch + 1 < 2 ^ 64 →
        ∃ t c, SegmentedStore.checkpoint (defaultStore Id Item) s = (.ok (), t) ∧
          (SegmentCatalog.open t.dir).1 = .ok c ∧ c.segmentIds = im.segmentIds ∧
          ∀ seg ∈ im.segmentIds, ∀ id, c.isLiveIn seg id = s.isLiveIn seg id)) := by
  have hcatalog := h.catalog_fails_iff hcalm h.shows rfl rfl
  by_cases hdup : im.RepeatsLive
  · obtain ⟨seg, hr, hfiles⟩ := h.refuses hcalm opts hback hdup
    exact ⟨⟨fun _ => hdup, fun _ => ⟨_, hr⟩⟩, hcatalog, fun _ => hfiles,
      fun hno => absurd hdup hno⟩
  · obtain ⟨boot, d', hb, hopen, hcalm', hshows, hman, hwal⟩ := h.opens hcalm opts hback hdup
    have hsealed : boot.sealed = im.sealed := hb.sealed
    rw [hopen]
    refine ⟨⟨?_, fun hno => absurd hno hdup⟩, hcatalog, fun hno => absurd hno hdup, fun _ =>
      ⟨_, rfl, hsealed, fun seg id => ?_, rfl,
        h.catalog_fails_iff hcalm' hshows hman (hwal.trans h.noLegacyWal.symm),
        fun _ => OriginalLayout.checkpointed hb hcalm' hshows hwal opts⟩⟩
    · rintro ⟨msg, hmsg⟩
      cases hmsg
    · rw [← Image.claimants_getLast? h.image_eq.2 id seg, ← hsealed,
        ← hb.owner]
      refine (hb.owner_iff ?_ (hb.segmentIds ▸ h.distinct) id seg).symm
      rw [hb.segmentIds, hb.segments]
      exact h.shows.length_eq

/-! ## Directories with given segments -/

/-- The files of the segments. -/
def segmentFiles : List (Nat × List (Nat × Nat)) → Files Nat Nat (List (Nat × Nat))
  | [] => ∅
  | (k, seg) :: rest => (segmentFiles rest).insert (segPath k) (.checkpoint 0 (.segment seg))

/-- A directory of the original layout with these segments. -/
def originalDir (nextSegId : Nat) (segs : List (Nat × List (Nat × Nat))) (tombstones : List Nat) :
    Directory Nat Nat (List (Nat × Nat)) where
  files := (segmentFiles segs).insert MANIFEST_PATH (.checkpoint 0 (.manifest {
    nextSegId := nextSegId, segmentIds := segs.map Prod.fst, tombstones := tombstones
    ext := none }))
  past := []
  fates := []
  fileBacked := false

/-- Its image. -/
def originalImage (nextSegId : Nat) (segs : List (Nat × List (Nat × Nat)))
    (tombstones : List Nat) : Image Nat (List (Nat × Nat)) where
  toLoadedManifest := {
    hasOwnershipMetadata := false, epoch := 0, nextSegId := nextSegId
    segmentIds := segs.map Prod.fst, tombstones := tombstones, superseded := ∅ }
  segments := segs.map Prod.snd

variable {nextSegId : Nat} {segs : List (Nat × List (Nat × Nat))} {tombstones : List Nat}

theorem segmentFiles_other {name : String} (hs : familyOf name ≠ some 's') :
    (segmentFiles segs).lookup name = none := by
  induction segs with
  | nil => rfl
  | cons p rest ih =>
      rw [segmentFiles, FinMap.lookup_insert_eq, if_neg (ne_of_familyOf (by simpa using hs)), ih]

theorem segmentFiles_segs (hnd : (segs.map Prod.fst).Nodup) :
    List.Forall₂ (fun k seg => segFile (segmentFiles segs) k = some seg) (segs.map Prod.fst)
      (segs.map Prod.snd) := by
  induction segs with
  | nil => exact .nil
  | cons p rest ih =>
      obtain ⟨hnew, hrest⟩ := List.nodup_cons.mp hnd
      refine .cons ?_ (Shows.forall₂_congr (ih hrest) fun k hk => segFile_congr ?_)
      · rw [segFile, segmentFiles, FinMap.lookup_insert_eq, if_pos rfl]
      · rw [segmentFiles, FinMap.lookup_insert_eq, if_neg]
        rintro heq
        exact hnew (segPath_inj.mp heq ▸ hk)

theorem originalDir_other {name : String} (hm : familyOf name ≠ some 'm')
    (hs : familyOf name ≠ some 's') :
    (originalDir nextSegId segs tombstones).files.lookup name = none := by
  rw [originalDir, FinMap.lookup_insert_eq, if_neg (ne_of_familyOf (by simpa using hm)),
    segmentFiles_other hs]

theorem originalDir_original (hnd : (segs.map Prod.fst).Nodup) :
    OriginalLayout (originalDir nextSegId segs tombstones)
      (originalImage nextSegId segs tombstones) := by
  have hman : (originalDir nextSegId segs tombstones).files.lookup MANIFEST_PATH =
      some (.checkpoint 0 (.manifest {
        nextSegId := nextSegId, segmentIds := segs.map Prod.fst, tombstones := tombstones
        ext := none })) :=
    AList.lookup_insert _
  have hsegs : ∀ k, (originalDir nextSegId segs tombstones).files.lookup (segPath k) =
      (segmentFiles segs).lookup (segPath k) := by
    intro k
    have hne : segPath k ≠ MANIFEST_PATH := ne_of_familyOf (by simp)
    rw [originalDir, FinMap.lookup_insert_eq, if_neg hne]
  refine ⟨⟨?_, Shows.forall₂_congr (segmentFiles_segs hnd) fun k _ => segFile_congr (hsegs k)⟩,
    ⟨0, _, hman, rfl⟩, hnd, .inl (originalDir_other (by simp) (by simp)),
    originalDir_other (by simp) (by simp)⟩
  rw [loadedOf, hman]
  rfl

/-- Two segments, not in the order of their ids, with an id that both list and one that
is tombstoned, and a segment that lists an id twice. -/
theorem original_layout_resolves_shared :
    (∃ s t c, (openWithOptions (defaultStore Nat Nat) (.new (F := Rat) 10)
        (originalDir 8 [(7, [(1, 5), (2, 6)]), (3, [(1, 9), (4, 2)])] [2])).1 = .ok s ∧
      (s.isLiveIn 7 1 = false ∧ s.isLiveIn 3 1 = true ∧ s.isLiveIn 3 4 = true ∧
        s.isLiveIn 7 2 = false) ∧
      SegmentedStore.checkpoint (defaultStore Nat Nat) s = (.ok (), t) ∧
      (SegmentCatalog.open t.dir).1 = .ok c ∧
      c.isLiveIn 7 1 = false ∧ c.isLiveIn 3 1 = true) ∧
    ∃ msg, (openWithOptions (defaultStore Nat Nat) (.new (F := Rat) 10)
      (originalDir 1 [(0, [(1, 5), (1, 6)])] [])).1 = .err (.format msg) := by
  constructor
  · have hlayout : OriginalLayout
        (originalDir 8 [(7, [(1, 5), (2, 6)]), (3, [(1, 9), (4, 2)])] [2])
        (originalImage 8 [(7, [(1, 5), (2, 6)]), (3, [(1, 9), (4, 2)])] [2]) :=
      originalDir_original (by decide)
    obtain ⟨-, -, -, hopen⟩ := original_layout_resolves hlayout rfl (.new (F := Rat) 10)
      (by simp [Options.new])
    have hdistinct : ∀ p ∈ (originalImage 8 [(7, [(1, 5), (2, 6)]), (3, [(1, 9), (4, 2)])]
        [2]).sealed, (p.2.map Prod.fst).Nodup := by
      decide
    obtain ⟨s, hs, hsealed, hlive, -, -, hcheckpoint⟩ := hopen (by
      rintro ⟨p, hp, id, -, hmany⟩
      exact absurd (List.nodup_iff_count_le_one.mp (hdistinct p hp) id)
        (Nat.not_le_of_lt hmany))
    obtain ⟨t, c, ht, hc, -, hagree⟩ := hcheckpoint (by decide)
    have hseven : (7, [(1, 5), (2, 6)]) ∈ s.sealed := by
      rw [hsealed]
      decide
    -- the first segment lists the ids 1 and 2, but not as the last one, or in vain
    have helsewhere : ∀ id ∈ [1, 2], ¬ (id ∉ [2] ∧
        (originalImage 8 [(7, [(1, 5), (2, 6)]), (3, [(1, 9), (4, 2)])] [2]).lastLister id =
          some 7) := by
      decide
    have hdead : ∀ id ∈ [1, 2], s.isLiveIn 7 id = false := fun id hid =>
      Bool.eq_false_iff.mpr fun hl =>
        helsewhere id hid ((hlive 7 id).mp ⟨⟨_, hseven, hid⟩, hl⟩)
    have hone := ((hlive 3 1).mpr (by decide)).2
    refine ⟨s, t, c, hs, ⟨hdead 1 (by decide), hone, ((hlive 3 4).mpr (by decide)).2,
      hdead 2 (by decide)⟩, ht, hc, ?_, ?_⟩
    · exact (hagree 7 (by decide) 1).trans (hdead 1 (by decide))
    · exact (hagree 3 (by decide) 1).trans hone
  · refine (original_layout_resolves (originalDir_original (by decide)) rfl
      (.new (F := Rat) 10) (by simp [Options.new])).1.mpr ?_
    exact ⟨(0, [(1, 5), (1, 6)]), by decide, 1, by decide, by decide⟩

end Segstore
