import Segstore.Disk.Reads
import Segstore.Writer.Writes

/-!
# Reopening

What a new process finds in the directory, and what `open_with_options` makes
of it.  Opening changes nothing that the image needs, and a writer it returns
is framed.
-/

namespace Segstore

variable {Id Item Seg F : Type}

namespace Directory

variable {d : Directory Id Item Seg} {im : Image Id Seg}

/-! ## The next process -/

theorem lookup_settle (d : Directory Id Item Seg) (keep : Nat) (fates : List (Call → Fate))
    (name : String) :
    (d.settle keep fates).files.lookup name = (d.files.lookup name).map (settleFile keep) :=
  FinMap.lookup_mapValues _ _ _

theorem loadedOf_settle (d : Directory Id Item Seg) (keep : Nat) (fates : List (Call → Fate)) :
    loadedOf (d.settle keep fates).files = loadedOf d.files := by
  rw [loadedOf, loadedOf, lookup_settle]
  rcases d.files.lookup MANIFEST_PATH with - | (- | - | -) <;> rfl

theorem segFile_settle (d : Directory Id Item Seg) (keep : Nat) (fates : List (Call → Fate))
    (k : Nat) : segFile (d.settle keep fates).files k = segFile d.files k := by
  rw [segFile, segFile, lookup_settle]
  rcases d.files.lookup (segPath k) with - | (- | - | -) <;> rfl

theorem logOf_settle (d : Directory Id Item Seg) (keep : Nat) (fates : List (Call → Fate))
    (name : String) :
    logOf (d.settle keep fates).files name = (logOf d.files name).settled keep := by
  rw [logOf, logOf, lookup_settle]
  rcases d.files.lookup name with - | (- | log | -)
  · simp [RecordLog.settled, RecordLog.empty]
  · simp [settleFile, RecordLog.settled, RecordLog.empty]
  · rfl
  · simp [settleFile, RecordLog.settled, RecordLog.empty]

theorem lookup_settle_none {name : String} (h : d.files.lookup name = none) (keep : Nat)
    (fates : List (Call → Fate)) : (d.settle keep fates).files.lookup name = none := by
  rw [lookup_settle, h]
  rfl

theorem unlogged_settle {name : String} (h : Unlogged d.files name) (keep : Nat)
    (fates : List (Call → Fate)) : Unlogged (d.settle keep fates).files name := by
  refine h.imp (lookup_settle_none · keep fates) fun hlog => ?_
  rw [lookup_settle, hlog, Option.map_some, settleFile, RecordLog.settled_empty]

theorem shows_settle (h : Shows d.files im) (keep : Nat) (fates : List (Call → Fate)) :
    Shows (d.settle keep fates).files im :=
  ⟨(loadedOf_settle d keep fates).trans h.loaded,
    Shows.forall₂_congr h.segs fun k _ => segFile_settle d keep fates k⟩

theorem lineage_settle (h : Lineage d.states) (hs : Shows d.files im) (hnum : im.Numbered)
    (keep : Nat) (fates : List (Call → Fate)) : Lineage (d.settle keep fates).states :=
  h.cons hs (shows_settle hs keep fates) hnum
    ⟨Nat.le_refl _, fun _ _ hk => hk, fun k _ => .inl (segFile_settle d keep fates k)⟩

/-- The image outlives the process. -/
theorem Coherent.settle (h : d.Coherent im) (keep : Nat) (fates : List (Call → Fate)) :
    (d.settle keep fates).Coherent im := by
  refine ⟨shows_settle h.shows keep fates, h.numbered,
    fun k hk => unlogged_settle (h.unlogged k hk) keep fates, ?_,
    lookup_settle_none h.noLegacyWal keep fates, ?_,
    lineage_settle h.lineage h.shows h.numbered keep fates⟩
  · refine h.walLog.imp (lookup_settle_none · keep fates) ?_
    rintro ⟨log, hlog⟩
    exact ⟨log.settled keep, by rw [lookup_settle, hlog]; rfl⟩
  · refine h.noLegacyCkpt.imp (fun hman => ?_) (lookup_settle_none · keep fates)
    rw [lookup_settle]
    simpa using hman

/-! ## Opening -/

/-- The directory with its lock file. -/
structure Locked (d d' : Directory Id Item Seg) : Prop where
  agree : AgreeOff [LOCK_PATH] d.files d'.files
  states : d'.past = d.past ∧ d'.files = d.files ∨ d'.past = d.files :: d.past
  fileBacked : d'.fileBacked = d.fileBacked
  fates : d'.fates <:+ d.fates

theorem Locked.refl (d : Directory Id Item Seg) : Locked d d :=
  ⟨.refl _ _, .inl ⟨rfl, rfl⟩, rfl, List.suffix_rfl⟩

theorem Locked.calm {d d' : Directory Id Item Seg} (h : Locked d d') (hcalm : d.fates = []) :
    d'.fates = [] :=
  List.suffix_nil.mp (hcalm ▸ h.fates)

theorem Locked.of_same {d₁ d₂ d₃ : Directory Id Item Seg} (h₁ : Same d₁ d₂)
    (h₂ : Locked d₂ d₃) : Locked d₁ d₃ :=
  ⟨h₁.files ▸ h₂.agree, by rw [← h₁.past, ← h₁.files]; exact h₂.states,
    h₂.fileBacked.trans h₁.fileBacked, h₂.fates.trans h₁.fates⟩

theorem Locked.same {d₁ d₂ d₃ : Directory Id Item Seg} (h₁ : Locked d₁ d₂) (h₂ : Same d₂ d₃) :
    Locked d₁ d₃ := by
  refine ⟨h₂.files ▸ h₁.agree, ?_, h₂.fileBacked.trans h₁.fileBacked,
    h₂.fates.trans h₁.fates⟩
  rw [h₂.past, h₂.files]
  exact h₁.states

/-- The lock file is no concern of the image's. -/
theorem Locked.lookup_eq {d d' : Directory Id Item Seg} (h : Locked d d') (name : String)
    (hname : familyOf name ≠ some 'l') : d'.files.lookup name = d.files.lookup name :=
  h.agree.familyOf (by simpa [eq_comm] using hname)

theorem Locked.shows {d d' : Directory Id Item Seg} (h : Locked d d') (hs : Shows d.files im) :
    Shows d'.files im :=
  hs.congr (h.lookup_eq _ (by simp)) fun k _ => h.lookup_eq _ (by simp)

theorem Locked.lineage {d d' : Directory Id Item Seg} (h : Locked d d') (hs : Shows d.files im)
    (hnum : im.Numbered) (hl : Lineage d.states) : Lineage d'.states := by
  rcases h.states with ⟨hpast, hfiles⟩ | hpast
  · rw [Directory.states, hpast, hfiles]
    exact hl
  · rw [Directory.states, hpast]
    refine hl.cons hs (h.shows hs) hnum ⟨Nat.le_refl _, fun _ _ hk => hk, fun k _ => ?_⟩
    exact .inl (segFile_congr (h.lookup_eq _ (by simp)))

theorem Locked.coherent {d d' : Directory Id Item Seg} (h : Locked d d') (hd : d.Coherent im) :
    d'.Coherent im := by
  rcases h.states with ⟨hpast, hfiles⟩ | hpast
  · exact hd.congr hfiles hpast
  · have hharmless : Coherent.Harmless im d.files d'.files :=
      .of_agree fun name _ hl _ _ => h.lookup_eq name hl
    exact (hd.harmless hharmless).congr rfl hpast

theorem acquireStoreLock_ends (d : Directory Id Item Seg) :
    Ends acquireStoreLock d (fun r d' => Locked d d' ∧ (d.fates = [] → r = .ok ())) := by
  have hagree : ∀ files : Files Id Item Seg, files = d.files ∨ files =
      (if (d.files.lookup LOCK_PATH).isSome then d.files
        else d.files.insert LOCK_PATH (.raw [])) → Locked d (d.become files) := by
    intro files hfiles
    refine ⟨?_, .inr rfl, rfl, List.tail_suffix _⟩
    rcases hfiles with rfl | rfl
    · exact .refl _ _
    · split
      · exact .refl _ _
      · intro name hname
        rw [become, FinMap.lookup_insert_eq, if_neg (by simpa using hname)]
  rw [acquireStoreLock, Ends.read_bind_iff]
  split
  · refine Ends.and (perform_leaves (fun _ => hagree _ (.inr rfl)) (fun _ _ => hagree _ (.inl rfl))
      fun _ _ => hagree _ (.inl rfl)) ?_
    intro hcalm
    rw [perform, nextFate, hcalm]
  · exact Ends.pure_iff.mpr ⟨.refl d, fun _ => rfl⟩

variable [DecidableEq Id] (st : Store Id Item Seg) (opts : Options F)

/-- How `open` ends: early, with no file changed but the lock, or with garbage
collection on a directory whose image boots. -/
def OpenEnds (d : Directory Id Item Seg) (im : Image Id Seg)
    (r : Outcome PersistenceError (SegmentedStore Id Item Seg F))
    (d' : Directory Id Item Seg) : Prop :=
  (∀ s, r ≠ .ok s) ∧ Locked d d' ∧
      (d.fates = [] → (opts.sync = .fsync → d.fileBacked = true) →
        ∃ e, r = .err e ∧ im.boot st im.segments = .error e) ∨
    ∃ boot d₂ r', im.boot st im.segments = .ok boot ∧ Locked d d₂ ∧
      collectGarbage [] (isOpenGarbage im.epoch im.segmentIds) d₂ = (r', d') ∧
        (r' = .ok () ∧ r = .ok (SegmentedStore.opened st opts im.toLoadedManifest boot
            (logOf d.files (walPath im.epoch)).records d') ∨
          (∃ e, r' = .err e ∧ r = .err e) ∨ r' = .crash ∧ r = .crash)

/-- `open_with_options`, under any fates. -/
theorem open_ends (hs : Shows d.files im) (hwal : d.files.lookup LEGACY_WAL_PATH = none)
    (hckpt : d.files.lookup MANIFEST_PATH ≠ none ∨ d.files.lookup LEGACY_CKPT_PATH = none)
    (hlog : d.files.lookup (walPath im.epoch) = none ∨
      ∃ log, d.files.lookup (walPath im.epoch) = some (.log log)) :
    Ends (openWithOptions st opts) d (OpenEnds st opts d im) := by
  have hearly : ∀ {r : Outcome PersistenceError (SegmentedStore Id Item Seg F)}
      {d' : Directory Id Item Seg}, (∀ s, r ≠ .ok s) → Locked d d' → d.fates ≠ [] →
      OpenEnds st opts d im r d' :=
    fun hr hlocked hne => .inl ⟨hr, hlocked, fun hcalm => absurd hcalm hne⟩
  -- a part that only reads ends the call, or what it reads is known
  have hreads : ∀ {α : Type} {p : DirM Id Item Seg α} {d₁ : Directory Id Item Seg} {v : α}
      {f : α → DirM Id Item Seg (SegmentedStore Id Item Seg F)}, Locked d d₁ →
      Reads p d₁ (.ok v) → (∀ d₂, Same d₁ d₂ → Ends (f v) d₂ (OpenEnds st opts d im)) →
      Ends (p >>= f) d₁ (OpenEnds st opts d im) := by
    intro α p d₁ v f h₁ hp hf
    refine Ends.bind hp ?_ ?_ ?_
    · rintro a d₂ ⟨hsame, hr | ⟨-, hr | ⟨msg, hr⟩⟩⟩
      · cases hr
        exact hf d₂ hsame
      · cases hr
      · cases hr
    · rintro e d₂ ⟨hsame, hr | ⟨hne, -⟩⟩
      · cases hr
      · exact hearly (by simp) (h₁.same hsame) fun hcalm => hne (h₁.calm hcalm)
    · rintro d₂ ⟨hsame, hr | ⟨hne, -⟩⟩
      · cases hr
      · exact hearly (by simp) (h₁.same hsame) fun hcalm => hne (h₁.calm hcalm)
  rw [openWithOptions, openChecks, bind_assoc, Ends.read_bind_iff]
  split
  · rename_i hfsync
    refine Ends.fail_bind_iff.mpr (.inl ⟨by simp, .refl d, fun _ hback => ?_⟩)
    simp only [Bool.and_eq_true, decide_eq_true_eq, Bool.not_eq_true'] at hfsync
    rw [hback hfsync.1] at hfsync
    exact absurd hfsync.2 (by simp)
  refine hreads (.refl d) (rejectLegacyFormats_reads hwal hckpt) fun d₁ h₁ => ?_
  rw [openLocked]
  refine Ends.bind (acquireStoreLock_ends d₁) ?_ ?_ ?_
  case refine_2 =>
    rintro e d₂ ⟨h₂, hr⟩
    refine hearly (by simp) (.of_same h₁ h₂) fun hcalm => ?_
    cases hr (h₁.calm hcalm)
  case refine_3 =>
    rintro d₂ ⟨h₂, hr⟩
    refine hearly (by simp) (.of_same h₁ h₂) fun hcalm => ?_
    cases hr (h₁.calm hcalm)
  rintro ⟨⟩ d₂ ⟨h₂, -⟩
  replace h₂ : Locked d d₂ := .of_same h₁ h₂
  obtain ⟨v, hread, hv⟩ := readManifest_reads (h₂.shows hs).loaded
  refine hreads h₂ hread fun d₃ h₃ => ?_
  replace h₃ : Locked d d₃ := h₂.same h₃
  simp only [hv]
  refine hreads h₃ (readSegments_reads (h₃.shows hs).segs) fun d₄ h₄ => ?_
  replace h₄ : Locked d d₄ := h₃.same h₄
  cases hboot : im.boot st im.segments with
  | error e =>
      refine Ends.fail_bind_iff.mpr (.inl ⟨by simp, h₄, fun _ _ => ⟨e, rfl, hboot⟩⟩)
  | ok boot =>
      refine Ends.pure_bind_iff.mpr ?_
      have hwalEq := h₄.lookup_eq (walPath im.epoch) (by simp)
      refine hreads h₄ (readLiveWal_reads (hwalEq ▸ hlog)) fun d₅ h₅ => ?_
      have hlogEq : logOf d₄.files (walPath im.epoch) = logOf d.files (walPath im.epoch) := by
        rw [logOf, logOf, hwalEq]
      rw [hlogEq]
      refine Ends.bind (R := fun r d₆ =>
        collectGarbage [] (isOpenGarbage im.epoch im.segmentIds) d₅ = (r, d₆)) rfl ?_ ?_ ?_
      · rintro ⟨⟩ d₆ hgc
        refine Ends.get_bind_iff.mpr (Ends.pure_iff.mpr
          (.inr ⟨boot, d₅, _, hboot, h₄.same h₅, hgc, .inl ⟨rfl, rfl⟩⟩))
      · exact fun e d₆ hgc =>
          .inr ⟨boot, d₅, _, hboot, h₄.same h₅, hgc, .inr (.inl ⟨e, rfl, rfl⟩)⟩
      · exact fun d₆ hgc =>
          .inr ⟨boot, d₅, _, hboot, h₄.same h₅, hgc, .inr (.inr ⟨rfl, rfl⟩)⟩

/-- Only a backend with files is opened under a policy that syncs them. -/
theorem open_backed (d : Directory Id Item Seg) :
    Ends (openWithOptions st opts) d (fun r _ => ∀ s, r = .ok s →
      opts.sync = .fsync → d.fileBacked = true) := by
  rw [openWithOptions, openChecks, bind_assoc, Ends.read_bind_iff]
  split
  · exact Ends.fail_bind_iff.mpr (by simp)
  · rename_i hfsync
    intro s _ hsync
    simpa [hsync] using hfsync

omit [DecidableEq Id] in
/-- The names that `open` may delete. -/
theorem dispensable_openGarbage (im : Image Id Seg) :
    Dispensable im (fun name => name ∈ ([] : List String) ∨
      isOpenGarbage im.epoch im.segmentIds name = true) where
  manifest := by
    rw [isOpenGarbage_eq_false (by simp) (by simp) (by simp)]
    simp
  named := by
    intro k hk
    rw [isOpenGarbage_segPath hk]
    simp
  wal := by
    rw [isOpenGarbage_walPath]
    simp

end Directory

/-! ## The writer that is returned -/

variable [DecidableEq Id] (st : Store Id Item Seg)
variable {d : Directory Id Item Seg} {im : Image Id Seg}

/-- The memory before replay has the segments of the image. -/
theorem boot_sealed {boot : Contents Id Item Seg} (hboot : im.boot st im.segments = .ok boot) :
    boot.segmentIds = im.segmentIds ∧ boot.segments = im.segments ∧
      boot.nextSegId = im.nextSegId ∧ boot.tombstones = im.tombstones ∧ boot.buffer = [] ∧
        boot.bufferIds = [] := by
  rw [LoadedManifest.boot] at hboot
  split at hboot
  · cases hboot
    exact ⟨rfl, rfl, rfl, rfl, rfl, rfl⟩
  · cases hboot

theorem boot_shape {boot : Contents Id Item Seg} (hs : Shows d.files im) (hnum : im.Numbered)
    (hboot : im.boot st im.segments = .ok boot) : boot.Shape := by
  obtain ⟨hids, hsegs, hnext, -⟩ := boot_sealed st hboot
  refine ⟨?_, hids ▸ hnum.sorted, ?_⟩
  · rw [hids, hsegs]
    exact hs.length_eq
  · rw [hids, hnext]
    exact hnum.below

/-- Replay leaves the buffer below the threshold. -/
theorem replay_bounded (flushThreshold : Nat) (ops : List (Op Id Item))
    {c : Contents Id Item Seg} (hc : c.buffer.length < max flushThreshold 1) :
    (c.replay st flushThreshold ops).buffer.length < max flushThreshold 1 := by
  induction ops generalizing c with
  | nil => exact hc
  | cons op ops ih =>
      refine ih ?_
      show ((c.apply op).sealFull st flushThreshold).buffer.length < _
      rw [Contents.sealFull]
      split
      · rw [Contents.flushBuffer_buffer]
        exact Nat.lt_of_lt_of_le Nat.zero_lt_one (Nat.le_max_right _ _)
      · rename_i hshort
        exact Nat.lt_of_lt_of_le (Nat.lt_of_not_le hshort) (Nat.le_max_left _ _)

/-- The writer that `open` returns agrees with its directory. -/
theorem opened_framed (hd : d.Coherent im) (opts : Options F) {boot : Contents Id Item Seg}
    (hboot : im.boot st im.segments = .ok boot) (ops : List (Op Id Item)) :
    let s := SegmentedStore.opened st opts im.toLoadedManifest boot ops d
    Framed s im ∧ Current s im ∧ Bounded s := by
  obtain ⟨hids, hsegs, hnext, -, hbuffer, -⟩ := boot_sealed st hboot
  have hsealed : boot.sealed = im.sealed := by rw [PubState.sealed, Image.sealed, hids, hsegs]
  obtain ⟨hshape, hgrows⟩ :=
    (boot_shape st hd.shows hd.numbered hboot).replay st opts.flushThreshold ops
  have hmem : ∀ p ∈ (boot.replay st opts.flushThreshold ops).sealed, p.1 < im.nextSegId →
      p ∈ im.sealed := by
    intro p hp hlt
    rcases hgrows.mem_sealed p hp with hp | hp
    · rwa [hsealed] at hp
    · exact absurd (hnext ▸ hp) (Nat.not_le_of_lt hlt)
  refine ⟨⟨hd, hshape, hnext ▸ hgrows.next_le, hmem, fun p hp hpers => ?_, fun k hk => hk,
    fun k hk => ?_, rfl⟩, fun _ => rfl, ?_⟩
  · exact hd.shows.segFile_of_mem (hmem p hp (hd.numbered.below _ hpers))
  · exact (hd.numbered.below k hk).trans_le (hnext ▸ hgrows.next_le)
  · refine replay_bounded st _ _ ?_
    rw [hbuffer]
    exact Nat.lt_of_lt_of_le Nat.zero_lt_one (Nat.le_max_right _ _)

/-- `open_with_options` on a coherent directory, under any fates. -/
theorem reopen_ends (hd : d.Coherent im) (opts : Options F) :
    Ends (openWithOptions st opts) d (fun r d' => d'.Coherent im ∧
      d'.fileBacked = d.fileBacked ∧
      Directory.logOf d'.files (walPath im.epoch) = Directory.logOf d.files (walPath im.epoch) ∧
      (∀ name, familyOf name = some 'i' →
        d'.files.lookup name = d.files.lookup name ∨ d'.files.lookup name = none) ∧
      ∀ s, r = .ok s → ∃ boot, im.boot st im.segments = .ok boot ∧
        s = SegmentedStore.opened st opts im.toLoadedManifest boot
          (Directory.logOf d.files (walPath im.epoch)).records d') := by
  refine (Directory.open_ends st opts hd.shows hd.noLegacyWal hd.noLegacyCkpt hd.walLog).mono ?_
  rintro r d' (⟨hr, hlocked, -⟩ | ⟨boot, d₂, r', hboot, hlocked, hgc, hr⟩)
  · refine ⟨hlocked.coherent hd, hlocked.fileBacked, ?_, fun name hname =>
      .inl (hlocked.lookup_eq name (by simp [hname])), fun s hs => absurd hs (hr s)⟩
    simp only [Directory.logOf, hlocked.lookup_eq (walPath im.epoch) (by simp)]
  · have hclean := (Directory.collectGarbage_ends (Directory.dispensable_openGarbage im)
      (hlocked.coherent hd)).of_run hgc
    have hwal : d'.files.lookup (walPath im.epoch) = d.files.lookup (walPath im.epoch) :=
      (hclean.1.trimmed.eq (Directory.dispensable_openGarbage im).wal).trans
        (hlocked.lookup_eq _ (by simp))
    refine ⟨hclean.1.coherent, hclean.1.fileBacked.trans hlocked.fileBacked, ?_,
      fun name hname => ?_, fun s hs => ⟨boot, hboot, ?_⟩⟩
    · simp only [Directory.logOf, hwal]
    · rw [← hlocked.lookup_eq name (by simp [hname])]
      exact (hclean.1.trimmed name).imp_right And.left
    · rcases hr with ⟨-, hr⟩ | ⟨e, -, hr⟩ | ⟨-, hr⟩
      · exact Outcome.ok.inj (hs.symm.trans hr)
      · cases hs.symm.trans hr
      · cases hs.symm.trans hr

end Segstore
