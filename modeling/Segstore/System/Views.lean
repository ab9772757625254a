import Segstore.System.Readers
import Segstore.Writer.Views

/-!
# Readers after faults

Whatever fails, the readers of a writer that is not poisoned show the map of the
last checkpoint, and what has survived is that and the live log.
-/

namespace Segstore

/-! ## One content for an id -/

section Concordant

variable {Id Item Seg : Type}

/-- What the files of the given ids would have to hold. -/
abbrev Holding (file : Nat → Option Seg) (ids : List Nat) (segments : List Seg) : Prop :=
  List.Forall₂ (fun k seg => file k = some seg) ids segments

theorem Holding.mono {file file' : Nat → Option Seg} {ids : List Nat} {segments : List Seg}
    (h : Holding file ids segments) (hfile : ∀ k seg, file k = some seg → file' k = some seg) :
    Holding file' ids segments :=
  List.Forall₂.imp (fun k seg hk => hfile k seg hk) h

/-- Memory, image and view mean the same by a segment id. -/
structure Ledger.Concordant (l : Ledger Id Item Seg) : Prop where
  shape : l.contents.Shape
  numbered : l.image.Numbered
  agreed : ∃ file : Nat → Option Seg, (∀ k, l.contents.nextSegId ≤ k → file k = none) ∧
    Holding file l.contents.segmentIds l.contents.segments ∧
    Holding file l.image.segmentIds l.image.segments ∧
    Holding file l.published.segmentIds l.published.segments

/-- New segments have new ids, so that those of before keep their meaning. -/
theorem Contents.Shape.holding [DecidableEq Id] {c : Contents Id Item Seg} (hc : c.Shape)
    {file : Nat → Option Seg} {n : Nat} (hnext : n ≤ c.nextSegId)
    (hfresh : ∀ k, n ≤ k → file k = none)
    (hold : ∀ p ∈ c.sealed, p.1 < n → file p.1 = some p.2) :
    ∃ file' : Nat → Option Seg, (∀ k seg, file k = some seg → file' k = some seg) ∧
      (∀ k, c.nextSegId ≤ k → file' k = none) ∧ Holding file' c.segmentIds c.segments := by
  have hkeys : (c.sealed.map Prod.fst).Nodup := by
    rw [Contents.map_fst_sealed hc.len]
    exact hc.sorted.imp fun h => Nat.ne_of_lt h
  refine ⟨fun k => if k < n then file k else (FinMap.ofPairs c.sealed).lookup k, ?_, ?_, ?_⟩
  · intro k seg hk
    have hlt : k < n := by
      by_contra hle
      rw [hfresh k (Nat.le_of_not_lt hle)] at hk
      cases hk
    exact (if_pos hlt).trans hk
  · intro k hk
    refine (if_neg (Nat.not_lt_of_le (hnext.trans hk))).trans ?_
    refine Option.eq_none_iff_forall_ne_some.mpr fun seg hseg => ?_
    have hmem := (FinMap.lookup_ofPairs hkeys k seg).mp hseg
    exact absurd (hc.below k (List.of_mem_zip hmem).1) (Nat.not_lt_of_le hk)
  · refine List.forall₂_iff_zip.mpr ⟨hc.len, fun {k seg} hmem => ?_⟩
    by_cases hlt : k < n
    · exact (if_pos hlt).trans (hold (k, seg) hmem hlt)
    · exact (if_neg hlt).trans ((FinMap.lookup_ofPairs hkeys k seg).mpr hmem)

namespace Ledger.Concordant

variable {l : Ledger Id Item Seg}

theorem grow [DecidableEq Id] (h : l.Concordant) {c : Contents Id Item Seg} (hc : c.Shape)
    (hgrows : l.contents.Grows c) :
    ({ l with contents := c } : Ledger Id Item Seg).Concordant := by
  obtain ⟨file, hfresh, hcontents, himage, hpublished⟩ := h.agreed
  obtain ⟨file', hmono, hfresh', hnew⟩ := hc.holding hgrows.next_le hfresh (by
    intro p hp hlt
    have hp' := (hgrows.mem_sealed p hp).resolve_right (Nat.not_le_of_lt hlt)
    exact (List.forall₂_iff_zip.mp hcontents).2 hp')
  exact ⟨hc, h.numbered, file', hfresh', hnew, himage.mono hmono, hpublished.mono hmono⟩

/-- The view has the segments of an image with the same ids. -/
theorem segments_eq (h : l.Concordant) (hids : l.published.segmentIds = l.image.segmentIds) :
    l.published.segments = l.image.segments := by
  obtain ⟨file, -, -, himage, hpublished⟩ := h.agreed
  rw [hids] at hpublished
  exact Shows.forall₂_unique hpublished himage

variable [DecidableEq Id] {st : Store Id Item Seg}

theorem closed : Ledger.Closed st (fun l => l.Concordant) where
  move := by
    rintro l _ h hmove
    cases hmove with
    | flush => exact h.grow (h.shape.flushBuffer st) (.flushBuffer st h.shape)
    | alloc => exact h.grow h.shape.allocId .allocId
    | merge indices _ => exact h.grow (h.shape.merge st indices) (.merge st h.shape indices)
    | compacted => exact h.grow (h.shape.compacted st) (.compacted st h.shape)
    | prune => exact h.grow h.shape.retainSuperseded .retainSuperseded
    | sync => exact ⟨h.shape, h.numbered, h.agreed⟩
    | commit =>
        obtain ⟨file, hfresh, hcontents, -, hpublished⟩ := h.agreed
        exact ⟨h.shape, ⟨h.shape.sorted, h.shape.below⟩, file, hfresh, hcontents, hcontents,
          hpublished⟩
    | publish =>
        obtain ⟨file, hfresh, hcontents, himage, -⟩ := h.agreed
        exact ⟨h.shape, h.numbered, file, hfresh, hcontents, himage, hcontents⟩
  append := fun op h => ⟨h.shape, h.numbered, h.agreed⟩
  apply := fun op h => h.grow (h.shape.apply op) (.apply op)

/-- After an open, memory and view have the segments of the image. -/
theorem of_boot {im : Image Id Seg} (hnum : im.Numbered)
    (hlen : im.segmentIds.length = im.segments.length) {boot : Contents Id Item Seg}
    (hboot : im.boot st im.segments = .ok boot) (flushThreshold : Nat)
    (log : RecordLog Id Item) : Ledger.Concordant {
      contents := boot.replay st flushThreshold log.records
      image := im
      log := log
      published := boot.toPubState } := by
  obtain ⟨hids, hsegs, hnext, -⟩ := boot_sealed st hboot
  have hshape : boot.Shape := by
    refine ⟨?_, hids ▸ hnum.sorted, ?_⟩
    · rwa [hids, hsegs]
    · rw [hids, hnext]
      exact hnum.below
  have hnone : ∀ k, 0 ≤ k → (fun _ => none : Nat → Option Seg) k = none := fun _ _ => rfl
  obtain ⟨file, -, hfresh, hboot'⟩ := hshape.holding (Nat.zero_le _) hnone
    fun p _ hlt => absurd hlt (Nat.not_lt_zero _)
  have hopened : Ledger.Concordant {
      contents := boot
      image := im
      log := log
      published := boot.toPubState } :=
    ⟨hshape, hnum, file, hfresh, hboot', hids ▸ hsegs ▸ hboot', hboot'⟩
  obtain ⟨hshape', hgrows⟩ := hshape.replay st flushThreshold log.records
  exact hopened.grow hshape' hgrows

theorem resilient : Resilient st (fun _ l => l.Concordant)
    (fun _ im _ => im.Numbered ∧ im.segmentIds.length = im.segments.length) :=
  .of_closed closed
    (fun h => ⟨h.numbered, by
      obtain ⟨file, -, -, himage, -⟩ := h.agreed
      exact himage.length_eq⟩)
    (fun _ h => h) fun flushThreshold h hboot => of_boot h.1 h.2 hboot flushThreshold _

end Ledger.Concordant

end Concordant

/-! ## What was committed -/

variable {Id Item F : Type} [DecidableEq Id]

/-- An image of a committed memory, whatever the memory is by now. -/
structure Ledger.OfCommit (l : Ledger Id Item (List (Id × Item))) : Prop where
  memory : ∃ m, l.contents.Stores m
  committed : ∃ m, Committed l.image m

namespace Ledger.OfCommit

theorem closed : Ledger.Closed (defaultStore Id Item) (fun l => l.OfCommit) where
  move := by
    rintro l _ ⟨⟨m, hstores⟩, hcommitted⟩ hmove
    cases hmove with
    | flush => exact ⟨⟨m, hstores.flushBuffer⟩, hcommitted⟩
    | alloc => exact ⟨⟨m, hstores.allocId⟩, hcommitted⟩
    | merge indices hpos => exact ⟨⟨m, hstores.merge hpos.1⟩, hcommitted⟩
    | compacted hbuffer => exact ⟨⟨m, hstores.compacted⟩, hcommitted⟩
    | prune => exact ⟨⟨m, hstores.retainSuperseded⟩, hcommitted⟩
    | sync => exact ⟨⟨m, hstores⟩, hcommitted⟩
    | commit hbuffer => exact ⟨⟨m, hstores⟩, m, _, _, rfl, hbuffer, hstores⟩
    | publish => exact ⟨⟨m, hstores⟩, hcommitted⟩
  append := fun op h => ⟨h.memory, h.committed⟩
  apply := by
    rintro l op ⟨⟨m, hstores⟩, hcommitted⟩
    exact ⟨⟨_, hstores.apply op⟩, hcommitted⟩

theorem resilient : Resilient (defaultStore Id Item) (fun _ l => l.OfCommit)
    (fun _ im _ => ∃ m, Committed im m) := by
  refine .of_closed closed (fun h => h.committed) (fun _ h => h) ?_
  rintro im log boot flushThreshold ⟨m, hcommitted⟩ hboot
  obtain ⟨boot', hboot', hstores, -⟩ := hcommitted.boots
  obtain rfl : boot = boot' := Except.ok.inj (hboot.symm.trans hboot')
  exact ⟨⟨_, hstores.replay flushThreshold log.records⟩, m, hcommitted⟩

end Ledger.OfCommit

/-- An image of a committed memory boots to one map only. -/
theorem Committed.map_eq {im : Image Id (List (Id × Item))} {m m' : Id → Option Item}
    (h : Committed im m) {boot : Contents Id Item (List (Id × Item))}
    (hboot : im.boot (defaultStore Id Item) im.segments = .ok boot) (hstores : boot.Stores m') :
    m = m' := by
  obtain ⟨boot', hboot', hstores', -⟩ := h.boots
  obtain rfl : boot = boot' := Except.ok.inj (hboot.symm.trans hboot')
  exact hstores'.map.map_unique hstores.map

/-! ## Runs -/

theorem resilient_readers : Resilient (defaultStore Id Item)
    (fun issued l => (Survives issued issued l ∧ l.OfCommit) ∧ l.Concordant)
    (fun issued im log => ((∃ base, Recoverable issued im log base) ∧ ∃ m, Committed im m) ∧
      im.Numbered ∧ im.segmentIds.length = im.segments.length) :=
  (resilient_survives.and Ledger.OfCommit.resilient).and Ledger.Concordant.resilient

/-- A process whose readers can be told what they see. -/
structure Proc.Readable (fileBacked : Bool) (issued : List (Op Id Item × Bool))
    (p : Proc Id Item (List (Id × Item)) F) : Prop where
  agrees : p.Agrees fileBacked
    (fun issued l => (Survives issued issued l ∧ l.OfCommit) ∧ l.Concordant)
    (fun issued im log => ((∃ base, Recoverable issued im log base) ∧ ∃ m, Committed im m) ∧
      im.Numbered ∧ im.segmentIds.length = im.segments.length) issued
  advertised : ∀ s, p = .running s → s.Advertised

namespace Proc.Readable

variable {fileBacked : Bool} {issued : List (Op Id Item × Bool)}

theorem empty (fileBacked : Bool) :
    (Proc.closed (.empty fileBacked) : Proc Id Item _ F).Readable fileBacked [] := by
  obtain ⟨boot, hboot, hstores⟩ := boot_empty Id Item
  have heq : boot = (emptyLedger : Ledger Id Item (List (Id × Item))).contents :=
    (Except.ok.inj hboot).symm
  have hcommitted : Committed (emptyImage : Image Id (List (Id × Item))) nothing :=
    ⟨boot, 0, heq ▸ rfl, heq ▸ rfl, hstores⟩
  refine ⟨⟨rfl, emptyImage, coherent_empty fileBacked, ⟨⟨[], ⟨boot, hboot, hstores⟩, ?_⟩, _,
    hcommitted⟩, ⟨.nil, by simp [emptyImage, LoadedManifest.absent]⟩, rfl⟩, fun s hs => by cases hs⟩
  intro n _
  simpa [Directory.logOf, Directory.empty, RecordLog.empty] using Segstore.Kept.nil

/-- The readers of a healthy writer show the last commit, and the log continues it. -/
theorem readers {s : SegmentedStore Id Item (List (Id × Item)) F}
    (h : (Proc.running s).Readable fileBacked issued) (hhealthy : s.poisoned = false) :
    ∃ base, Segstore.Kept issued (base ++ (Directory.logOf s.dir.files s.wal).records) ∧
      ReadersShow s (history nothing base) := by
  obtain ⟨⟨-, im, hframed, hcur, -, ⟨hsurvives, hcommit⟩, hconcordant⟩, hadvertised⟩ := h
  obtain ⟨base, hrec, hkept⟩ := hsurvives.disk
  obtain ⟨m, hcommitted⟩ := hcommit.committed
  obtain ⟨boot, hboot, hstores⟩ := hrec.boots
  have hmap : m = history nothing base := hcommitted.map_eq hboot hstores
  subst hmap
  obtain ⟨loaded, hloaded, hdescribes⟩ := (hadvertised s rfl).described hhealthy
  obtain rfl : im.toLoadedManifest = loaded :=
    Option.some.inj (hframed.disk.shows.loaded.symm.trans hloaded)
  have hpublished : Published s.published im :=
    ⟨hconcordant.segments_eq hdescribes.segmentIds, hdescribes.segmentIds, hdescribes.live⟩
  refine ⟨base, ?_, .of_committed hframed.disk hpublished hcommitted⟩
  rw [hframed.wal, ← hcur hhealthy]
  exact hkept

variable [F64 F]

theorem step {p : Proc Id Item (List (Id × Item)) F} (h : p.Readable fileBacked issued)
    (e : Event Id Item F) :
    (Proc.step (defaultStore Id Item) p e).1.Readable fileBacked
      (issued ++ (Proc.step (defaultStore Id Item) p e).2) := by
  refine ⟨resilient_readers.step h.agrees e, fun s hs => ?_⟩
  cases e with
  | reopen opts keep fates =>
      -- The view of a new writer is that of the memory before the log is replayed.
      obtain ⟨-, im, hcoh, ⟨-, m, hcommitted⟩, -⟩ := resilient_readers.drop h.agrees
      obtain ⟨-, -, -, hok⟩ := Proc.step_reopen_ends (defaultStore Id Item) p hcoh opts keep fates
      obtain ⟨hframed, -, -, boot, hboot, hledger⟩ := hok s hs
      obtain ⟨boot', hboot', -, hpublished⟩ := hcommitted.boots
      obtain rfl : boot = boot' := Except.ok.inj (hboot.symm.trans hboot')
      have hview : s.published = boot.toPubState := congrArg Ledger.published hledger
      refine ⟨hframed.wal, fun _ => ⟨_, hframed.disk.shows.loaded, ?_⟩⟩
      rw [hview]
      exact ⟨hpublished.segmentIds, hpublished.live⟩
  | call cmd fates =>
      cases p with
      | closed d => cases hs
      | running u =>
          have hu := h.advertised u rfl
          have hcall := ((SegmentedStore.partwise_advertises (defaultStore Id Item)).exec cmd)
            (Proc.armed u fates) ⟨hu.path, hu.described⟩
          simp only [Proc.step] at hs
          obtain ⟨-, hends, -⟩ := hcall
          generalize (cmd.exec (defaultStore Id Item) (Proc.armed u fates)).1 = r at hs hends
          cases r with
          | ok _ =>
              cases hs
              exact hends (by simp)
          | err e =>
              cases hs
              exact hends (by simp)
          | crash => cases hs

theorem run {p : Proc Id Item (List (Id × Item)) F} (h : p.Readable fileBacked issued)
    (events : List (Event Id Item F)) :
    (Proc.run (defaultStore Id Item) p issued events).1.Readable fileBacked
      (Proc.run (defaultStore Id Item) p issued events).2 :=
  Proc.run_induction (defaultStore Id Item) (I := fun issued p => p.Readable fileBacked issued)
    (C := fun _ => True) (fun _ _ e _ hq => hq.step e) (fun _ _ => trivial) h

end Proc.Readable

variable [F64 F]

/-- Whatever failed before: as long as a writer is not poisoned, its view and its
catalog show one map, and that map continued by the live log is what has survived.
A later call other than `extend` that returns, whatever fails below it, either keeps
the view, or leaves readers that show all that has survived. -/
theorem readers_after_faults (fileBacked : Bool) (events : List (Event Id Item F))
    (s : SegmentedStore Id Item (List (Id × Item)) F)
    (hs : (Proc.run (defaultStore Id Item) (.fresh fileBacked) [] events).1 = .running s)
    (hhealthy : s.poisoned = false) :
    let issued := (Proc.run (defaultStore Id Item) (.fresh (F := F) fileBacked) [] events).2
    (∃ base, Kept issued (base ++ (Directory.logOf s.dir.files s.wal).records) ∧
      ReadersShow s (history nothing base)) ∧
    ∀ (cmd : Cmd Id Item F) (fates : List (Call → Fate)), (∀ items, cmd ≠ .extend items) →
      ∀ t, cmd.exec (defaultStore Id Item) (Proc.armed s fates) = (.ok (), t) →
        t.epoch = s.epoch ∧ t.published = s.published ∨
          ∃ base, Kept (issued ++ flagged true cmd.ops) base ∧
            ReadersShow t (history nothing base) := by
  intro issued
  have hrun : (Proc.running s).Readable fileBacked issued :=
    hs ▸ (Proc.Readable.empty fileBacked).run events
  refine ⟨hrun.readers hhealthy, fun cmd fates hcmd t ht => ?_⟩
  obtain ⟨⟨-, im, hframed, hcur, hb, -⟩, -⟩ := id hrun
  have hends := Resilient.armed_exec_ends (defaultStore Id Item) hframed hcur hb cmd fates
  rw [Ends, ht] at hends
  obtain ⟨im', ht', hcur', -, -, -, hok⟩ := hends
  obtain ⟨hpoisoned, -, hexec⟩ := hok rfl
  have hepoch : im'.epoch = t.epoch := hcur' (by simp) (hpoisoned.trans hhealthy)
  rcases ((s.ledger im).exec_commits (defaultStore Id Item) s.opts hcmd).cases with h | ⟨l, h⟩
  · rw [← hexec] at h
    refine .inl ⟨?_, h.published⟩
    rw [← hepoch, ← hcur hhealthy]
    exact congrArg (fun im => im.epoch) h.image
  · rw [← hexec] at h
    have hempty : (Directory.logOf t.dir.files t.wal).records = [] := by
      rw [ht'.wal, ← hepoch]
      exact congrArg (fun l => l.log.records) h
    have hstep : Proc.step (defaultStore Id Item) (.running s) (.call cmd fates) =
        (.running t, flagged true cmd.ops) := by
      simp only [Proc.step, ht]
      rfl
    have hnext := hrun.step (.call cmd fates)
    rw [hstep] at hnext
    obtain ⟨base, hkept, hshow⟩ := hnext.readers (hpoisoned.trans hhealthy)
    rw [hempty, List.append_nil] at hkept
    exact .inr ⟨base, hkept, hshow⟩

/-- A torn write, a reopen and a failed checkpoint before the readers look. -/
theorem readers_after_faults_torn :
    ∃ s base, (Proc.run (defaultStore Nat Nat) (.fresh (F := Rat) false) []
        [.reopen (.new 2) 0 [], .call (.add 1 5) [], .call .checkpoint [],
          .call (.add 2 6) [fun _ => .stopped .everything], .reopen (.new 2) 9 [],
          .call .checkpoint [fun _ => .failed (.io "full") .nothing]]).1 = .running s ∧
      Kept (Proc.run (defaultStore Nat Nat) (.fresh (F := Rat) false) []
        [.reopen (.new 2) 0 [], .call (.add 1 5) [], .call .checkpoint [],
          .call (.add 2 6) [fun _ => .stopped .everything], .reopen (.new 2) 9 [],
          .call .checkpoint [fun _ => .failed (.io "full") .nothing]]).2
        (base ++ (Directory.logOf s.dir.files s.wal).records) ∧
      ReadersShow s (history nothing base) := by
  have hopened : Proc.holds (fun s => !s.poisoned) (Proc.run (defaultStore Nat Nat)
      (.fresh (F := Rat) false) [] [.reopen (.new 2) 0 [], .call (.add 1 5) [],
        .call .checkpoint [], .call (.add 2 6) [fun _ => .stopped .everything],
        .reopen (.new 2) 9 [],
        .call .checkpoint [fun _ => .failed (.io "full") .nothing]]).1 = true := by
    decide +kernel
  obtain ⟨s, hs, hhealthy⟩ := Proc.holds_iff.mp hopened
  obtain ⟨⟨base, hkept, hshow⟩, -⟩ := readers_after_faults (F := Rat) false
    [.reopen (.new 2) 0 [], .call (.add 1 5) [], .call .checkpoint [],
      .call (.add 2 6) [fun _ => .stopped .everything], .reopen (.new 2) 9 [],
      .call .checkpoint [fun _ => .failed (.io "full") .nothing]] s hs (by simpa using hhealthy)
  exact ⟨s, base, hs, hkept, hshow⟩

end Segstore
