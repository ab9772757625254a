import Segstore.Memory.Consumers
import Segstore.System.LiveMap

/-!
# Stores of the consumer's own

What has been shown of stores over lists of entries holds of every store that
keeps its entries.  Its ledger is read as one over lists; each move of the store
is then a move over lists, up to the order of entries in a segment.
-/

namespace Segstore

variable {Id Item Seg F : Type} [DecidableEq Id] {st : Store Id Item Seg}

/-! ## Reading a ledger -/

variable {entries : Seg → List (Id × Item)}

/-- The image with the entries of its segments. -/
def Image.view (entries : Seg → List (Id × Item)) (im : Image Id Seg) :
    Image Id (List (Id × Item)) :=
  { im with segments := im.segments.map entries }

/-- The ledger with the entries of all segments. -/
def Ledger.view (entries : Seg → List (Id × Item)) (l : Ledger Id Item Seg) :
    Ledger Id Item (List (Id × Item)) where
  contents := l.contents.view entries
  image := l.image.view entries
  log := l.log
  published := l.published.view entries

/-- A move of the store is one over lists, up to the order in a segment. -/
theorem Ledger.view_move {l l' : Ledger Id Item Seg} (hst : st.Keeps entries)
    (hc : (l.contents.view entries).Tracked) (hmove : Ledger.Move st l l') :
    ∃ l₁, Ledger.Move (defaultStore Id Item) (l.view entries) l₁ ∧
      (l'.view entries).image = l₁.image ∧ (l'.view entries).log = l₁.log ∧
      ∀ {m}, l₁.contents.Stores m → (l'.contents.view entries).Stores m := by
  cases hmove with
  | flush =>
      exact ⟨_, .flush _, rfl, rfl, (Contents.view_flushBuffer hst hc.bufferNodup).stores⟩
  | alloc => exact ⟨_, .alloc _, rfl, rfl, id⟩
  | merge indices hpos =>
      have hpos' : Positions (l.view entries).contents.segments.length indices := by
        show Positions (l.contents.segments.map entries).length indices
        rwa [List.length_map]
      exact ⟨_, .merge _ indices hpos', rfl, rfl, (Contents.view_merge hst hc hpos.1).stores⟩
  | compacted hbuffer =>
      exact ⟨_, .compacted _ hbuffer, rfl, rfl, (Contents.view_compacted hst hc).stores⟩
  | prune => exact ⟨_, .prune _, rfl, rfl, id⟩
  | sync => exact ⟨_, .sync _, rfl, rfl, id⟩
  | commit hbuffer => exact ⟨_, .commit _ hbuffer, rfl, rfl, id⟩
  | publish => exact ⟨_, .publish _, rfl, rfl, id⟩

/-- What is carried by a store over lists is carried by every store. -/
theorem Carries.view_move {certain issued : List (Op Id Item) → Prop}
    {l l' : Ledger Id Item Seg} (hst : st.Keeps entries)
    (h : Carries certain issued (l.view entries)) (hissued : ∀ {ops}, certain ops → issued ops)
    (hmove : Ledger.Move st l l') : Carries certain issued (l'.view entries) := by
  obtain ⟨ops, -, hstores⟩ := h.memory
  obtain ⟨l₁, hmove', himage, hlog, hcontents⟩ := Ledger.view_move hst hstores.tracked hmove
  exact (h.move hissued hmove').withContents himage hlog hcontents

theorem Carries.view_apply {certain issued : List (Op Id Item) → Prop}
    {l : Ledger Id Item Seg} {op : Op Id Item}
    (h : Carries certain issued ((l.view entries).apply op)) :
    Carries certain issued ((l.apply op).view entries) := by
  refine h.withContents rfl rfl fun hs => ?_
  show ((l.contents.apply op).view entries).Stores _
  rw [Contents.view_apply]
  exact hs

/-- What survives of a store over lists survives of every store. -/
theorem Survives.steady_view (hst : st.Keeps entries) :
    Ledger.Steady st fun certain issued l => Survives certain issued (l.view entries) where
  move := fun h hweaker hmove => survives_iff.mpr
    ((survives_iff.mp h).view_move hst (fun hkept => hkept.weaken hweaker) hmove)
  sync := fun h hweaker => h.sync hweaker
  lost := fun ops h => h.lost ops
  append := fun op h hweaker => h.append hweaker op
  apply := fun op acked h hweaker =>
    survives_iff.mpr (survives_iff.mp (h.apply hweaker op acked)).view_apply

/-- Replay brings back what the log holds. -/
theorem Recovers.start_view {issued : List (Op Id Item) → Prop} (hst : st.Keeps entries)
    {im : Image Id Seg} {log : RecordLog Id Item} {base : List (Op Id Item)}
    (h : Recovers issued (im.view entries) log base) {boot : Contents Id Item Seg}
    (hboot : im.boot st im.segments = .ok boot) (flushThreshold keep : Nat) :
    Carries issued issued (Ledger.view entries {
      contents := boot.replay st flushThreshold (log.settled keep).records
      image := im
      log := log.settled keep
      published := boot.toPubState }) := by
  obtain ⟨boot', hboot', hstores⟩ := h.boots
  have hview : (im.view entries).boot (defaultStore Id Item) (im.view entries).segments =
      .ok (boot.view entries) := by
    show im.boot (defaultStore Id Item) (im.segments.map entries) = _
    rw [boot_view hst, hboot]
    rfl
  obtain rfl : boot' = boot.view entries := by
    rw [hview] at hboot'
    cases hboot'
    rfl
  have hfound : issued (base ++ (log.settled keep).records) := h.found _ (Nat.le_max_left _ _)
  refine ⟨⟨_, hfound, ?_⟩, base, h.settle keep, hfound⟩
  rw [history_append]
  exact Contents.stores_replay hst hstores flushThreshold _

/-- Reading the entries of every image gives one that boots over lists. -/
theorem Recovers.boots_of_view {issued : List (Op Id Item) → Prop} (hst : st.Keeps entries)
    {im : Image Id Seg} {log : RecordLog Id Item} {base : List (Op Id Item)}
    (h : Recovers issued (im.view entries) log base) :
    ∃ boot, im.boot st im.segments = .ok boot := by
  obtain ⟨boot, hboot, -⟩ := h.boots
  have hview : (im.boot st im.segments).map (Contents.view entries) = .ok boot :=
    (boot_view hst im.toLoadedManifest im.segments).symm.trans hboot
  cases hr : im.boot st im.segments with
  | ok b => exact ⟨b, rfl⟩
  | error e =>
      rw [hr] at hview
      cases hview

theorem resilient_consumers (hst : st.Keeps entries) :
    Resilient st (fun issued l => Survives issued issued (l.view entries))
      (fun issued im log => ∃ base, Recoverable issued (im.view entries) log base) where
  issue := fun h hissued => (Survives.steady_view hst).issue h hissued
  acknowledge := fun h hacked => (Survives.steady_view hst).acknowledge h hacked
  stop := fun h => h.disk.imp fun _ h => h.1
  settle := fun keep h => h.imp fun _ h => h.settle keep
  start := by
    rintro issued im log boot flushThreshold keep ⟨base, h⟩ hboot
    exact survives_iff.mpr (h.recovers.start_view hst hboot flushThreshold keep)

/-! ## Runs -/

/-- The live pairs of a writer over segments of any type. -/
def SegmentedStore.livePairsOf (entries : Seg → List (Id × Item))
    (s : SegmentedStore Id Item Seg F) : List (Id × Item) :=
  (s.toContents.view entries).livePairs

variable [F64 F]

/-- What every process of a run over such a store knows and finds. -/
abbrev Proc.SoundFor (entries : Seg → List (Id × Item)) (fileBacked : Bool)
    (issued : List (Op Id Item × Bool)) (p : Proc Id Item Seg F) : Prop :=
  p.Agrees fileBacked (fun issued l => Survives issued issued (l.view entries))
    (fun issued im log => ∃ base, Recoverable issued (im.view entries) log base) issued

omit [F64 F] in
theorem soundFor_empty (entries : Seg → List (Id × Item)) (fileBacked : Bool) :
    (Proc.closed (.empty fileBacked) : Proc Id Item Seg F).SoundFor entries fileBacked [] := by
  obtain ⟨boot, hboot, hstores⟩ := boot_empty Id Item
  exact ⟨rfl, emptyImage, coherent_empty fileBacked, [], ⟨⟨boot, hboot, hstores⟩,
    fun n _ => by simpa [Directory.logOf, Directory.empty, RecordLog.empty] using Kept.nil⟩⟩

omit [F64 F] in
/-- A writer shows the map of what memory keeps, and knows which segment holds
which live id. -/
theorem Proc.SoundFor.shown {fileBacked : Bool} {issued : List (Op Id Item × Bool)}
    {s : SegmentedStore Id Item Seg F}
    (h : (Proc.running s).SoundFor entries fileBacked issued) :
    ∃ survived, Segstore.Kept issued survived ∧
      Shown (s.livePairsOf entries) (history nothing survived) ∧
      ∀ id seg, s.liveSegmentOf id = some seg ↔
        (s.toContents.view entries).Lists seg id ∧ s.isLiveIn seg id = true := by
  obtain ⟨-, im, -, -, -, hsurvives⟩ := h
  obtain ⟨ops, hkept, hstores⟩ := hsurvives.memory
  exact ⟨ops, hkept, Contents.shown_livePairs hstores.tracked hstores.map, hstores.tracked.owner⟩

omit [F64 F] in
/-- Without faults a process keeps everything. -/
theorem Proc.SoundFor.shown_calm {fileBacked : Bool} {ops : List (Op Id Item)}
    {s : SegmentedStore Id Item Seg F}
    (h : (Proc.running s).SoundFor entries fileBacked (flagged true ops)) :
    Shown (s.livePairsOf entries) (history nothing ops) := by
  obtain ⟨survived, hkept, hshown, -⟩ := h.shown
  rwa [← hkept.eq_of_all_acked]

/-- Whatever a store's segments are, as long as it keeps its entries: a writer that
a run with any faults reaches shows the map of a subsequence of the operations that
contains all acknowledged ones, and so does the writer that a new process then
opens. -/
theorem consumers_recover (hst : st.Keeps entries) (fileBacked : Bool)
    (events : List (Event Id Item F)) :
    let q := Proc.run st (.closed (.empty fileBacked)) [] events
    (∀ s, q.1 = .running s → ∃ survived, Kept q.2 survived ∧
      Shown (s.livePairsOf entries) (history nothing survived) ∧
      ∀ id seg, s.liveSegmentOf id = some seg ↔
        (s.toContents.view entries).Lists seg id ∧ s.isLiveIn seg id = true) ∧
    ∀ (opts : Options F) (keep : Nat), (opts.sync = .fsync → fileBacked = true) →
      ∃ s d survived, openWithOptions st opts (q.1.dir.settle keep []) = (.ok s, d) ∧
        Kept q.2 survived ∧ Shown (s.livePairsOf entries) (history nothing survived) := by
  intro q
  have hsound : q.1.SoundFor entries fileBacked q.2 :=
    (resilient_consumers hst).run (soundFor_empty entries fileBacked) events
  refine ⟨fun s hs => (hs ▸ hsound).shown, fun opts keep hback => ?_⟩
  obtain ⟨hback', im, hcoh, base, hrec⟩ := (resilient_consumers hst).drop hsound
  obtain ⟨boot, hboot⟩ := hrec.recovers.boots_of_view hst
  have hopen := open_calm st (hcoh.settle keep []) rfl opts
    (fun hsync => hback'.trans (hback hsync)) hboot
  rw [Directory.logOf_settle] at hopen
  have hsurvives := (resilient_consumers hst).start opts.flushThreshold keep ⟨base, hrec⟩ hboot
  obtain ⟨ops, hkept, hstores⟩ := hsurvives.memory
  exact ⟨_, _, ops, Prod.ext hopen.2 rfl, hkept,
    Contents.shown_livePairs hstores.tracked hstores.map⟩

/-- A store whose segments are maps, in whatever order these keep their entries. -/
def mapStore (Id Item : Type) [DecidableEq Id] : Store Id Item (FinMap Id Item) where
  buildSegment batch := FinMap.ofPairs batch
  mergeSegments segments live :=
    FinMap.ofPairs ((segments.flatMap FinMap.pairs).filter fun entry => live entry.1)
  segmentLen segment := segment.pairs.length
  liveLen _ _ := none
  itemIds segment := some (segment.pairs.map Prod.fst)

omit [F64 F] in
theorem mapStore_keeps : (mapStore Id Item).Keeps FinMap.pairs where
  build := fun _ hnd => FinMap.pairs_ofPairs hnd
  merge := fun _ _ hnd => FinMap.pairs_ofPairs hnd
  len := fun _ => rfl
  ids := fun _ => rfl

/-- A merge of maps, a torn write and a reopen. -/
theorem consumers_recover_maps :
    ∃ s d survived, openWithOptions (mapStore Nat Nat) (.new 1 : Options Rat)
        ((Proc.run (F := Rat) (mapStore Nat Nat) (.closed (.empty false)) []
          [.reopen (.new 1) 0 [], .call (.extend [(1, 5), (2, 6), (1, 7)]) [], .call .compact [],
            .call (.delete 2) [fun _ => .stopped .everything]]).1.dir.settle 0 []) = (.ok s, d) ∧
      Kept (Proc.run (F := Rat) (mapStore Nat Nat) (.closed (.empty false)) []
          [.reopen (.new 1) 0 [], .call (.extend [(1, 5), (2, 6), (1, 7)]) [], .call .compact [],
            .call (.delete 2) [fun _ => .stopped .everything]]).2 survived ∧
      Shown (s.livePairsOf FinMap.pairs) (history nothing survived) :=
  (consumers_recover (F := Rat) mapStore_keeps false
    [.reopen (.new 1) 0 [], .call (.extend [(1, 5), (2, 6), (1, 7)]) [], .call .compact [],
      .call (.delete 2) [fun _ => .stopped .everything]]).2 (.new 1) 0 (by simp [Options.new])

end Segstore
