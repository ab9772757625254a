import Segstore.System.Lasting
import Segstore.System.LiveMap
import Segstore.Writer.Reload
import Segstore.Writer.Reports

/-!
# Readers

In a run without faults the view of a writer and the catalog of its directory
show the memory of the last commit.  The operations that the writer has seen
since are those in the live log.
-/

namespace Segstore

variable {Id Item F : Type} [DecidableEq Id]

/-! ## What readers see -/

/-- The live pairs of a view over vector segments. -/
def PubState.livePairs (v : PubState Id (List (Id × Item))) : List (Id × Item) :=
  v.sealed.flatMap (fun s => s.2.filter (fun e => v.isLiveIn s.1 e.1))

/-- The live pairs of the given segments, read through a catalog. -/
def SegmentCatalog.readLive (c : SegmentCatalog Id) :
    List Nat → DirM Id Item (List (Id × Item)) (List (Id × Item))
  | [] => pure []
  | k :: ks => do
      let seg ← c.readSegment k
      let rest ← readLive c ks
      pure (seg.filter (fun e => c.isLiveIn k e.1) ++ rest)

/-- The image is that of a committed memory. -/
def Committed (im : Image Id (List (Id × Item))) (m : Id → Option Item) : Prop :=
  ∃ (c : Contents Id Item (List (Id × Item))) (epoch : Nat),
    im = c.image epoch ∧ c.buffer = [] ∧ c.Stores m

/-- The view shows the image. -/
structure Published (v : PubState Id (List (Id × Item)))
    (im : Image Id (List (Id × Item))) : Prop where
  segments : v.segments = im.segments
  segmentIds : v.segmentIds = im.segmentIds
  live : ∀ seg id, v.isLiveIn seg id = copyIsLive im.tombstones im.superseded seg id

namespace Contents

theorem livePairs_of_empty {c : Contents Id Item (List (Id × Item))} (h : c.buffer = []) :
    c.livePairs = c.toPubState.livePairs := by
  rw [livePairs, h, List.append_nil]
  rfl

/-- A memory that is committed. -/
theorem Stores.committed {c : Contents Id Item (List (Id × Item))} {m : Id → Option Item}
    (h : c.Stores m) (epoch : Nat) :
    let c' := (c.flushBuffer (defaultStore Id Item)).retainSuperseded
    Committed (c'.image epoch) m ∧ Published c'.toPubState (c'.image epoch) ∧ c'.Stores m := by
  have hstores := h.flushBuffer.retainSuperseded
  exact ⟨⟨_, epoch, rfl, flushBuffer_buffer c _, hstores⟩,
    ⟨rfl, rfl, fun seg id => (copyIsLive_image epoch seg id).symm⟩, hstores⟩

/-- Merges keep the map. -/
theorem Stores.merged {c c' : Contents Id Item (List (Id × Item))} {m : Id → Option Item}
    {A : Deed Id Item (List (Id × Item)) → Prop} (h : c.Stores m)
    (hmerged : Merged (defaultStore Id Item) A c c') : c'.Stores m :=
  hmerged.induction (I := fun c => c.Stores m) (fun hc hpos _ => hc.merge hpos.1) h

theorem Stores.sealFull {c : Contents Id Item (List (Id × Item))} {m : Id → Option Item}
    (h : c.Stores m) (flushThreshold : Nat) :
    (c.sealFull (defaultStore Id Item) flushThreshold).Stores m := by
  rw [Contents.sealFull]
  split
  · exact h.flushBuffer
  · exact h

end Contents

/-- A committed image boots to the memory that was committed, and the view of
that shows the image. -/
theorem Committed.boots {im : Image Id (List (Id × Item))} {m : Id → Option Item}
    (h : Committed im m) : ∃ boot, im.boot (defaultStore Id Item) im.segments = .ok boot ∧
      boot.Stores m ∧ Published boot.toPubState im := by
  obtain ⟨c, epoch, rfl, hbuffer, hstores⟩ := h
  obtain ⟨boot, hboot, hsame⟩ := hstores.tracked.reload hbuffer epoch
  refine ⟨boot, hboot, hsame.stores hstores, hsame.segments, hsame.segmentIds, fun seg id => ?_⟩
  rw [Contents.copyIsLive_image]
  exact hsame.isLiveIn_eq seg id

/-! ## The invariant -/

/-- The log is what was issued since the commit that image and view show. -/
structure Faithful (issued : List (Op Id Item)) (l : Ledger Id Item (List (Id × Item))) :
    Prop where
  stores : l.contents.Stores (history nothing issued)
  committed : ∃ base, issued = base ++ l.log.records ∧ Committed l.image (history nothing base)
  published : Published l.published l.image

namespace Faithful

variable {issued : List (Op Id Item)} {l : Ledger Id Item (List (Id × Item))}

theorem commit (h : l.contents.Stores (history nothing issued)) :
    Faithful issued (l.commit (defaultStore Id Item)) := by
  obtain ⟨hcommitted, hpublished, hstores⟩ := h.committed (l.image.epoch + 1)
  exact ⟨hstores, ⟨issued, (List.append_nil _).symm, hcommitted⟩, hpublished⟩

/-- Every step keeps the readers faithful. -/
theorem step {A : Deed Id Item (List (Id × Item)) → Prop} {flushThreshold : Nat}
    (h : Faithful issued l) {ops : List (Op Id Item)} {l' : Ledger Id Item (List (Id × Item))}
    (hstep : Step (defaultStore Id Item) A flushThreshold l ops l') :
    Faithful (issued ++ ops) l' := by
  cases hstep with
  | @write op _ =>
      obtain ⟨base, hbase, hcommitted⟩ := h.committed
      refine ⟨?_, ⟨base, ?_, hcommitted⟩, h.published⟩
      · rw [history_concat]
        exact (h.stores.apply op).sealFull flushThreshold
      · rw [hbase, List.append_assoc]
        rfl
  | sync =>
      rw [List.append_nil]
      exact ⟨h.stores, h.committed, h.published⟩
  | sealRest =>
      rw [List.append_nil]
      exact ⟨h.stores.flushBuffer, h.committed, h.published⟩
  | commit hmerged =>
      rw [List.append_nil]
      exact commit (h.stores.flushBuffer.merged hmerged)
  | compact =>
      rw [List.append_nil]
      exact commit h.stores.flushBuffer.compacted

/-- Through a drop and an open. -/
theorem reopen (h : Faithful issued l) (flushThreshold : Nat) :
    ∃ boot, l.image.boot (defaultStore Id Item) l.image.segments = .ok boot ∧
      Faithful issued {
        contents := boot.replay (defaultStore Id Item) flushThreshold l.log.records
        image := l.image
        log := l.log
        published := boot.toPubState } := by
  obtain ⟨base, hbase, hcommitted⟩ := h.committed
  obtain ⟨boot, hboot, hstores, hpublished⟩ := hcommitted.boots
  refine ⟨boot, hboot, ?_, ⟨base, hbase, hcommitted⟩, hpublished⟩
  rw [hbase, history_append]
  exact hstores.replay flushThreshold l.log.records

theorem lasting [F64 F] (O : Options F → Prop) :
    Lasting (defaultStore Id Item) (fun _ => True) O Faithful :=
  ⟨fun _ h hstep => h.step hstep, fun _ h => h.reopen _⟩

end Faithful

theorem faithful_empty :
    Faithful [] (emptyLedger : Ledger Id Item (List (Id × Item))) := by
  obtain ⟨boot, hboot, hstores⟩ := boot_empty Id Item
  have heq : boot = (emptyLedger : Ledger Id Item (List (Id × Item))).contents :=
    (Except.ok.inj hboot).symm
  rw [heq] at hstores
  exact ⟨hstores, ⟨[], rfl, _, 0, rfl, rfl, hstores⟩, ⟨rfl, rfl, fun _ _ => rfl⟩⟩

/-! ## The readers of a writer -/

/-- What the readers of a writer see, each on its own way: the view that was
published, and a catalog that is opened now. -/
structure ReadersShow (s : SegmentedStore Id Item (List (Id × Item)) F)
    (m : Id → Option Item) : Prop where
  view : Shown s.published.livePairs m
  catalog : ∃ c d, SegmentCatalog.open (Proc.armed s []).dir = (.ok c, d) ∧
    c.segmentIds = s.published.segmentIds ∧
    (∀ k id, c.isLiveIn k id = s.published.isLiveIn k id) ∧
    (∀ k seg, (k, seg) ∈ s.published.sealed → (c.readSegment k d).1 = .ok seg) ∧
    ∃ pairs d', c.readLive c.segmentIds d = (.ok pairs, d') ∧ Shown pairs m

theorem Published.shown {v : PubState Id (List (Id × Item))}
    {im : Image Id (List (Id × Item))} {m : Id → Option Item} (h : Published v im)
    (him : Committed im m) : Shown v.livePairs m := by
  obtain ⟨c, epoch, rfl, hbuffer, hstores⟩ := him
  have heq : v.livePairs = c.livePairs := by
    have hlive : ∀ seg id, v.isLiveIn seg id = c.isLiveIn seg id := fun seg id =>
      (h.live seg id).trans (Contents.copyIsLive_image epoch seg id)
    rw [Contents.livePairs_of_empty hbuffer, PubState.livePairs, PubState.livePairs,
      PubState.sealed, h.segments, h.segmentIds]
    simp only [hlive]
    rfl
  rw [heq]
  exact Contents.shown_livePairs hstores.tracked hstores.map

/-- A catalog that names the segments reads their live pairs. -/
theorem readLive_reads {d : Directory Id Item (List (Id × Item))} {c : SegmentCatalog Id}
    (hsorted : c.segmentIds.Pairwise (· < ·)) {ks : List Nat}
    {segs : List (List (Id × Item))} (hks : ∀ k ∈ ks, k ∈ c.segmentIds)
    (hsegs : List.Forall₂ (fun k seg => segFile d.files k = some seg) ks segs) :
    Directory.Reads (c.readLive ks) d
      (.ok ((ks.zip segs).flatMap (fun s => s.2.filter (fun e => c.isLiveIn s.1 e.1)))) := by
  induction ks generalizing segs d with
  | nil => exact .pure _
  | cons k ks ih =>
      cases hsegs with
      | cons hk htail =>
          refine (Directory.readSegment_reads hsorted (hks k List.mem_cons_self) hk).bind
            fun d' hsame => ?_
          exact (ih (fun k' hk' => hks k' (List.mem_cons_of_mem _ hk'))
            (hsame.files ▸ htail)).bind fun d'' _ => .pure _

/-- The readers of a writer in agreement with its directory. -/
theorem ReadersShow.of_committed {s : SegmentedStore Id Item (List (Id × Item)) F}
    {im : Image Id (List (Id × Item))} (hcoh : s.dir.Coherent im) {m : Id → Option Item}
    (hpublished : Published s.published im) (hcommitted : Committed im m) :
    ReadersShow s m := by
  refine ⟨hpublished.shown hcommitted, ?_⟩
  have hview := hpublished.shown hcommitted
  let c : SegmentCatalog Id := {
    epoch := im.epoch
    nextSegmentId := im.nextSegId
    segmentIds := im.segmentIds
    tombstones := im.tombstones
    superseded := im.superseded }
  have hcatalog : SegmentCatalog.ofManifest im.toLoadedManifest = .ok c := by
    obtain ⟨c, epoch, rfl, -⟩ := hcommitted
    rfl
  have hlive : ∀ k id, c.isLiveIn k id = s.published.isLiveIn k id := fun k id =>
    (hpublished.live k id).symm
  have hopen := (Directory.catalog_open_reads (d := (Proc.armed s []).dir) hcoh.shows
    hcoh.noLegacyWal hcoh.noLegacyCkpt).calm rfl
  rw [hcatalog] at hopen
  obtain ⟨hsame, hr⟩ := hopen
  have hshows : Shows (SegmentCatalog.open (Proc.armed s []).dir).2.files im :=
    hsame.files.symm ▸ hcoh.shows
  refine ⟨c, _, Prod.ext hr rfl, hpublished.segmentIds.symm, hlive, fun k seg hk => ?_, ?_⟩
  · have hsealed : s.published.sealed = im.sealed := by
      rw [PubState.sealed, Image.sealed, hpublished.segments, hpublished.segmentIds]
    rw [hsealed] at hk
    exact ((Directory.readSegment_reads (c := c) hcoh.numbered.sorted (List.of_mem_zip hk).1
      (Shows.segFile_of_mem (p := (k, seg)) hshows hk)).calm (hsame.calm rfl)).2
  · obtain ⟨-, hpairs⟩ := (readLive_reads (c := c) hcoh.numbered.sorted (fun k hk => hk)
      hshows.segs).calm (hsame.calm rfl)
    refine ⟨_, _, Prod.ext hpairs rfl, ?_⟩
    simp only [hlive]
    rw [PubState.livePairs, PubState.sealed, hpublished.segments,
      hpublished.segmentIds] at hview
    exact hview

variable [F64 F]

omit [DecidableEq Id] [F64 F] in
/-- The operations in the live log of a writer. -/
def SegmentedStore.logged {Seg : Type} (s : SegmentedStore Id Item Seg F) : List (Op Id Item) :=
  (Directory.logOf s.dir.files s.wal).records

omit [DecidableEq Id] [F64 F] in
theorem Framed.logged_eq {Seg : Type} {s : SegmentedStore Id Item Seg F} {im : Image Id Seg}
    (h : Framed s im) (hepoch : im.epoch = s.epoch) : s.logged = (s.ledger im).log.records := by
  rw [SegmentedStore.logged, h.wal, ← hepoch]
  rfl

/-- After every run without faults the readers show the map of the last
commit: of all operations but those in the live log.  The calls that commit are
`checkpoint`, `compact`, `force_merge_to` down to one segment and every call that
merges, as its own statistics say.  Each raises the epoch, and starts a log that is
empty at the end, unless an `extend` went on after the commit.  Other calls leave the
readers alone and add to the log what they issue. -/
theorem readers_show_last_commit (fileBacked : Bool) (opts : Options F) (keep : Nat)
    (events : List (Event Id Item F))
    (hevents : ∀ e ∈ Event.reopen opts keep [] :: events, e.Faultless fileBacked) :
    ∃ s base, (Proc.run (defaultStore Id Item) (.fresh fileBacked) []
        (.reopen opts keep [] :: events)).1 = .running s ∧
      events.flatMap Event.ops = base ++ s.logged ∧
      Shown s.livePairs (history nothing (events.flatMap Event.ops)) ∧
      ReadersShow s (history nothing base) ∧
      ∀ cmd : Cmd Id Item F, ∃ reports t,
        cmd.reports (defaultStore Id Item) (Proc.armed s []) = (.ok reports, t) ∧
        Proc.step (defaultStore Id Item) (.running s) (.call cmd []) =
          (.running t, flagged true cmd.ops) ∧
        (cmd.Checkpointed reports → s.epoch < t.epoch ∧ t.logged <:+ cmd.ops ∧
          ((∀ items, cmd ≠ .extend items) → t.logged = [])) ∧
        (¬ cmd.Checkpointed reports → t.epoch = s.epoch ∧ t.published = s.published ∧
          t.logged = s.logged ++ cmd.ops) := by
  obtain ⟨s, im, hrun, hs, hI⟩ := (Faithful.lasting (fun _ => True)).run_opened
    (l := emptyLedger) (coherent_empty fileBacked) rfl rfl rfl faithful_empty hevents
    (fun e _ => by cases e <;> trivial) (Proc.heeds_true _ _ _)
  obtain ⟨base, hbase, hcommitted⟩ := hI.committed
  have hepoch := hs.current hs.healthy.1
  have hlogged := hs.framed.logged_eq hepoch
  refine ⟨s, base, congrArg Prod.fst hrun, ?_, ?_, ?_, fun cmd => ?_⟩
  · rw [hlogged]
    exact hbase
  · exact Contents.shown_livePairs hI.stores.tracked hI.stores.map
  · exact .of_committed hs.framed.disk hI.published hcommitted
  obtain ⟨t, im', hexec, ht, hcur, -, hhealthy, -, hledger⟩ :=
    exec_call_calm (defaultStore Id Item) hs.framed hs.current hs.bounded hs.healthy cmd
  obtain ⟨reports, hreports⟩ := Cmd.reports_of_exec (defaultStore Id Item) hexec
  have hepoch' := hcur hhealthy.1
  have hlogged' := ht.logged_eq hepoch'
  have hcommits := (s.ledger im).exec_commits_within (defaultStore Id Item) s.opts cmd
  rw [← hledger] at hcommits
  have hiff := ((reports_counts cmd (Proc.armed s [])).of_run hreports reports rfl).checkpointed_iff
  refine ⟨reports, t, hreports, by simp only [Proc.step, hexec]; rfl, fun hyes => ?_,
    fun hno => ?_⟩
  · have hdone := hiff.mp hyes
    rw [← hepoch, ← hepoch', hlogged']
    refine ⟨hcommits.epoch hdone, hcommits.left hdone, fun hcmd => ?_⟩
    obtain ⟨l, -, hl⟩ := ((s.ledger im).exec_commits (defaultStore Id Item) s.opts hcmd).commit
      hdone
    rw [hledger, hl]
    rfl
  · have hrest := hcommits.rest (hiff.not.mp hno)
    rw [← hepoch, ← hepoch', hlogged, hlogged']
    exact ⟨congrArg (fun im => im.epoch) hrest.image, hrest.published, hrest.logged⟩

/-- After a write, a checkpoint and another write the readers show the first write
only; a further checkpoint shows both. -/
theorem readers_show_last_commit_add :
    ∃ s t, (Proc.run (defaultStore Nat Nat) (.fresh (F := Rat) false) []
        [.reopen (.new 2) 0 [], .call (.add 1 5) [], .call .checkpoint [],
          .call (.add 1 6) []]).1 = .running s ∧
      Shown s.livePairs (history nothing [.add 1 5, .add 1 6]) ∧
      ReadersShow s (history nothing [.add 1 5]) ∧
      Proc.step (defaultStore Nat Nat) (.running s) (.call .checkpoint []) = (.running t, []) ∧
      s.epoch < t.epoch ∧ t.logged = [] := by
  obtain ⟨s, base, hrun, hbase, hlive, hshow, hcalls⟩ := readers_show_last_commit
    (F := Rat) false (.new 2) 0 [.call (.add 1 5) [], .call .checkpoint [], .call (.add 1 6) []]
    (by simp [Event.Faultless, Options.new])
  have hholds : Proc.holds (fun s => decide (s.logged = [.add 1 6]))
      (Proc.run (defaultStore Nat Nat) (.fresh (F := Rat) false) []
        [.reopen (.new 2) 0 [], .call (.add 1 5) [], .call .checkpoint [],
          .call (.add 1 6) []]).1 = true := by
    decide +kernel
  obtain ⟨s', hs', hlogged⟩ := Proc.holds_iff.mp hholds
  obtain rfl : s = s' := Proc.running.inj (hrun.symm.trans hs')
  rw [of_decide_eq_true hlogged] at hbase
  obtain rfl : base = [.add 1 5] := (List.append_cancel_right hbase).symm
  obtain ⟨reports, t, -, hstep, hcommit, -⟩ := hcalls .checkpoint
  obtain ⟨hepoch, -, hempty⟩ := hcommit (.inl rfl)
  exact ⟨s, t, hrun, hlive, hshow, hstep, hepoch, hempty (by simp)⟩

/-! ## A commit in the middle of a call -/

/-- Options under which every second write compacts. -/
def eager : Options Rat where
  flushThreshold := 1
  sync := .flush
  tiering := {
    minMerge := 2, maxMerge := 4, bucketLow := 1 / 2, bucketHigh := 3 / 2
    maxMergedLen := 100 }
  autoCompact := true

/-- The only call of a run checkpoints, and right after it the writer has a live
pair that its view has not. -/
theorem extend_commits_within_batch :
    ∃ s t, (Proc.run (defaultStore Nat Nat) (.fresh false) [] [.reopen eager 0 []]).1 =
        .running s ∧
      (Proc.run (defaultStore Nat Nat) (.fresh false) [] [.reopen eager 0 [],
        .call (.extend [(1, 1), (2, 2), (3, 3)]) []]).1 = .running t ∧
      t.epoch ≠ s.epoch ∧ (3, 3) ∈ t.livePairs ∧ (3, 3) ∉ t.published.livePairs := by
  have hopened : Proc.holds (fun s => decide (s.epoch = 0))
      (Proc.run (defaultStore Nat Nat) (.fresh false) [] [.reopen eager 0 []]).1 = true := by
    decide +kernel
  have hextended : Proc.holds (fun t => decide (t.epoch = 1 ∧ (3, 3) ∈ t.livePairs ∧
      (3, 3) ∉ t.published.livePairs)) (Proc.run (defaultStore Nat Nat) (.fresh false) []
        [.reopen eager 0 [], .call (.extend [(1, 1), (2, 2), (3, 3)]) []]).1 = true := by
    decide +kernel
  obtain ⟨s, hs, hs'⟩ := Proc.holds_iff.mp hopened
  obtain ⟨t, ht, ht'⟩ := Proc.holds_iff.mp hextended
  have hepoch := of_decide_eq_true hs'
  obtain ⟨hepoch', hlive, hview⟩ := of_decide_eq_true ht'
  refine ⟨s, t, hs, ht, ?_, hlive, hview⟩
  rw [hepoch, hepoch']
  exact Nat.one_ne_zero

end Segstore
