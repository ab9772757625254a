import Segstore.Memory.Shrinking
import Segstore.System.Sidecars
import Segstore.System.Readers

/-!
# The live ids of a segment

A sidecar is looked up by the live ids of its segment, which a writer, a view
and a catalog each compute on their own.  Right after a checkpoint the three
agree, whatever list of the segment's ids the view and the catalog are given.
From then on the live ids of a segment only get fewer.
-/

namespace Segstore

variable {Id Item Seg F : Type} [LinearOrder Id]

/-! ## The hosts -/

/-- `View::live_ids`. -/
def PubState.liveIds (v : PubState Id Seg) (segmentId : Nat) (ids : List Id) : LiveIds Id :=
  .new (ids.filter (v.isLiveIn segmentId))

/-- `SegmentCatalog::live_ids`. -/
def SegmentCatalog.liveIds (c : SegmentCatalog Id) (segmentId : Nat) (ids : List Id) :
    LiveIds Id :=
  .new (ids.filter (c.isLiveIn segmentId))

namespace Contents

variable {c c' : Contents Id Item (List (Id × Item))}

theorem exists_liveIds (hc : c.Shape) {k : Nat} (hk : k ∈ c.segmentIds) :
    ∃ live, c.liveIds (defaultStore Id Item) k = some live ∧
      ∀ id, id ∈ live.ids ↔ c.Lists k id ∧ c.isLiveIn k id = true := by
  obtain ⟨entries, hp⟩ := exists_mem_sealed hc.len hk
  refine ⟨.new ((entries.map Prod.fst).filter (c.isLiveIn k)), ?_, fun id => ?_⟩
  · rw [liveIds, (segmentAt_eq_some hc).mpr hp]
    rfl
  · rw [LiveIds.mem_new_filter, lists_iff_of_mem_sealed hc hp]

/-- The live ids of a current segment are those that it lists and that are live
in it. -/
theorem liveIds_eq_some (hc : c.Shape) {k : Nat} {live : LiveIds Id} :
    c.liveIds (defaultStore Id Item) k = some live ↔ k ∈ c.segmentIds ∧
      ∀ id, id ∈ live.ids ↔ c.Lists k id ∧ c.isLiveIn k id = true := by
  constructor
  · intro h
    obtain ⟨entries, hat, -⟩ := Option.bind_eq_some_iff.mp h
    have hk := fst_mem_of_mem_sealed ((segmentAt_eq_some hc).mp hat)
    obtain ⟨live', h', hmem⟩ := exists_liveIds hc hk
    obtain rfl : live = live' := Option.some.inj (h.symm.trans h')
    exact ⟨hk, hmem⟩
  · rintro ⟨hk, hmem⟩
    obtain ⟨live', h', hmem'⟩ := exists_liveIds hc hk
    rw [h', Option.some_inj]
    exact LiveIds.eq_of_mem_iff fun id => (hmem' id).trans (hmem id).symm

/-- The live ids of an old segment only get fewer. -/
theorem Shrinks.liveIds (h : c.Shrinks c') (hc : c.Shape) (hc' : c'.Shape) {k : Nat}
    (hk : k < c.nextSegId) {live' : LiveIds Id}
    (hlive' : c'.liveIds (defaultStore Id Item) k = some live') :
    ∃ live, c.liveIds (defaultStore Id Item) k = some live ∧
      ∀ id ∈ live'.ids, id ∈ live.ids := by
  obtain ⟨hk', hmem'⟩ := (liveIds_eq_some hc').mp hlive'
  obtain ⟨entries, hp⟩ := exists_mem_sealed hc'.len hk'
  have hold : (k, entries) ∈ c.sealed :=
    (h.grows.mem_sealed _ hp).resolve_right (Nat.not_le.mpr hk)
  obtain ⟨live, hlive, hmem⟩ := exists_liveIds hc (fst_mem_of_mem_sealed hold)
  refine ⟨live, hlive, fun id hid => ?_⟩
  obtain ⟨hlists, halive⟩ := (hmem' id).mp hid
  exact (hmem id).mpr ⟨h.grows.lists hk hlists, h.live hk hlists halive⟩

/-- The live ids of two segments are apart. -/
theorem Tracked.liveIds_disjoint (h : c.Tracked) {k k' : Nat} {live live' : LiveIds Id}
    (hlive : c.liveIds (defaultStore Id Item) k = some live)
    (hlive' : c.liveIds (defaultStore Id Item) k' = some live') (hne : k ≠ k') :
    live.ids.Disjoint live'.ids := by
  intro id hid hid'
  have hat := (((liveIds_eq_some h.shape).mp hlive).2 id).mp hid
  have hat' := (((liveIds_eq_some h.shape).mp hlive').2 id).mp hid'
  exact hne (h.sealed_place hat hat')

/-- With nothing buffered, the live ids of all segments are those of the map. -/
theorem Stores.liveIds_union {m : Id → Option Item} (h : c.Stores m) (hbuffer : c.buffer = [])
    (id : Id) : (∃ k ∈ c.segmentIds, ∃ live,
      c.liveIds (defaultStore Id Item) k = some live ∧ id ∈ live.ids) ↔ (m id).isSome := by
  have hshape := h.tracked.shape
  rw [Option.isSome_iff_exists]
  constructor
  · rintro ⟨k, -, live, hlive, hid⟩
    obtain ⟨⟨entries, hp, hid⟩, halive⟩ := (((liveIds_eq_some hshape).mp hlive).2 id).mp hid
    obtain ⟨e, he, rfl⟩ := List.mem_map.mp hid
    exact ⟨e.2, (h.map.value e.1 e.2).mpr ⟨some k, entries, hp, he, halive⟩⟩
  · rintro ⟨item, hitem⟩
    obtain ⟨place, hcopy⟩ := (h.map.value id item).mp hitem
    cases place with
    | none =>
        rw [LiveCopy, hbuffer] at hcopy
        exact absurd hcopy List.not_mem_nil
    | some k =>
        have hk := hcopy.lists.1.mem_segmentIds
        obtain ⟨live, hlive, hmem⟩ := exists_liveIds hshape hk
        exact ⟨k, hk, live, hlive, (hmem id).mpr hcopy.lists⟩

end Contents

/-! ## Right after a commit -/

/-- Memory, view and image are the same, and nothing is buffered. -/
structure Ledger.JustCommitted (l : Ledger Id Item Seg) : Prop where
  buffer : l.contents.buffer = []
  published : l.published = l.contents.toPubState
  image : ∃ epoch, l.image = l.contents.image epoch

theorem Ledger.justCommitted (st : Store Id Item Seg) (l : Ledger Id Item Seg) :
    (l.commit st).JustCommitted :=
  ⟨Contents.flushBuffer_buffer l.contents st, rfl, _, rfl⟩

/-- What the hosts of a writer tell about the live ids of its segments, when the
writer holds the map `m`. -/
structure Fingerprinted (s : SegmentedStore Id Item (List (Id × Item)) F)
    (m : Id → Option Item) : Prop where
  view : s.published = s.toPubState
  opens : ∃ c d, SegmentCatalog.open (Proc.armed s []).dir = (.ok c, d)
  catalog : ∀ fates c d, SegmentCatalog.open (Proc.armed s fates).dir = (.ok c, d) →
    c.segmentIds = s.segmentIds ∧ ∀ k id, c.isLiveIn k id = s.isLiveIn k id
  -- `ids` enumerates the segment in any order, with any repetitions
  hosts : ∀ k ∈ s.segmentIds, ∀ ids : List Id, (∀ id, id ∈ ids ↔ s.Lists k id) →
    ∃ live, s.liveIds (defaultStore Id Item) k = some live ∧
      s.published.liveIds k ids = live ∧
      (∀ fates c d, SegmentCatalog.open (Proc.armed s fates).dir = (.ok c, d) →
        c.liveIds k ids = live) ∧
      live.ids.Pairwise (· < ·) ∧
      (∀ id, id ∈ live.ids ↔ id ∈ ids ∧ s.isLiveIn k id = true) ∧
      ∀ id, live.contains id = true ↔ id ∈ live.ids
  apart : ∀ {k k' live live'}, s.liveIds (defaultStore Id Item) k = some live →
    s.liveIds (defaultStore Id Item) k' = some live' → k ≠ k' → live.ids.Disjoint live'.ids
  union : ∀ id, (∃ k ∈ s.segmentIds, ∃ live,
    s.liveIds (defaultStore Id Item) k = some live ∧ id ∈ live.ids) ↔ (m id).isSome
  shown : Shown s.livePairs m

/-- A catalog that is opened on the image of a memory tells apart the same copies. -/
theorem catalog_of_image {d : Directory Id Item (List (Id × Item))}
    {c : Contents Id Item (List (Id × Item))} {epoch : Nat}
    (hd : d.Coherent (c.image epoch)) : ∃ catalog : SegmentCatalog Id,
      Directory.Reads SegmentCatalog.open d (.ok catalog) ∧
        catalog.segmentIds = c.segmentIds ∧ ∀ k id, catalog.isLiveIn k id = c.isLiveIn k id :=
  ⟨_, Directory.catalog_open_reads hd.shows hd.noLegacyWal hd.noLegacyCkpt, rfl,
    fun k id => Contents.copyIsLive_image epoch k id⟩

/-- So does every catalog that is opened then. -/
theorem catalog_opened {s : SegmentedStore Id Item (List (Id × Item)) F} {epoch : Nat}
    (hcoh : s.dir.Coherent (s.toContents.image epoch)) {fates : List (Call → Fate)}
    {c : SegmentCatalog Id} {d : Directory Id Item (List (Id × Item))}
    (hopen : SegmentCatalog.open (Proc.armed s fates).dir = (.ok c, d)) :
    c.segmentIds = s.segmentIds ∧ ∀ k id, c.isLiveIn k id = s.isLiveIn k id := by
  obtain ⟨catalog, hreads, hids, hlive⟩ :=
    catalog_of_image (d := (Proc.armed s fates).dir) (hcoh.congr rfl rfl)
  rcases (hreads.of_run hopen).2 with hr | ⟨-, hr | ⟨msg, hr⟩⟩
  · obtain rfl : c = catalog := Outcome.ok.inj hr
    exact ⟨hids, hlive⟩
  · cases hr
  · cases hr

theorem Fingerprinted.of_committed {s : SegmentedStore Id Item (List (Id × Item)) F}
    {im : Image Id (List (Id × Item))} (hcoh : s.dir.Coherent im)
    (hcommitted : (s.ledger im).JustCommitted) {m : Id → Option Item}
    (hstores : s.toContents.Stores m) : Fingerprinted s m := by
  obtain ⟨hbuffer, hview, epoch, himage⟩ := hcommitted
  replace hview : s.published = s.toPubState := hview
  obtain rfl : im = s.toContents.image epoch := himage
  have hshape := hstores.tracked.shape
  refine ⟨hview, ?_, fun _ _ _ => catalog_opened hcoh, fun k hk ids hids => ?_,
    hstores.tracked.liveIds_disjoint, hstores.liveIds_union hbuffer,
    Contents.shown_livePairs hstores.tracked hstores.map⟩
  · obtain ⟨catalog, hreads, -⟩ :=
      catalog_of_image (d := (Proc.armed s []).dir) (hcoh.congr rfl rfl)
    exact ⟨catalog, _, Prod.ext (hreads.calm rfl).2 rfl⟩
  · refine ⟨.new (ids.filter (s.isLiveIn k)), ?_, ?_, fun fates c d hopen => ?_,
      LiveIds.increasing _, fun id => LiveIds.mem_new_filter, fun id => LiveIds.contains_iff⟩
    · exact (Contents.liveIds_eq_some hshape).mpr
        ⟨hk, fun id => LiveIds.mem_new_filter.trans (and_congr_left fun _ => hids id)⟩
    · rw [hview]
      rfl
    · rw [SegmentCatalog.liveIds, show c.isLiveIn k = s.isLiveIn k from
        funext ((catalog_opened hcoh hopen).2 k)]

/-! ## Runs -/

variable [F64 F]

/-- A call that returned with `t` right after a checkpoint: a checkpoint, or a
compaction or a write that ended with one.  An `extend` goes on after it. -/
def EndsWithCheckpoint (cmd : Cmd Id Item F) (s t : SegmentedStore Id Item Seg F) : Prop :=
  cmd = .checkpoint ∨
    (∀ items, cmd ≠ .extend items) ∧ t.poisoned = false ∧ t.epoch ≠ s.epoch

/-- What a call that ends with a checkpoint leaves. -/
theorem Fingerprinted.of_call {fileBacked : Bool} {events : List (Event Id Item F)}
    {s t : SegmentedStore Id Item (List (Id × Item)) F}
    (hs : (Proc.run (defaultStore Id Item) (.fresh fileBacked) [] events).1 = .running s)
    {cmd : Cmd Id Item F} {fates : List (Call → Fate)}
    (hcall : cmd.exec (defaultStore Id Item) (Proc.armed s fates) = (.ok (), t))
    (hends : EndsWithCheckpoint cmd s t) :
    ∃ ops, Kept (Proc.run (defaultStore Id Item) (.fresh fileBacked) []
        (events ++ [.call cmd fates])).2 ops ∧ Fingerprinted t (history nothing ops) := by
  have hsound := sound_run fileBacked events
  have hissued : (Proc.run (defaultStore Id Item) (.fresh fileBacked) []
      (events ++ [.call cmd fates])).2 =
        (Proc.run (defaultStore Id Item) (.fresh fileBacked) [] events).2 ++
          flagged true cmd.ops := by
    rw [Proc.run_append, hs, Proc.run, Proc.run, Proc.step]
    simp only [hcall]
    rfl
  rw [hs] at hsound
  obtain ⟨-, im, hframed, hcur, hb, hsurvives⟩ := hsound
  obtain ⟨im', ht, hcur', -, -, -, hok⟩ :=
    (Resilient.armed_exec_ends (defaultStore Id Item) hframed hcur hb cmd fates).of_run hcall
  obtain ⟨hpoisoned, hacked, hexec⟩ := hok rfl
  have hcommitted : (t.ledger im').JustCommitted := by
    rw [hexec]
    rcases hends with rfl | ⟨hcmd, hhealthy, hepoch⟩
    · exact Ledger.justCommitted _ _
    · have hcommits := (s.ledger im).exec_commits (defaultStore Id Item) s.opts hcmd
      rcases hcommits.cases with hnot | ⟨l, hl⟩
      · have himage : im' = im := by
          have himage := hnot.image
          rw [show (s.ledger im).exec (defaultStore Id Item) s.opts cmd = t.ledger im' from
            hexec.symm] at himage
          exact himage
        have hafter := hcur' (by simp) hhealthy
        have hbefore := hcur (hpoisoned.symm.trans hhealthy)
        rw [himage, hbefore] at hafter
        exact absurd hafter.symm hepoch
      · exact hl ▸ Ledger.justCommitted _ _
  obtain ⟨ops, hkept, hstores⟩ := (resilient_survives.acknowledge hsurvives hacked).memory
  exact ⟨ops, hissued ▸ hkept, .of_committed ht.disk hcommitted hstores⟩

/-- Along any calls, whatever fails in them, live ids only get fewer. -/
theorem shrinks_calls {s : SegmentedStore Id Item (List (Id × Item)) F}
    {im : Image Id (List (Id × Item))} (hframed : Framed s im) (hcur : Current s im)
    (hb : Bounded s) {m : Id → Option Item} (hstores : s.toContents.Stores m)
    {calls : List (Event Id Item F)} (hcalls : ∀ e ∈ calls, ∃ cmd fates, e = .call cmd fates)
    {u : SegmentedStore Id Item (List (Id × Item)) F}
    (hu : (Proc.run (defaultStore Id Item) (.running s) [] calls).1 = .running u) :
    (∃ m, u.toContents.Stores m) ∧ s.toContents.Shrinks u.toContents := by
  suffices hagrees : ∃ im, Framed u im ∧ Current u im ∧ Bounded u ∧
      Ledger.Shrunk s.toContents (u.ledger im) by
    obtain ⟨im', -, -, -, hshrunk⟩ := hagrees
    exact hshrunk
  refine Proc.calls_induction (defaultStore Id Item)
    (I := fun u => ∃ im, Framed u im ∧ Current u im ∧ Bounded u ∧
      Ledger.Shrunk s.toContents (u.ledger im)) (C := fun _ => True) ?_ ?_ ?_ u hu
  · rintro t cmd fates - ⟨im, hframed, hcur, hb, hshrunk⟩ hr
    obtain ⟨im', ht, hcur', -, hb', hissued, -⟩ :=
      Resilient.armed_exec_ends (defaultStore Id Item) hframed hcur hb cmd fates
    exact ⟨im', ht, hcur' hr, hb', (Ledger.closed_shrunk _).issued hshrunk hissued⟩
  · intro e he
    obtain ⟨cmd, fates, heq⟩ := hcalls e he
    exact ⟨cmd, fates, heq, trivial⟩
  · exact ⟨im, hframed, hcur, hb, ⟨m, hstores⟩, .refl _⟩

/-- Writes that start no compaction take no segment away. -/
theorem retains_calls {s : SegmentedStore Id Item (List (Id × Item)) F}
    {calls : List (Event Id Item F)}
    (hcalls : ∀ e ∈ calls, ∃ cmd fates, e = .call cmd fates ∧ cmd.Quiet s.opts)
    {u : SegmentedStore Id Item (List (Id × Item)) F}
    (hu : (Proc.run (defaultStore Id Item) (.running s) [] calls).1 = .running u) :
    Retains s.opts s u := by
  refine Proc.calls_induction (defaultStore Id Item) (I := Retains s.opts s) ?_ hcalls
    (Std.Refl.refl s) u hu
  intro t cmd fates hquiet ht _
  have hcall : Retains s.opts (Proc.armed t fates) _ :=
    SegmentedStore.exec_retains (defaultStore Id Item) hquiet (Proc.armed t fates)
  exact IsTrans.trans _ _ _ ht hcall

/-- How the live ids of the segments of `s` may have changed at `u`. -/
structure Dwindled (s u : SegmentedStore Id Item (List (Id × Item)) F) : Prop where
  -- a segment that is gone does not come back
  segment : ∀ k < s.nextSegId, k ∈ u.segmentIds → k ∈ s.segmentIds
  gone : ∀ k ∉ u.segmentIds, u.liveIds (defaultStore Id Item) k = none
  fewer : ∀ k ∈ s.segmentIds, k ∈ u.segmentIds → ∃ live live',
    s.liveIds (defaultStore Id Item) k = some live ∧
      u.liveIds (defaultStore Id Item) k = some live' ∧ live'.ids ⊆ live.ids

omit [F64 F] in
theorem Dwindled.of_shrinks {s u : SegmentedStore Id Item (List (Id × Item)) F}
    (h : s.toContents.Shrinks u.toContents) (hs : s.toContents.Shape)
    (hu : u.toContents.Shape) : Dwindled s u where
  segment := by
    intro k hk hmem
    obtain ⟨entries, hp⟩ := Contents.exists_mem_sealed hu.len hmem
    exact Contents.fst_mem_of_mem_sealed
      ((h.grows.mem_sealed _ hp).resolve_right (Nat.not_le.mpr hk))
  gone := by
    intro k hk
    by_contra hsome
    obtain ⟨live, hlive⟩ := Option.ne_none_iff_exists'.mp hsome
    exact hk ((Contents.liveIds_eq_some hu).mp hlive).1
  fewer := by
    intro k hk hk'
    obtain ⟨live', hlive', -⟩ := Contents.exists_liveIds hu hk'
    obtain ⟨live, hlive, hsubset⟩ := h.liveIds hs hu (hs.below k hk) hlive'
    exact ⟨live, live', hlive, hlive', hsubset⟩

/-- Live ids are equal when they were built from the same ids.  Right after a
checkpoint of any run the writer, its view and every catalog tell the same live
ids of each segment: those that are live in it, which are apart and together all
that are live.  Along further calls they only get fewer, until a compaction takes
the segment away. -/
theorem live_ids_canonical (fileBacked : Bool) (events : List (Event Id Item F)) :
    (∀ ids ids' : List Id, LiveIds.new ids = LiveIds.new ids' ↔ ∀ id, id ∈ ids ↔ id ∈ ids') ∧
    ∀ s, (Proc.run (defaultStore Id Item) (.fresh fileBacked) [] events).1 = .running s →
      (∀ cmd fates t, cmd.exec (defaultStore Id Item) (Proc.armed s fates) = (.ok (), t) →
        EndsWithCheckpoint cmd s t →
        ∃ ops, Kept (Proc.run (defaultStore Id Item) (.fresh fileBacked) []
            (events ++ [.call cmd fates])).2 ops ∧ Fingerprinted t (history nothing ops)) ∧
      ∀ (calls : List (Event Id Item F)) (u : SegmentedStore Id Item (List (Id × Item)) F),
        (Proc.run (defaultStore Id Item) (.running s) [] calls).1 = .running u →
        ((∀ e ∈ calls, ∃ cmd fates, e = .call cmd fates) → Dwindled s u) ∧
        ((∀ e ∈ calls, ∃ cmd fates, e = .call cmd fates ∧ cmd.Quiet s.opts) →
          s.segmentIds ⊆ u.segmentIds) := by
  refine ⟨fun ids ids' => LiveIds.new_eq_new_iff, fun s hs =>
    ⟨fun cmd fates t hcall hends => Fingerprinted.of_call hs hcall hends,
      fun calls u hu => ⟨fun hcalls => ?_, fun hcalls => (retains_calls hcalls hu rfl).2⟩⟩⟩
  have hsound := sound_run fileBacked events
  rw [hs] at hsound
  obtain ⟨-, im, hframed, hcur, hb, hsurvives⟩ := hsound
  obtain ⟨ops, -, hstores⟩ := hsurvives.memory
  obtain ⟨⟨m, hstores'⟩, hshrinks⟩ := shrinks_calls hframed hcur hb hstores hcalls hu
  exact .of_shrinks hshrinks hstores.tracked.shape hstores'.tracked.shape

/-- A run of three writes, a checkpoint and a delete. -/
theorem live_ids_canonical_three :
    ∃ s t u, (Proc.run (defaultStore Nat Nat) (.fresh (F := Rat) false) []
        [.reopen (.new 2) 0 [], .call (.add 1 5) [], .call (.add 2 6) [],
          .call (.add 1 7) []]).1 = .running s ∧
      Cmd.checkpoint.exec (defaultStore Nat Nat) (Proc.armed s []) = (.ok (), t) ∧
      (∃ ops, Fingerprinted t (history nothing ops)) ∧
      (Proc.run (defaultStore Nat Nat) (.running s) [] [.call (.delete 2) []]).1 = .running u ∧
      s.segmentIds = [0] ∧ Dwindled s u ∧ s.segmentIds ⊆ u.segmentIds := by
  have hruns : Proc.holds (fun s => decide (s.segmentIds = [0]) &&
      (Proc.acked (Cmd.checkpoint.exec (defaultStore Nat Nat) (Proc.armed s [])).1 &&
        Proc.holds (fun _ => true) (Proc.run (defaultStore Nat Nat) (.running s) []
          [.call (.delete 2) []]).1))
      (Proc.run (defaultStore Nat Nat) (.fresh (F := Rat) false) []
        [.reopen (.new 2) 0 [], .call (.add 1 5) [], .call (.add 2 6) [],
          .call (.add 1 7) []]).1 = true := by
    decide +kernel
  obtain ⟨s, hs, htest⟩ := Proc.holds_iff.mp hruns
  obtain ⟨hsegment, htest⟩ := Bool.and_eq_true_iff.mp htest
  obtain ⟨hacked, hrunning⟩ := Bool.and_eq_true_iff.mp htest
  obtain ⟨u, hu, -⟩ := Proc.holds_iff.mp hrunning
  obtain ⟨-, hcanonical⟩ := live_ids_canonical (F := Rat) false
    [.reopen (.new 2) 0 [], .call (.add 1 5) [], .call (.add 2 6) [], .call (.add 1 7) []]
  obtain ⟨hcheckpoint, hcalls⟩ := hcanonical s hs
  have hcall : Cmd.checkpoint.exec (defaultStore Nat Nat) (Proc.armed s []) =
      (.ok (), (Cmd.checkpoint.exec (defaultStore Nat Nat) (Proc.armed s [])).2) :=
    Prod.ext (Proc.acked_iff.mp hacked) rfl
  obtain ⟨ops, -, hops⟩ := hcheckpoint .checkpoint [] _ hcall (.inl rfl)
  obtain ⟨hdwindled, hretained⟩ := hcalls [.call (.delete 2) []] u hu
  refine ⟨s, _, u, hs, hcall, ⟨ops, hops⟩, hu, of_decide_eq_true hsegment, hdwindled ?_,
    hretained ?_⟩
  · exact fun e he => ⟨.delete 2, [], List.mem_singleton.mp he⟩
  · exact fun e he => ⟨.delete 2, [], List.mem_singleton.mp he, trivial⟩

end Segstore
