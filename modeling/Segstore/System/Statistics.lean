import Segstore.Model.Metrics
import Segstore.System.Identity
import Segstore.Writer.Returned

/-!
# The statistics of a compaction

A compaction that returns reports what it did: its merges, each of the memory that
the one before left, the segments there were and are, and the items written.
-/

namespace Segstore

variable {Id Item Seg F : Type} [DecidableEq Id] (st : Store Id Item Seg)

/-! ## Merges in a row -/

/-- The merges made in a row, each of the memory that the one before left. -/
inductive Contents.Merges :
    Contents Id Item Seg → List (Deed Id Item Seg) → Contents Id Item Seg → Prop
  | done (c : Contents Id Item Seg) : Merges c [] c
  | merge {c c' : Contents Id Item Seg} {indices : List Nat} {deeds : List (Deed Id Item Seg)} :
      Positions c.segments.length indices → Merges (c.merge st indices) deeds c' →
        Merges c (.merge c indices :: deeds) c'

/-- A sum over merges. -/
def sumMerges (f : Contents Id Item Seg → List Nat → Nat) (deeds : List (Deed Id Item Seg)) :
    Nat :=
  (deeds.map fun
    | .write _ _ => 0
    | .merge c indices => f c indices).sum

/-- The segments that a merge takes away. -/
def segmentsTaken (_ : Contents Id Item Seg) (indices : List Nat) : Nat :=
  indices.length

/-- The segments that a merge adds: none when nothing is left. -/
def segmentsAdded (c : Contents Id Item Seg) (indices : List Nat) : Nat :=
  if 0 < st.segmentLen (c.mergedSegment st indices) then 1 else 0

/-- The items of the segments that a merge takes away. -/
def itemsTaken (c : Contents Id Item Seg) (indices : List Nat) : Nat :=
  ((pick c.segments indices).map st.segmentLen).sum

/-- The items that a merge writes. -/
def itemsWritten (c : Contents Id Item Seg) (indices : List Nat) : Nat :=
  st.segmentLen (c.mergedSegment st indices)

namespace Contents

variable {st} {c c' : Contents Id Item Seg} {deeds : List (Deed Id Item Seg)}

theorem Merges.buffer (h : c.Merges st deeds c') : c'.buffer = c.buffer := by
  induction h with
  | done => rfl
  | merge _ _ ih => rw [ih, merge_buffer]

/-- What each merge balances, merges in a row balance. -/
theorem Merges.balance {g : Contents Id Item Seg → Nat}
    {a b : Contents Id Item Seg → List Nat → Nat}
    (hmerge : ∀ c indices, Positions c.segments.length indices →
      g (c.merge st indices) + a c indices = g c + b c indices)
    (h : c.Merges st deeds c') : g c' + sumMerges a deeds = g c + sumMerges b deeds := by
  induction h with
  | done => rfl
  | @merge c c' indices deeds hpos _ ih =>
      have hone := hmerge c indices hpos
      simp only [sumMerges, List.map_cons, List.sum_cons] at ih ⊢
      omega

/-- Items are dropped by merges only. -/
theorem storedLen_merge {indices : List Nat} (hpos : Positions c.segments.length indices) :
    (c.merge st indices).storedLen st + itemsTaken st c indices =
      c.storedLen st + itemsWritten st c indices := by
  have hperm := ((pick_append_dropIndices_perm hpos).map st.segmentLen).sum_nat
  rw [List.map_append, List.sum_append] at hperm
  have hsizes : ((c.merge st indices).segments.map st.segmentLen).sum =
      ((dropIndices indices c.segments).map st.segmentLen).sum + itemsWritten st c indices := by
    rw [merge_segments, List.map_append, List.sum_append, itemsWritten]
    split
    · rw [List.map_singleton, List.sum_singleton]
    · rename_i hempty
      rw [Nat.eq_zero_of_not_pos hempty]
      rfl
  simp only [storedLen, segmentSizes, merge_buffer, itemsTaken]
  omega

theorem deedsBy_merges {next : Contents Id Item Seg → Option (List Nat)} (hnext : Picks next)
    (fuel : Nat) (c : Contents Id Item Seg) :
    c.Merges st (c.deedsBy st next fuel) (c.mergesBy st next fuel).1 := by
  induction fuel generalizing c with
  | zero => exact .done c
  | succ fuel ih =>
      rw [deedsBy, mergesBy]
      cases hgroup : next c with
      | none => exact .done c
      | some group => exact .merge (hnext hgroup).1 (ih _)

theorem fullDeeds_merges (c : Contents Id Item Seg) : c.Merges st c.fullDeeds
    (if c.needsCompact then c.merge st (List.range c.segments.length) else c) := by
  rw [fullDeeds]
  split
  · exact .merge (positions_range _) (.done _)
  · exact .done c

theorem reclaimDeeds_merges [F64 F] (hc : c.Shape) (minLiveRatio : F) :
    c.Merges st (c.reclaimDeeds st minLiveRatio) (c.reclaimMerge st minLiveRatio).1 := by
  rw [reclaimDeeds, reclaimMerge]
  cases htargets : c.reclaimTargets st minLiveRatio c.sealed.zipIdx with
  | none => exact .done c
  | some targets =>
      cases targets with
      | nil => exact .done c
      | cons target targets =>
          exact .merge (reclaimTargets_positions st hc htargets) (.done _)

/-- The segments after a partial compaction are those after its merges. -/
theorem compactedBy_merged {merges : Contents Id Item Seg → Contents Id Item Seg × Nat}
    (h : (c.flushBuffer st).Merges st deeds (merges (c.flushBuffer st)).1) :
    ∃ c', (c.flushBuffer st).Merges st deeds c' ∧
      (c.compactedBy st merges).segments = c'.segments ∧
      (c.compactedBy st merges).segmentIds = c'.segmentIds ∧
      (c.compactedBy st merges).buffer = [] := by
  have hbuffer := h.buffer.trans (flushBuffer_buffer c st)
  refine ⟨_, h, ?_⟩
  rw [compactedBy, flushBuffer_of_empty _ st hbuffer]
  split
  · exact ⟨rfl, rfl, hbuffer⟩
  · exact ⟨rfl, rfl, hbuffer⟩

theorem compactedWhole_merged (c : Contents Id Item Seg) :
    ∃ c', (c.flushBuffer st).Merges st (c.flushBuffer st).fullDeeds c' ∧
      (c.compactedWhole st).segments = c'.segments ∧
      (c.compactedWhole st).segmentIds = c'.segmentIds ∧ (c.compactedWhole st).buffer = [] := by
  have hbuffer := compacted_buffer st (flushBuffer_buffer c st)
  rw [compactedWhole, flushBuffer_of_empty _ st hbuffer]
  exact ⟨_, fullDeeds_merges _, rfl, rfl, hbuffer⟩

end Contents

/-! ## Compactions -/

variable [F64 F]

namespace Cmd

/-- A compaction, with the statistics that it returns. -/
def compaction : Cmd Id Item F → Option (StoreM Id Item Seg F CompactionStats)
  | .compact => some (SegmentedStore.compact st)
  | .compactTiers => some (SegmentedStore.compactTiers st)
  | .forceMergeTo maxSegments => some (SegmentedStore.forceMergeTo st maxSegments)
  | .reclaimTombstones minLiveRatio => some (SegmentedStore.reclaimTombstones st minLiveRatio)
  | _ => none

variable {st} {cmd : Cmd Id Item F} {p : StoreM Id Item Seg F CompactionStats}

theorem compaction_reports (hp : cmd.compaction st = some p) :
    SegmentedStore.Reports st (fun opts c => cmd.deeds st opts c) p := by
  cases cmd with
  | compact =>
      cases hp
      exact SegmentedStore.compact_reports st
  | compactTiers =>
      cases hp
      exact SegmentedStore.compactTiers_reports st
  | forceMergeTo maxSegments =>
      cases hp
      exact SegmentedStore.forceMergeTo_reports st maxSegments
  | reclaimTombstones minLiveRatio =>
      cases hp
      exact SegmentedStore.reclaimTombstones_reports st minLiveRatio
  | add id item => cases hp
  | extend items => cases hp
  | delete id => cases hp
  | checkpoint => cases hp

/-- A call without the statistics. -/
theorem exec_of_compaction (hp : cmd.compaction st = some p) {s t : SegmentedStore Id Item Seg F}
    {stats : CompactionStats} (ht : p s = (.ok stats, t)) : cmd.exec st s = (.ok (), t) := by
  have hexec : cmd.exec st = p >>= fun _ => pure () := by
    cases cmd with
    | compact => cases hp; rfl
    | compactTiers => cases hp; rfl
    | forceMergeTo maxSegments => cases hp; rfl
    | reclaimTombstones minLiveRatio => cases hp; rfl
    | add id item => cases hp
    | extend items => cases hp
    | delete id => cases hp
    | checkpoint => cases hp
  rw [hexec]
  show Eff.andThen p _ s = _
  rw [Eff.andThen, ht]
  rfl

/-- The segments after a compaction are those after its merges. -/
theorem compaction_merges (hp : cmd.compaction st = some p) {c : Contents Id Item Seg}
    (hc : c.Shape) (opts : Options F) :
    ∃ c', (c.flushBuffer st).Merges st (cmd.deeds st opts c) c' ∧
      (c.exec st opts cmd).segments = c'.segments ∧
      (c.exec st opts cmd).segmentIds = c'.segmentIds ∧ (c.exec st opts cmd).buffer = [] := by
  cases cmd with
  | compact => exact c.compactedWhole_merged
  | compactTiers =>
      refine Contents.compactedBy_merged ?_
      rw [Contents.tierMerges_eq, deeds, Contents.tiersDeeds, Contents.tierDeeds_eq]
      exact Contents.deedsBy_merges (Contents.picks_nextMergeGroup st _ _) _ _
  | forceMergeTo maxSegments =>
      by_cases hmax : maxSegments ≤ 1
      · simp only [Contents.exec, deeds, if_pos hmax]
        exact c.compactedWhole_merged
      · simp only [Contents.exec, deeds, if_neg hmax]
        refine Contents.compactedBy_merged ?_
        rw [Contents.forceMerges_eq, Contents.forceDeeds_eq]
        exact Contents.deedsBy_merges (Contents.picks_overshootGroup st _ (by omega)) _ _
  | reclaimTombstones minLiveRatio =>
      exact Contents.compactedBy_merged
        (Contents.reclaimDeeds_merges (hc.flushBuffer st) minLiveRatio)
  | add id item => cases hp
  | extend items => cases hp
  | delete id => cases hp
  | checkpoint => cases hp

end Cmd

/-- On any writer that a run reaches, whatever fails on the way and in the call, a
compaction that returns has made its merges one after another and reports them: how
many there were, how many segments there had been and are, how many items were
written.  Nothing else takes segments or items away or adds any. -/
theorem compaction_statistics (fileBacked : Bool) (events : List (Event Id Item F))
    {s : SegmentedStore Id Item Seg F}
    (hs : (Proc.run st (.closed (.empty fileBacked)) [] events).1 = .running s)
    {cmd : Cmd Id Item F} {p : StoreM Id Item Seg F CompactionStats}
    (hp : cmd.compaction st = some p) (fates : List (Call → Fate)) {stats : CompactionStats}
    {t : SegmentedStore Id Item Seg F} (ht : p (Proc.armed s fates) = (.ok stats, t)) :
    let c := s.toContents.flushBuffer st
    let deeds := cmd.deeds st s.opts s.toContents
    (∃ c', c.Merges st deeds c' ∧ t.segments = c'.segments ∧ t.segmentIds = c'.segmentIds) ∧
    t.buffer = [] ∧
    stats = {
      merges := deeds.length
      segmentsBefore := c.segments.length
      segmentsAfter := t.segments.length
      itemsMerged := sumMerges (itemsWritten st) deeds } ∧
    stats.segmentsAfter + sumMerges segmentsTaken deeds =
      stats.segmentsBefore + sumMerges (segmentsAdded st) deeds ∧
    t.storedLen st + sumMerges (itemsTaken st) deeds = c.storedLen st + stats.itemsMerged := by
  intro c deeds
  have hfresh : (Proc.closed (.empty fileBacked) : Proc Id Item Seg F).Agrees fileBacked
      (fun _ _ => True) (fun _ _ _ => True) [] :=
    ⟨rfl, emptyImage, coherent_empty fileBacked, trivial⟩
  have hagrees := (resilient_frame st).run hfresh events
  rw [hs] at hagrees
  obtain ⟨-, im, hframed, -⟩ := hagrees
  obtain ⟨c', hmerges, hsegments, hids, hbuffer⟩ :=
    Cmd.compaction_merges hp hframed.shape s.opts
  -- what has been returned has gone through as if nothing failed
  obtain ⟨hmem, -⟩ :=
    (exec_becomes st cmd (Proc.armed s fates)).of_run (Cmd.exec_of_compaction hp ht) () rfl
  have hsegments' : t.segments = c'.segments := by
    rw [hmem]
    exact hsegments
  have hbuffer' : t.buffer = [] := by
    rw [hmem]
    exact hbuffer
  have hreport : stats = reportOf st deeds s.toContents t.toContents :=
    (Cmd.compaction_reports hp (Proc.armed s fates)).of_run ht stats rfl
  have hcount := hmerges.balance (g := fun c => c.segments.length) (a := segmentsTaken)
    (b := segmentsAdded st) fun c indices hpos => Contents.merge_length_add st hpos
  have hitems := hmerges.balance (g := fun c => c.storedLen st) (a := itemsTaken st)
    (b := itemsWritten st) fun c indices hpos => Contents.storedLen_merge hpos
  have hstored : t.storedLen st = c'.storedLen st := by
    rw [Contents.storedLen, Contents.storedLen, Contents.segmentSizes, Contents.segmentSizes,
      hsegments', hbuffer', hmerges.buffer, Contents.flushBuffer_buffer]
  refine ⟨⟨c', hmerges, hsegments', ?_⟩, hbuffer', hreport, ?_, ?_⟩
  · rw [hmem]
    exact hids
  · rw [hreport, reportOf, hsegments']
    exact hcount
  · rw [hreport, hstored]
    exact hitems

/-- Two segments, one of them dead: its merge writes nothing and adds no segment. -/
theorem compaction_statistics_dead :
    let st := defaultStore Nat Nat
    ∃ s t : SegmentedStore Nat Nat (List (Nat × Nat)) Rat,
      (Proc.run st (.closed (.empty false)) []
        [.reopen (.new 1) 0 [], .call (.extend [(1, 5), (2, 6)]) [], .call (.delete 1) []]).1 =
          .running s ∧
      SegmentedStore.reclaimTombstones st (1 / 2) (Proc.armed s []) = (.ok ⟨1, 2, 1, 0⟩, t) ∧
      t.storedLen st + 1 = (s.flushBuffer st).storedLen st + 0 := by
  intro st
  obtain ⟨s, hs, htest⟩ := Proc.holds_iff.mp
    (show (Proc.run (F := Rat) st (.closed (.empty false)) []
        [.reopen (.new 1) 0 [], .call (.extend [(1, 5), (2, 6)]) [], .call (.delete 1) []]).1.holds
        (fun s => decide
          ((SegmentedStore.reclaimTombstones st (1 / 2) (Proc.armed s [])).1 = .ok ⟨1, 2, 1, 0⟩ ∧
            sumMerges (itemsTaken st) (Cmd.deeds st s.opts s.toContents
              (.reclaimTombstones (1 / 2))) = 1)) = true by decide +kernel)
  obtain ⟨hreturns, htaken⟩ := of_decide_eq_true htest
  obtain ⟨t, ht⟩ : ∃ t, SegmentedStore.reclaimTombstones st (1 / 2) (Proc.armed s []) =
      (.ok ⟨1, 2, 1, 0⟩, t) := ⟨_, Prod.ext hreturns rfl⟩
  have hp : (Cmd.reclaimTombstones (1 / 2) : Cmd Nat Nat Rat).compaction st = some _ := rfl
  obtain ⟨-, -, -, -, hitems⟩ := compaction_statistics st false _ hs hp [] ht
  rw [htaken] at hitems
  exact ⟨s, t, hs, ht, hitems⟩

end Segstore
