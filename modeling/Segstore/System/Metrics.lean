import Mathlib.Algebra.Order.BigOperators.Group.List
import Mathlib.Algebra.Order.Ring.Rat
import Mathlib.Data.Set.Card
import Segstore.Memory.Reclaimed
import Segstore.Model.Metrics
import Segstore.System.Consumers
import Segstore.Writer.Returned

/-!
# Space amplification

`space_amplification` relates the items that are stored to those that are live.  The
live items are the pairs of the map, each counted once, so the number that a writer
reports is exact after any run, and a compaction that returns bounds it.
-/

namespace Segstore

variable {Id Item Seg F : Type}

/-- The store counts the live items of a segment. -/
def Store.Counts (st : Store Id Item Seg) (entries : Seg → List (Id × Item)) : Prop :=
  ∀ seg live, st.liveLen seg live = some ((entries seg).filter fun e => live e.1).length

namespace Contents

variable [DecidableEq Id] {c c' : Contents Id Item (List (Id × Item))}

/-! ## Counting over lists of entries -/

theorem countItems_default (segs : List (Nat × List (Id × Item))) (stored live : Nat) :
    c.countItems (defaultStore Id Item) segs stored live =
      some (stored + (segs.map fun p => p.2.length).sum, live + (segs.map c.liveCount).sum) := by
  induction segs generalizing stored live with
  | nil => rfl
  | cons p segs ih =>
      rw [countItems]
      show c.countItems _ segs (stored + p.2.length) (live + c.liveCount p) = _
      rw [ih, List.map_cons, List.map_cons, List.sum_cons, List.sum_cons, Nat.add_assoc,
        Nat.add_assoc]

theorem livePairs_length (c : Contents Id Item (List (Id × Item))) :
    c.livePairs.length = (c.sealed.map c.liveCount).sum + c.buffer.length := by
  rw [livePairs, List.length_append, List.length_flatMap]
  rfl

omit [DecidableEq Id] in
/-- Each segment has an id. -/
theorem storedLen_default (hc : c.Shape) :
    c.storedLen (defaultStore Id Item) =
      (c.sealed.map fun p => p.2.length).sum + c.buffer.length := by
  have hzip : c.sealed.map Prod.snd = c.segments :=
    List.map_snd_zip (Nat.le_of_eq hc.len.symm)
  rw [storedLen, segmentSizes, ← hzip, List.map_map]
  rfl

theorem liveCount_le (p : Nat × List (Id × Item)) : c.liveCount p ≤ p.2.length :=
  List.length_filter_le _ _

theorem livePairs_length_le (hc : c.Shape) :
    c.livePairs.length ≤ c.storedLen (defaultStore Id Item) := by
  rw [livePairs_length, storedLen_default hc]
  exact Nat.add_le_add_right (List.sum_le_sum fun p _ => liveCount_le p) _

/-- Nothing is dead. -/
theorem storedLen_of_live (hc : c.Shape)
    (h : ∀ p ∈ c.sealed, ∀ e ∈ p.2, c.isLiveIn p.1 e.1 = true) :
    c.storedLen (defaultStore Id Item) = c.livePairs.length := by
  rw [livePairs_length, storedLen_default hc]
  have hsame : c.sealed.map c.liveCount = c.sealed.map fun p => p.2.length :=
    List.map_congr_left fun p hp => congrArg List.length (List.filter_eq_self.mpr (h p hp))
  rw [hsame]

/-- Enough of each segment is enough of all. -/
theorem storedLen_of_satisfies (hc : c.Shape) (hbuffer : c.buffer = []) {q : Rat}
    (h : ∀ p ∈ c.sealed, c.Satisfies q p) :
    q * c.storedLen (defaultStore Id Item) ≤ c.livePairs.length := by
  rw [livePairs_length, storedLen_default hc, hbuffer]
  have hsum : ∀ segs : List (Nat × List (Id × Item)), (∀ p ∈ segs, c.Satisfies q p) →
      q * (segs.map fun p => p.2.length).sum ≤ ((segs.map c.liveCount).sum : Nat) := by
    intro segs hsegs
    induction segs with
    | nil => simp
    | cons p segs ih =>
        have hp : q * p.2.length ≤ c.liveCount p := hsegs p List.mem_cons_self
        have hrest := ih fun p' hp' => hsegs p' (List.mem_cons_of_mem _ hp')
        rw [List.map_cons, List.map_cons, List.sum_cons, List.sum_cons, Nat.cast_add, Nat.cast_add,
          mul_add]
        exact add_le_add hp hrest
  exact hsum c.sealed h

/-! ## Segments of any type -/

section View

variable {st : Store Id Item Seg} {entries : Seg → List (Id × Item)} {c : Contents Id Item Seg}

omit [DecidableEq Id] in
theorem view_sealed : (c.view entries).sealed = c.sealed.map fun p => (p.1, entries p.2) := by
  rw [PubState.sealed, PubState.sealed, view_segmentIds, view_segments, List.zip_map_right]
  rfl

omit [DecidableEq Id] in
theorem view_storedLen (hst : st.Keeps entries) :
    (c.view entries).storedLen (defaultStore Id Item) = c.storedLen st := by
  rw [storedLen, storedLen, segmentSizes, segmentSizes, view_segments, List.map_map]
  have hlen : (defaultStore Id Item).segmentLen ∘ entries = st.segmentLen :=
    funext fun seg => (hst.len seg).symm
  rw [hlen]
  rfl

theorem view_countItems (hst : st.Keeps entries) (hcounts : st.Counts entries)
    (segs : List (Nat × Seg)) (stored live : Nat) :
    (c.view entries).countItems (defaultStore Id Item) (segs.map fun p => (p.1, entries p.2))
        stored live = c.countItems st segs stored live := by
  induction segs generalizing stored live with
  | nil => rfl
  | cons p segs ih =>
      rw [countItems, hcounts, hst.len]
      exact ih _ _

theorem view_spaceAmplification [F64 F] (hst : st.Keeps entries) (hcounts : st.Counts entries)
    (infinity : F) :
    (c.view entries).spaceAmplification (defaultStore Id Item) infinity =
      c.spaceAmplification st infinity := by
  rw [spaceAmplification, spaceAmplification, view_sealed, view_countItems hst hcounts]
  rfl

/-- The counts decide what is reclaimed. -/
theorem view_reclaimTargets [F64 F] (hst : st.Keeps entries) (hcounts : st.Counts entries)
    (minLiveRatio : F) :
    (c.view entries).reclaimTargets (defaultStore Id Item) minLiveRatio
        (c.view entries).sealed.zipIdx = c.reclaimTargets st minLiveRatio c.sealed.zipIdx := by
  rw [view_sealed, List.zipIdx_map]
  generalize c.sealed.zipIdx = segs
  induction segs with
  | nil => rfl
  | cons p segs ih =>
      obtain ⟨⟨segId, seg⟩, i⟩ := p
      have hlive := hcounts seg (c.isLiveIn segId)
      simp only [List.map_cons, Prod.map_apply, reclaimTargets, hlive, hst.len, ← ih]
      rfl

end View

/-! ## After a compaction -/

/-- The order of entries does not matter to how many are live. -/
theorem Reordered.satisfies (h : Reordered c c') {q : Rat} (hc : ∀ p ∈ c.sealed, c.Satisfies q p) :
    ∀ p ∈ c'.sealed, c'.Satisfies q p := by
  intro p hp
  obtain ⟨entries, hmem, hperm⟩ := h.symm.mem_sealed hp
  have hbefore : q * entries.length ≤ c.liveCount (p.1, entries) := hc _ hmem
  have hlive : c'.liveCount p = c.liveCount (p.1, entries) := by
    rw [PubState.liveCount, PubState.liveCount]
    simp only [h.isLiveIn_eq]
    exact (hperm.filter _).length_eq
  rwa [PubState.Satisfies, hlive, hperm.length_eq]

variable {st : Store Id Item Seg} {entries : Seg → List (Id × Item)} {d : Contents Id Item Seg}
variable {m : Id → Option Item}

theorem stores_compacted (hst : st.Keeps entries) (h : (d.view entries).Stores m) :
    ((d.compacted st).view entries).Stores m :=
  (view_compacted hst h.tracked).stores h.compacted

/-- After a full compaction every copy is live. -/
theorem compactedWhole_live (hst : st.Keeps entries) (h : (d.view entries).Stores m) :
    ((d.compactedWhole st).view entries).Stores m ∧
      (d.compactedWhole st).tombstones = [] ∧
      ∀ k id, ((d.compactedWhole st).view entries).isLiveIn k id = true := by
  have hbuffer := compacted_buffer st (flushBuffer_buffer d st)
  have hstores := stores_compacted hst (stores_flushBuffer hst h)
  rw [compactedWhole, flushBuffer_of_empty _ st hbuffer]
  refine ⟨hstores.retainSuperseded, rfl, fun k id => isLiveIn_iff.mpr ⟨List.not_mem_nil, ?_⟩⟩
  show ¬ Marked ((FinMap.retain _ ∅ : FinMap Nat (List Id))) k id
  rw [marked_retain]
  exact fun hmark => not_marked_empty k id hmark.2

/-- What `reclaim_tombstones` leaves has enough live copies. -/
theorem reclaimed_ratio [F64 F] (hst : st.Keeps entries) (hcounts : st.Counts entries) {r : F}
    {q : Rat} (hexact : Exact r q) (hq : q ≤ 1) (h : (d.view entries).Stores m) :
    ((d.compactedBy st (reclaimMerge st r)).view entries).Stores m ∧
      (d.compactedBy st (reclaimMerge st r)).buffer = [] ∧
      ∀ p ∈ ((d.compactedBy st (reclaimMerge st r)).view entries).sealed,
        ((d.compactedBy st (reclaimMerge st r)).view entries).Satisfies q p := by
  have hflush := stores_flushBuffer hst h
  have hbuffer := flushBuffer_buffer d st
  rw [compactedBy, reclaimMerge, ← view_reclaimTargets hst hcounts]
  generalize d.flushBuffer st = c at hflush hbuffer
  obtain ⟨g, hg⟩ : ∃ g, _ = some g :=
    ⟨_, reclaimTargets_default hexact (c.view entries) (c.view entries).sealed.zipIdx⟩
  rw [hg]
  cases g with
  | nil =>
      refine ⟨hflush, hbuffer, fun p hp => ?_⟩
      refine ((mem_dropIndices_reclaimTargets hexact hg).mp ?_).2
      exact (mem_pick_or_mem_dropIndices hp []).resolve_left List.not_mem_nil
  | cons target targets =>
      have hidx := (reclaimTargets_positions _ hflush.tracked.shape hg).1
      have hmerged := Reclaimed.merge hexact hq hflush.tracked hg
      have hstores := hflush.merge hidx
      have hview := view_merge hst hflush.tracked hidx
      have hnone := (merge_buffer st (target :: targets) (c := c)).trans hbuffer
      dsimp only
      rw [if_pos Nat.zero_lt_one, flushBuffer_of_empty _ st hnone]
      have hlive : ∀ k id, (((c.merge st (target :: targets)).retainSuperseded).view
          entries).isLiveIn k id = ((c.merge st (target :: targets)).view entries).isLiveIn k id :=
        (hview.stores hstores).tracked.isLiveIn_retain
      refine ⟨(hview.stores hstores).retainSuperseded, hnone, fun p hp => ?_⟩
      have henough := hview.satisfies hmerged.ratio p hp
      rw [PubState.Satisfies, PubState.liveCount] at henough ⊢
      simpa only [hlive] using henough

end Contents

/-! ## Runs -/

variable [DecidableEq Id] [F64 F] {st : Store Id Item Seg} {entries : Seg → List (Id × Item)}

omit [F64 F] in
/-- The pairs are as many as the ids that the map has. -/
theorem Shown.ncard {pairs : List (Id × Item)} {m : Id → Option Item} (h : Shown pairs m) :
    {id | (m id).isSome}.ncard = pairs.length := by
  have hids : {id | (m id).isSome} = ((pairs.map Prod.fst).toFinset : Set Id) := by
    ext id
    rw [Set.mem_ofPred_eq, List.coe_toFinset, Set.mem_ofPred_eq, List.mem_map,
      Option.isSome_iff_exists]
    constructor
    · rintro ⟨item, hitem⟩
      exact ⟨(id, item), (h.2 id item).mpr hitem, rfl⟩
    · rintro ⟨e, he, rfl⟩
      exact ⟨e.2, (h.2 e.1 e.2).mp he⟩
  rw [hids, Set.ncard_coe_finset, List.toFinset_card_of_nodup h.1, List.length_map]

namespace Contents

/-- A memory that stores a map reports how much more it stores. -/
theorem spaceAmplification_default {c : Contents Id Item (List (Id × Item))} (hc : c.Shape)
    (infinity : F) :
    c.spaceAmplification (defaultStore Id Item) infinity = some
      (if c.livePairs.length = 0 then
        if c.storedLen (defaultStore Id Item) = 0 then F64.ofUsize 1 else infinity
      else F64.div (F64.ofUsize (c.storedLen (defaultStore Id Item)))
        (F64.ofUsize c.livePairs.length)) := by
  rw [spaceAmplification, countItems_default, livePairs_length, storedLen_default hc]
  simp only [Nat.zero_add]
  split
  · rfl
  · rfl

omit [F64 F] in
theorem Tracked.isLive_of_mem {c : Contents Id Item (List (Id × Item))} (h : c.Tracked)
    {e : Id × Item} (he : e ∈ c.livePairs) : c.isLive e.1 = true := by
  have hnot : e.1 ∉ c.tombstones := by
    obtain ⟨place, hcopy⟩ := mem_livePairs.mp he
    cases place with
    | none => exact h.buffered e.1 ((h.bufferIds e.1).mpr (List.mem_map_of_mem hcopy))
    | some seg => exact (isLiveIn_iff.mp hcopy.lists.2).1
  rw [PubState.isLive]
  simpa using hnot

end Contents

open SegmentedStore

/-- What is reported of a store that counts its live items, after a run with any
faults.  The amplification is the number of stored items over the number of ids that
the map has; `compact` leaves as many items as ids, and `reclaim_tombstones` leaves at
most the inverse of its ratio as many. -/
theorem space_amplification_exact (hst : st.Keeps entries) (hcounts : st.Counts entries)
    (fileBacked : Bool) (events : List (Event Id Item F)) (s : SegmentedStore Id Item Seg F)
    (hs : (Proc.run st (.closed (.empty fileBacked)) [] events).1 = .running s) (infinity : F) :
    ∃ m, Shown (s.livePairsOf entries) m ∧
      (∀ id, (m id).isSome → s.isLive id = true) ∧
      {id | (m id).isSome}.ncard ≤ s.storedLen st ∧
      s.spaceAmplification st infinity = some
        (if {id | (m id).isSome}.ncard = 0 then
          if s.storedLen st = 0 then F64.ofUsize 1 else infinity
        else F64.div (F64.ofUsize (s.storedLen st)) (F64.ofUsize {id | (m id).isSome}.ncard)) ∧
      (∀ fates stats t, compact st (Proc.armed s fates) = (.ok stats, t) →
        Shown (t.livePairsOf entries) m ∧ t.tombstoneCount = 0 ∧
          t.storedLen st = {id | (m id).isSome}.ncard) ∧
      ∀ (r : F) (q : Rat), Exact r q → q ≤ 1 → ∀ fates stats t,
        reclaimTombstones st r (Proc.armed s fates) = (.ok stats, t) →
          Shown (t.livePairsOf entries) m ∧
            q * t.storedLen st ≤ {id | (m id).isSome}.ncard := by
  have hsound : (Proc.run st (.closed (.empty fileBacked)) [] events).1.SoundFor entries fileBacked
      (Proc.run st (.closed (.empty fileBacked)) [] events).2 :=
    (resilient_consumers hst).run (soundFor_empty entries fileBacked) events
  rw [hs] at hsound
  obtain ⟨-, im, -, -, -, hsurvives⟩ := hsound
  obtain ⟨ops, -, hstores⟩ := hsurvives.memory
  replace hstores : (s.toContents.view entries).Stores (history nothing ops) := hstores
  have hshown := Contents.shown_livePairs hstores.tracked hstores.map
  have hshape := hstores.tracked.shape
  refine ⟨_, hshown, fun id hid => ?_, ?_, ?_, fun fates stats t ht => ?_,
    fun r q hexact hq fates stats t ht => ?_⟩
  · obtain ⟨item, hitem⟩ := Option.isSome_iff_exists.mp hid
    exact hstores.tracked.isLive_of_mem ((hshown.2 id item).mpr hitem)
  · rw [hshown.ncard, ← Contents.view_storedLen hst]
    exact Contents.livePairs_length_le hshape
  · rw [hshown.ncard, ← Contents.view_storedLen hst,
      ← Contents.view_spaceAmplification hst hcounts, Contents.spaceAmplification_default hshape]
  · obtain ⟨hmem, -⟩ := (compact_becomes st (Proc.armed s fates)).of_run ht stats rfl
    obtain ⟨hstores', htomb, hlive⟩ := Contents.compactedWhole_live hst hstores
    have hshown' := Contents.shown_livePairs hstores'.tracked hstores'.map
    replace hmem : t.toContents = s.toContents.compactedWhole st := hmem
    rw [livePairsOf, hmem, PubState.tombstoneCount, htomb, hshown'.ncard,
      ← Contents.view_storedLen hst]
    exact ⟨hshown', rfl, Contents.storedLen_of_live hstores'.tracked.shape
      fun p _ e _ => hlive p.1 e.1⟩
  · obtain ⟨hmem, -⟩ := (reclaimTombstones_becomes st r (Proc.armed s fates)).of_run ht stats rfl
    obtain ⟨hstores', hbuffer, hratio⟩ :=
      Contents.reclaimed_ratio hst hcounts hexact hq hstores
    have hshown' := Contents.shown_livePairs hstores'.tracked hstores'.map
    replace hmem : t.toContents = s.toContents.compactedBy st (Contents.reclaimMerge st r) := hmem
    rw [livePairsOf, hmem, hshown'.ncard, ← Contents.view_storedLen hst]
    exact ⟨hshown', Contents.storedLen_of_satisfies hstores'.tracked.shape hbuffer hratio⟩

/-- Segments that are lists of entries keep and count them. -/
theorem defaultStore_keeps (Id Item : Type) : (defaultStore Id Item).Keeps id where
  build := fun _ _ => .refl _
  merge := fun _ _ _ => by
    rw [List.flatMap_id]
    exact .refl _
  len := fun _ => rfl
  ids := fun _ => rfl

theorem defaultStore_counts (Id Item : Type) : (defaultStore Id Item).Counts id :=
  fun _ _ => rfl

/-- Of five items two are dead, one of them in a segment that is reclaimed. -/
theorem space_amplification_exact_reclaimed :
    ∃ (s t : SegmentedStore Nat Nat (List (Nat × Nat)) Rat) (stats : CompactionStats)
      (m : Nat → Option Nat),
      (Proc.run (defaultStore Nat Nat) (.closed (.empty false)) []
        [.reopen (.new 2) 0 [], .call (.extend [(1, 5), (2, 6), (3, 7), (1, 8)]) [],
          .call (.add 4 9) [], .call (.delete 2) []]).1 = .running s ∧
      reclaimTombstones (defaultStore Nat Nat) (3 / 4) (Proc.armed s []) = (.ok stats, t) ∧
      s.storedLen (defaultStore Nat Nat) = 5 ∧
      s.spaceAmplification (defaultStore Nat Nat) (0 : Rat) =
        some ((5 : Rat) / ({id | (m id).isSome}.ncard : Nat)) ∧
      3 / 4 * (t.storedLen (defaultStore Nat Nat) : Rat) ≤ ({id | (m id).isSome}.ncard : Nat) := by
  obtain ⟨s, hs, hok⟩ := Proc.holds_iff.mp
    (show (Proc.run (F := Rat) (defaultStore Nat Nat) (.closed (.empty false)) []
      [.reopen (.new 2) 0 [], .call (.extend [(1, 5), (2, 6), (3, 7), (1, 8)]) [],
        .call (.add 4 9) [], .call (.delete 2) []]).1.holds (fun s => decide
          ((reclaimTombstones (defaultStore Nat Nat) (3 / 4) (Proc.armed s [])).1 =
            .ok ⟨1, 3, 2, 0⟩ ∧ s.storedLen (defaultStore Nat Nat) = 5 ∧
              (s.livePairsOf id).length = 3)) = true by decide +kernel)
  obtain ⟨hrun, hstored, hlive⟩ := of_decide_eq_true hok
  have ht : reclaimTombstones (defaultStore Nat Nat) (3 / 4) (Proc.armed s []) = (.ok _, _) :=
    Prod.ext hrun rfl
  obtain ⟨m, hm, -, -, hspace, -, hreclaim⟩ := space_amplification_exact
    (defaultStore_keeps Nat Nat) (defaultStore_counts Nat Nat) false _ s hs (0 : Rat)
  refine ⟨s, _, _, m, hs, ht, hstored, ?_, ?_⟩
  · rw [hspace, hstored, hm.ncard, hlive]
    rfl
  · exact (hreclaim _ _ (exact_rat (3 / 4)) (by decide +kernel) _ _ _ ht).2

end Segstore
