import Segstore.Memory.Compacted
import Segstore.System.Garbage
import Segstore.System.LiveMap
import Segstore.Writer.Memory

/-!
# The normal form after `compact`

A full compaction that returns leaves a default store with nothing dead and
with one segment at most, whatever failed before, and another compaction then
has nothing to merge.
-/

namespace Segstore

variable {Id Item F : Type} [DecidableEq Id]

/-! ## No segment is ever empty -/

/-- Neither memory nor image has an empty segment. -/
def Ledger.Filled (l : Ledger Id Item (List (Id × Item))) : Prop :=
  Segstore.Filled l.contents.segments ∧ Segstore.Filled l.image.segments

theorem filled_closed :
    Ledger.Closed (defaultStore Id Item) (@Ledger.Filled Id Item) where
  move := by
    rintro l l' ⟨hmem, him⟩ hmove
    cases hmove with
    | flush => exact ⟨Contents.filled_flushBuffer hmem, him⟩
    | alloc => exact ⟨hmem, him⟩
    | merge indices hpos => exact ⟨Contents.filled_merge hmem indices, him⟩
    | compacted hbuffer => exact ⟨Contents.filled_compacted hmem, him⟩
    | prune => exact ⟨hmem, him⟩
    | sync => exact ⟨hmem, him⟩
    | commit hbuffer => exact ⟨hmem, hmem⟩
    | publish => exact ⟨hmem, him⟩
  append := fun _ h => h
  apply := fun op h => ⟨Contents.filled_apply h.1 op, h.2⟩

variable [F64 F]

omit [F64 F] in
theorem resilient_filled : Resilient (defaultStore Id Item) (fun _ l => l.Filled)
    (fun _ im _ => Segstore.Filled im.segments) :=
  .of_closed filled_closed And.right (fun _ h => h) fun flushThreshold him hboot =>
    ⟨Contents.filled_replay (boot_segments hboot ▸ him) flushThreshold _, him⟩

theorem filled_run (fileBacked : Bool) (events : List (Event Id Item F))
    {s : SegmentedStore Id Item (List (Id × Item)) F}
    (hs : (Proc.run (defaultStore Id Item) (.fresh fileBacked) [] events).1 = .running s) :
    Filled s.segments := by
  have hfresh : (Proc.fresh fileBacked : Proc Id Item (List (Id × Item)) F).Agrees fileBacked
      (fun _ l => l.Filled) (fun _ im _ => Filled im.segments) [] :=
    ⟨rfl, emptyImage, coherent_empty fileBacked, fun _ hmem => absurd hmem List.not_mem_nil⟩
  have hrun := resilient_filled.run hfresh events
  rw [hs] at hrun
  obtain ⟨-, im, -, -, -, hmem, -⟩ := hrun
  exact hmem

/-- The directory of a run has no names but well-formed ones. -/
theorem kept_run (fileBacked : Bool) (events : List (Event Id Item F)) :
    (Proc.run (defaultStore Id Item) (.fresh fileBacked) [] events).1.Kept fileBacked False :=
  Proc.run_induction (defaultStore Id Item) (I := fun _ p => p.Kept fileBacked False)
    (C := fun _ => True) (fun _ _ _ _ hp => hp.step fun hlists => hlists.elim)
    (fun _ _ => trivial) (Proc.kept_fresh fileBacked False)

/-! ## One compaction -/

omit [F64 F] in
/-- What a compaction makes of a ledger: the normal form, which the commit at its
end leaves as it is. -/
theorem Ledger.compact_normal {l : Ledger Id Item (List (Id × Item))} {m : Id → Option Item}
    (h : l.contents.Stores m) (hfilled : Segstore.Filled l.contents.segments) :
    (l.compact (defaultStore Id Item)).contents.Normal l.contents.livePairs ∧
      (l.compact (defaultStore Id Item)).contents.Tracked ∧
      (l.compact (defaultStore Id Item)).image.segmentIds =
        (l.compact (defaultStore Id Item)).contents.segmentIds := by
  have hnormal := Contents.compacted_normal h.flushBuffer.tracked.shape
    (Contents.flushBuffer_buffer _ _) (Contents.filled_flushBuffer hfilled)
  rw [h.tracked.livePairs_flushBuffer] at hnormal
  have hmem : (l.compact (defaultStore Id Item)).contents =
      (l.contents.flushBuffer (defaultStore Id Item)).compacted (defaultStore Id Item) := by
    show (Contents.flushBuffer _ ((l.contents.flushBuffer _).compacted _)).retainSuperseded = _
    rw [hnormal.flushBuffer, hnormal.retainSuperseded]
  rw [hmem]
  exact ⟨hnormal, h.flushBuffer.compacted.tracked, congrArg (fun c => c.segmentIds) hmem⟩

/-- What a compaction leaves of a store that holds the map. -/
structure NormalForm (m : Id → Option Item)
    (t : SegmentedStore Id Item (List (Id × Item)) F) : Prop where
  buffer : t.buffer = []
  bufferIds : t.bufferIds = []
  tombstones : t.tombstones = []
  superseded : t.superseded = ∅
  none : (∀ id, m id = none) → t.segmentIds = [] ∧ t.segments = []
  one : (∃ id item, m id = some item) → ∃ k entries, t.segmentIds = [k] ∧
    t.segments = [entries] ∧ Shown entries m ∧ segFile t.dir.files k = some entries ∧
      ∀ id item, m id = some item → t.liveSegmentOf id = some k

/-- No segment file but those of the current segments. -/
def OnlySegments {Seg : Type} (t : SegmentedStore Id Item Seg F) : Prop :=
  ∀ name, (t.dir.files.lookup name).isSome → ∀ j, segId name = some j →
    ∃ k ∈ t.segmentIds, name = segPath k

omit [F64 F] in
theorem NormalForm.of_normal {m : Id → Option Item} {pairs : List (Id × Item)}
    {t : SegmentedStore Id Item (List (Id × Item)) F} (h : t.toContents.Normal pairs)
    (hm : Shown pairs m) (ht : t.toContents.Tracked)
    (hfiles : ∀ p ∈ t.sealed, segFile t.dir.files p.1 = some p.2) : NormalForm m t := by
  refine ⟨h.buffer, ?_, h.tombstones, h.superseded, fun hnone => h.none ?_, ?_⟩
  · refine List.eq_nil_iff_forall_not_mem.mpr fun id hid => ?_
    have hmem := (ht.bufferIds id).mp hid
    rw [h.buffer] at hmem
    exact List.not_mem_nil hmem
  · refine List.eq_nil_iff_forall_not_mem.mpr fun e he => ?_
    have hsome := (hm.2 e.1 e.2).mp he
    rw [hnone] at hsome
    cases hsome
  · rintro ⟨id, item, hid⟩
    obtain ⟨k, hids, hsegs⟩ := h.one (List.ne_nil_of_mem ((hm.2 id item).mpr hid))
    have hsealed : (k, pairs) ∈ t.sealed := by
      simp [PubState.sealed, hids, hsegs]
    refine ⟨k, pairs, hids, hsegs, hm, hfiles (k, pairs) hsealed, fun j v hj => ?_⟩
    refine (ht.owner j k).mpr
      ⟨⟨pairs, hsealed, List.mem_map_of_mem ((hm.2 j v).mpr hj)⟩, ?_⟩
    rw [Contents.isLiveIn_iff, h.tombstones, h.superseded]
    exact ⟨List.not_mem_nil, not_marked_empty k j⟩

namespace SegmentedStore

omit [F64 F] in
/-- In the normal form a compaction merges nothing. -/
theorem compact_idle {s : SegmentedStore Id Item (List (Id × Item)) F} {pairs : List (Id × Item)}
    (h : s.toContents.Normal pairs) :
    Ends (compact (defaultStore Id Item)) s (fun r t => t.segmentIds = s.segmentIds ∧
      t.segments = s.segments ∧ ∀ stats, r = .ok stats → stats.merges = 0) := by
  have hflush : { s with toContents := s.toContents.flushBuffer (defaultStore Id Item) } = s := by
    rw [h.flushBuffer]
  have hpurge : { s with toContents := s.toContents.purge } = s := by
    rw [h.purge]
  rw [compact, compactMerging, bind_assoc, onContents, Ends.update_bind_iff, hflush]
  refine Ends.bind (R := fun r t => t = s ∧ ∃ stats, r = .ok stats ∧ stats.merges = 0)
    ?_ ?_ ?_ ?_
  · rw [mergeEverything, Ends.get_bind_iff]
    simp only [if_neg h.not_needsCompact]
    rw [onContents, Ends.update_bind_iff, hpurge, Ends.pure_iff]
    exact ⟨rfl, _, rfl, rfl⟩
  case refine_3 => rintro e t ⟨-, stats, ⟨⟩, -⟩
  case refine_4 => rintro t ⟨-, stats, ⟨⟩, -⟩
  rintro _ t ⟨rfl, stats, ⟨⟩, hmerges⟩
  have hsame : ∀ {u : SegmentedStore Id Item (List (Id × Item)) F},
      u.toContents = t.toContents ∨
        u.toContents = t.toContents.flushBuffer (defaultStore Id Item) ∨
        u.toContents = (t.toContents.flushBuffer (defaultStore Id Item)).retainSuperseded →
      u.segmentIds = t.segmentIds ∧ u.segments = t.segments := by
    intro u hu
    rw [h.flushBuffer, h.retainSuperseded, or_self, or_self] at hu
    rw [hu]
    exact ⟨rfl, rfl⟩
  refine Ends.bind (checkpoint_memory _ t) ?_ ?_ ?_
  · rintro ⟨⟩ u ⟨-, -, hu⟩
    rw [withSegmentsAfter, Ends.get_bind_iff, Ends.pure_iff]
    refine ⟨(hsame hu).1, (hsame hu).2, ?_⟩
    rintro _ ⟨⟩
    exact hmerges
  · rintro e u ⟨-, -, hu⟩
    exact ⟨(hsame hu).1, (hsame hu).2, by simp⟩
  · rintro u ⟨-, -, hu⟩
    exact ⟨(hsame hu).1, (hsame hu).2, by simp⟩

end SegmentedStore

/-- After any run, with any failures and stops: a `compact` that returns leaves
the normal form of the map it found, and the next one changes no segment. -/
theorem compact_normal_form (fileBacked : Bool) (events : List (Event Id Item F))
    (s : SegmentedStore Id Item (List (Id × Item)) F)
    (hs : (Proc.run (defaultStore Id Item) (.fresh fileBacked) [] events).1 = .running s)
    (fates : List (Call → Fate)) (stats : CompactionStats)
    (t : SegmentedStore Id Item (List (Id × Item)) F)
    (ht : SegmentedStore.compact (defaultStore Id Item) (Proc.armed s fates) = (.ok stats, t)) :
    ∃ m, Shown s.livePairs m ∧ NormalForm m t ∧ (Obliging fates → OnlySegments t) ∧
      ∀ fates' r u,
        SegmentedStore.compact (defaultStore Id Item) (Proc.armed t fates') = (r, u) →
          u.segmentIds = t.segmentIds ∧ u.segments = t.segments ∧
            ∀ stats', r = .ok stats' → stats'.merges = 0 := by
  have hsound := sound_run fileBacked events
  have hfilled := filled_run fileBacked events hs
  have hkept := kept_run fileBacked events
  rw [hs] at hsound hkept
  obtain ⟨-, im, hframed, hcur, -, hsurvives⟩ := hsound
  obtain ⟨ops, -, hstores⟩ := hsurvives.memory
  replace hstores : s.toContents.Stores (history nothing ops) := hstores
  obtain ⟨harmed, hledger⟩ := Resilient.armed_framed hframed fates
  have hend := compact_ends (defaultStore Id Item) harmed hcur
  obtain ⟨im', hframed', -, -, -, hok⟩ := hend.of_run ht
  obtain ⟨-, hcompact⟩ := hok stats rfl
  rw [hledger] at hcompact
  -- the memory is compacted, then checkpointed
  obtain ⟨hnormal, htracked, hids⟩ := Ledger.compact_normal (l := s.ledger im) hstores hfilled
  rw [← hcompact] at hnormal htracked hids
  replace hids : im'.segmentIds = t.segmentIds := hids
  refine ⟨_, Contents.shown_livePairs hstores.tracked hstores.map, .of_normal hnormal
    (Contents.shown_livePairs hstores.tracked hstores.map) htracked ?_, ?_, ?_⟩
  · intro p hp
    exact hframed'.file p hp (hframed'.named _ (hids ▸ Contents.fst_mem_of_mem_sealed hp))
  · intro hfates name hsome j hj
    have hhoused : (Proc.armed s fates).Housed True (fun _ => True) :=
      ⟨hframed.wal, hkept.names, fun _ => hfates, fun _ _ _ _ _ => .inl trivial⟩
    have hneat := SegmentedStore.compact_neat (defaultStore Id Item) _ hhoused
    obtain ⟨-, hhoused', hneat⟩ := hneat.of_run ht
    refine ⟨j, hids ▸ (hneat stats rfl).named _ hframed'.disk.shows.loaded name hsome j (.inl hj),
      ((hhoused' (by simp)).names name hsome).segment j hj⟩
  · intro fates' r u hu
    have hidle := SegmentedStore.compact_idle (s := Proc.armed t fates') hnormal
    exact hidle.of_run hu

/-- The merge is skipped: the only segment has nothing dead. -/
theorem compact_normal_form_skipped :
    ∃ s t : SegmentedStore Nat Nat (List (Nat × Nat)) Rat, ∃ stats,
      (Proc.run (defaultStore Nat Nat) (.fresh false) []
        [.reopen (.new 2) 0 [], .call (.extend [(1, 5), (2, 6)]) []]).1 = .running s ∧
      SegmentedStore.compact (defaultStore Nat Nat) (Proc.armed s []) = (.ok stats, t) ∧
      stats.merges = 0 ∧ ∃ m, Shown s.livePairs m ∧ NormalForm m t ∧ OnlySegments t := by
  obtain ⟨s, hs, hok⟩ := Proc.holds_iff.mp
    (show (Proc.run (F := Rat) (defaultStore Nat Nat) (.fresh false) []
      [.reopen (.new 2) 0 [], .call (.extend [(1, 5), (2, 6)]) []]).1.holds
        (fun s => decide ((SegmentedStore.compact (defaultStore Nat Nat) (Proc.armed s [])).1 =
          .ok { merges := 0, segmentsBefore := 1, segmentsAfter := 1, itemsMerged := 0 })) =
            true by decide +kernel)
  have ht : SegmentedStore.compact (defaultStore Nat Nat) (Proc.armed s []) = (.ok _, _) :=
    Prod.ext (of_decide_eq_true hok) rfl
  obtain ⟨m, hm, hnormal, honly, -⟩ := compact_normal_form false
    [.reopen (.new 2) 0 [], .call (.extend [(1, 5), (2, 6)]) []] s hs [] _ _ ht
  exact ⟨s, _, _, hs, ht, rfl, m, hm, hnormal,
    honly fun fate hfate => absurd hfate List.not_mem_nil⟩

end Segstore
