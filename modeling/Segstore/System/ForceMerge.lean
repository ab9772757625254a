import Segstore.System.LiveMap
import Segstore.Writer.Loops

/-!
# The target of `force_merge_to`

On a default store `force_merge_to` ends with as many segments as it was asked
for, merging the smallest ones first, and loses nothing on the way.
-/

namespace Segstore

variable {Id Item Seg F : Type} [DecidableEq Id]

namespace Contents

/-- Rounds of merges represent what they have found. -/
theorem Stores.rounds {G : Contents Id Item (List (Id × Item)) → List Nat → Prop}
    (hG : ∀ {c g}, G c g → Positions c.segments.length g) {m : Id → Option Item}
    {c c' : Contents Id Item (List (Id × Item))} {gs : List (List Nat)} (hc : c.Stores m)
    (h : Rounds (defaultStore Id Item) G c gs c') : c'.Stores m :=
  h.induction (I := fun d => d.Stores m) (fun hd hg => hd.merge (hG hg).1) hc

/-- So does a partial compaction. -/
theorem Stores.compactedBy
    {merges : Contents Id Item (List (Id × Item)) → Contents Id Item (List (Id × Item)) × Nat}
    {m : Id → Option Item} {c : Contents Id Item (List (Id × Item))}
    (h : (merges (c.flushBuffer (defaultStore Id Item))).1.Stores m) :
    (c.compactedBy (defaultStore Id Item) merges).Stores m := by
  rw [Contents.compactedBy]
  split
  · exact h.flushBuffer.retainSuperseded
  · exact h

end Contents

/-- What a `force_merge_to` that returns has done. -/
structure ForceMerged (maxSegments : Nat) (s : SegmentedStore Id Item (List (Id × Item)) F)
    (stats : CompactionStats) (t : SegmentedStore Id Item (List (Id × Item)) F) : Prop where
  live : ∃ m, Shown s.livePairs m ∧ Shown t.livePairs m
  count_le : t.segments.length ≤ max maxSegments 1
  idle : 2 ≤ maxSegments →
    (s.toContents.flushBuffer (defaultStore Id Item)).segments.length ≤ maxSegments →
      stats = SegmentedStore.idleStats (s.toContents.flushBuffer (defaultStore Id Item)) ∧
        t = s.flushed (defaultStore Id Item)
  rounds : 2 ≤ maxSegments → ∃ gs c, Contents.Rounds (defaultStore Id Item)
    (fun c g => c.SmallestGroup (defaultStore Id Item) s.opts.tiering maxSegments g)
    (s.toContents.flushBuffer (defaultStore Id Item)) gs c ∧
      stats.merges = gs.length ∧ t.sealed = c.sealed
  target : 2 ≤ maxSegments →
    maxSegments < (s.toContents.flushBuffer (defaultStore Id Item)).segments.length →
      ∃ gs d g, Contents.Rounds (defaultStore Id Item)
        (fun c g => c.SmallestGroup (defaultStore Id Item) s.opts.tiering maxSegments g)
        (s.toContents.flushBuffer (defaultStore Id Item)) gs d ∧
        d.SmallestGroup (defaultStore Id Item) s.opts.tiering maxSegments g ∧
        stats.merges = gs.length + 1 ∧ t.sealed = (d.merge (defaultStore Id Item) g).sealed ∧
        (t.segments.length = maxSegments ∨ t.segments.length + 1 = maxSegments ∧
          d.mergedSegment (defaultStore Id Item) g = [])
  tombstones : 2 ≤ maxSegments → t.tombstones = s.tombstones
  purged : maxSegments ≤ 1 → t.tombstones = []

namespace SegmentedStore

variable {s t : SegmentedStore Id Item (List (Id × Item)) F} {m : Id → Option Item}
  {stats : CompactionStats} {maxSegments : Nat}

/-- A target of one segment at most: a full compaction. -/
theorem compact_merged (hstores : s.toContents.Stores m)
    (ht : compact (defaultStore Id Item) s = (.ok stats, t)) :
    t.toContents.Stores m ∧ t.segments.length ≤ 1 ∧ t.tombstones = [] := by
  obtain ⟨-, hmem⟩ := (compact_leaves (defaultStore Id Item) s).of_run ht stats rfl
  have hbuffer : ((s.toContents.flushBuffer (defaultStore Id Item)).compacted
      (defaultStore Id Item)).buffer = [] :=
    Contents.compacted_buffer _ (Contents.flushBuffer_buffer _ _)
  rw [Contents.flushBuffer_of_empty _ _ hbuffer] at hmem
  refine ⟨?_, ?_, ?_⟩
  · rw [hmem]
    exact hstores.flushBuffer.compacted.retainSuperseded
  · rw [hmem]
    exact Contents.length_compacted_le (defaultStore Id Item) _
  · rw [hmem]
    rfl

theorem forceMergeTo_merged (hstores : s.toContents.Stores m)
    (ht : forceMergeTo (defaultStore Id Item) maxSegments s = (.ok stats, t)) :
    ForceMerged maxSegments s stats t := by
  have hlive : t.toContents.Stores m → ∃ m, Shown s.livePairs m ∧ Shown t.livePairs m :=
    fun h => ⟨m, Contents.shown_livePairs hstores.tracked hstores.map,
      Contents.shown_livePairs h.tracked h.map⟩
  by_cases hmax : maxSegments ≤ 1
  · rw [forceMergeTo, if_pos hmax] at ht
    obtain ⟨hstores', hcount, htomb⟩ := compact_merged hstores ht
    exact ⟨hlive hstores', by omega, by omega, by omega, by omega, by omega, fun _ => htomb⟩
  obtain ⟨hmem, hmerges, -⟩ :=
    (forceMergeTo_leaves (defaultStore Id Item) hmax s).of_run ht stats rfl
  obtain ⟨gs, hrounds, hcount⟩ := Contents.forceMerges_rounds (defaultStore Id Item)
    s.opts.tiering maxSegments _ (s.toContents.flushBuffer (defaultStore Id Item))
  rw [hcount] at hmerges
  obtain ⟨hbuffer, hsegments, hids, htomb⟩ := Contents.compactedBy_rest (c := s.toContents)
    (fun c => c.forceMerges (defaultStore Id Item) s.opts.tiering maxSegments c.segments.length)
    (hrounds.buffer.trans (Contents.flushBuffer_buffer _ _))
  have hgroups : Contents.Rounds (defaultStore Id Item)
      (fun c g => c.SmallestGroup (defaultStore Id Item) s.opts.tiering maxSegments g) _ gs _ :=
    hrounds.mono fun h => h.2 ▸ Contents.smallestGroup_spec _ _ (by omega) h.1
  have hstores' := Contents.Stores.rounds Contents.SmallestGroup.positions hstores.flushBuffer
    hgroups
  have hdone : ((s.toContents.flushBuffer (defaultStore Id Item)).forceMerges
      (defaultStore Id Item) s.opts.tiering maxSegments _).1.segments.length ≤ maxSegments :=
    Contents.forceMerges_done _ (by omega) (Nat.le_refl _)
  rw [← hmem] at hsegments hids htomb
  have hsealed : t.sealed = _ := Contents.sealed_congr hids hsegments
  refine ⟨hlive ?_, ?_, ?_, ?_, ?_, ?_, fun h => absurd h hmax⟩
  · rw [hmem]
    exact Contents.Stores.compactedBy hstores'
  · rw [hsegments]
    exact hdone.trans (Nat.le_max_left _ _)
  · intro _ hfew
    obtain ⟨⟨⟩, hstate⟩ := (forceMergeTo_idle (defaultStore Id Item) hmax hfew).of_run ht
    exact ⟨rfl, hstate⟩
  · exact fun _ => ⟨gs, _, hgroups, hmerges, hsealed⟩
  · intro _ hmany
    obtain ⟨gs', d, g, hbefore, hlast, heq, hlen, htarget⟩ := hgroups.target hdone hmany
    refine ⟨gs', d, g, hbefore, hlast, hmerges.trans hlen, heq ▸ hsealed, ?_⟩
    rw [hsegments]
    exact htarget.imp_right fun h => ⟨h.1, List.eq_nil_of_length_eq_zero h.2⟩
  · intro _
    exact htomb.trans (hgroups.tombstones.trans (Contents.flushBuffer_tombstones _ _))

end SegmentedStore

variable [F64 F]

/-- There is no sequence of rounds of `force_merge_to` that is longer than the
list of segments.  After any run, with any failures and stops, a call that
returns has hit its target and has lost nothing. -/
theorem force_merge_to_target :
    (∀ (cfg : TierConfig F) (maxSegments : Nat) (c c' : Contents Id Item (List (Id × Item)))
      (gs : List (List Nat)), 2 ≤ maxSegments → Contents.Rounds (defaultStore Id Item)
        (fun c g => maxSegments < c.segments.length ∧
          g = c.smallestGroup (defaultStore Id Item) cfg maxSegments) c gs c' →
            gs.length ≤ c.segments.length) ∧
    ∀ (fileBacked : Bool) (events : List (Event Id Item F))
      (s : SegmentedStore Id Item (List (Id × Item)) F),
      (Proc.run (defaultStore Id Item) (.fresh fileBacked) [] events).1 = .running s →
        ∀ (maxSegments : Nat) (fates : List (Call → Fate)) (stats : CompactionStats)
          (t : SegmentedStore Id Item (List (Id × Item)) F),
          SegmentedStore.forceMergeTo (defaultStore Id Item) maxSegments (Proc.armed s fates) =
            (.ok stats, t) → ForceMerged maxSegments (Proc.armed s fates) stats t := by
  refine ⟨fun cfg maxSegments c c' gs hmax hrounds => ?_,
    fun fileBacked events s hs maxSegments fates stats t ht => ?_⟩
  · have hle := hrounds.length_add_le (by
      rintro c g ⟨hmany, rfl⟩
      exact Contents.smallestGroup_positions _ _ (by omega) hmany)
    omega
  · obtain ⟨⟨m, hstores⟩, -⟩ := stores_run hs
    exact SegmentedStore.forceMergeTo_merged (s := Proc.armed s fates) hstores ht

/-- Four segments become two in one round of three. -/
theorem force_merge_to_target_two :
    ∃ s t : SegmentedStore Nat Nat (List (Nat × Nat)) Rat, ∃ stats,
      (Proc.run (defaultStore Nat Nat) (.fresh false) []
        [.reopen (.new 1) 0 [], .call (.extend [(0, 5), (1, 6), (0, 7), (3, 4)]) []]).1 =
          .running s ∧
      SegmentedStore.forceMergeTo (defaultStore Nat Nat) 2 (Proc.armed s []) = (.ok stats, t) ∧
      stats.merges = 1 ∧ ForceMerged 2 (Proc.armed s []) stats t := by
  obtain ⟨s, hs, hok⟩ := Proc.holds_iff.mp
    (show (Proc.run (F := Rat) (defaultStore Nat Nat) (.fresh false) []
      [.reopen (.new 1) 0 [], .call (.extend [(0, 5), (1, 6), (0, 7), (3, 4)]) []]).1.holds
        (fun s => decide ((SegmentedStore.forceMergeTo (defaultStore Nat Nat) 2
          (Proc.armed s [])).1 =
          .ok { merges := 1, segmentsBefore := 4, segmentsAfter := 2, itemsMerged := 2 })) =
            true by decide +kernel)
  have ht : SegmentedStore.forceMergeTo (defaultStore Nat Nat) 2 (Proc.armed s []) =
      (.ok _, _) := Prod.ext (of_decide_eq_true hok) rfl
  exact ⟨s, _, _, hs, ht, rfl, force_merge_to_target.2 false
    [.reopen (.new 1) 0 [], .call (.extend [(0, 5), (1, 6), (0, 7), (3, 4)]) []] s hs 2 [] _ _ ht⟩

end Segstore
