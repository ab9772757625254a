import Segstore.System.LiveMap
import Segstore.Writer.Loops

/-!
# The end of tiered compaction

On a default store the rounds of `compact_tiers` come to an end, respect the
size cap, and leave a store with which a second call has nothing to do.
-/

namespace Segstore

variable {Id Item F : Type} [DecidableEq Id] [F64 F]

/-- What a `compact_tiers` that returns has done. -/
structure TiersSettled (s : SegmentedStore Id Item (List (Id × Item)) F) (stats : CompactionStats)
    (t : SegmentedStore Id Item (List (Id × Item)) F) : Prop where
  rounds : ∃ gs c, Contents.Rounds (defaultStore Id Item)
    (fun c g => c.TierGroup (defaultStore Id Item) s.opts.tiering g)
    (s.toContents.flushBuffer (defaultStore Id Item)) gs c ∧
      stats.merges = gs.length ∧ t.sealed = c.sealed
  merges_le : stats.merges ≤
    (s.toContents.flushBuffer (defaultStore Id Item)).segments.length
  frozen : ∀ p, p ∈ s.sealed ∨ p ∈ (s.toContents.flushBuffer (defaultStore Id Item)).sealed →
    s.opts.tiering.maxMergedLen / 2 < p.2.length → p ∈ t.sealed
  created : ∀ p ∈ t.sealed, p ∈ (s.toContents.flushBuffer (defaultStore Id Item)).sealed ∨
    p.2.length ≤ s.opts.tiering.maxMergedLen
  settled : t.hasEligibleTier (defaultStore Id Item) = false
  again : ∀ fates, SegmentedStore.compactTiers (defaultStore Id Item) (Proc.armed t fates) =
    (.ok (SegmentedStore.idleStats t.toContents), Proc.armed t fates)

namespace SegmentedStore

omit [DecidableEq Id] in
/-- The memory with nothing to merge. -/
theorem hasEligibleTier_eq_false {t : SegmentedStore Id Item (List (Id × Item)) F}
    (h : t.nextMergeGroup (defaultStore Id Item) t.opts.tiering t.opts.flushThreshold = none) :
    t.hasEligibleTier (defaultStore Id Item) = false := by
  rw [hasEligibleTier, h]
  rfl

theorem compactTiers_settled {s t : SegmentedStore Id Item (List (Id × Item)) F}
    (hshape : s.toContents.Shape) {stats : CompactionStats}
    (ht : compactTiers (defaultStore Id Item) s = (.ok stats, t)) : TiersSettled s stats t := by
  obtain ⟨hmem, hmerges, hopts⟩ :=
    (compactTiers_leaves (defaultStore Id Item) s).of_run ht stats rfl
  obtain ⟨gs, hrounds, hcount⟩ := Contents.tierMerges_rounds (defaultStore Id Item)
    s.opts.tiering s.opts.flushThreshold _ (s.toContents.flushBuffer (defaultStore Id Item))
  rw [hcount] at hmerges
  obtain ⟨hbuffer, hsegments, hids, -⟩ := Contents.compactedBy_rest (c := s.toContents)
    (fun c => c.tierMerges (defaultStore Id Item) s.opts.tiering s.opts.flushThreshold
      c.segments.length) (hrounds.buffer.trans (Contents.flushBuffer_buffer _ _))
  rw [← hmem] at hbuffer hsegments hids
  have hsealed : t.sealed = _ := Contents.sealed_congr hids hsegments
  have htiers : Contents.Rounds (defaultStore Id Item)
      (fun c g => c.TierGroup (defaultStore Id Item) s.opts.tiering g) _ gs _ :=
    hrounds.mono fun hg => Contents.nextMergeGroup_tier _ hg
  have hwithin := htiers.within (hshape.flushBuffer _)
  have hnone : t.nextMergeGroup (defaultStore Id Item) t.opts.tiering t.opts.flushThreshold =
      none := by
    rw [hopts, Contents.nextMergeGroup_congr (defaultStore Id Item) hsegments]
    exact Contents.tierMerges_done _ (Nat.le_refl _)
  refine ⟨⟨gs, _, htiers, hmerges, hsealed⟩, ?_, ?_, ?_, hasEligibleTier_eq_false hnone, ?_⟩
  · have hle := hrounds.length_add_le fun hg => Contents.nextMergeGroup_positions _ hg
    omega
  · rintro p hp hlong
    rw [hsealed]
    refine hwithin.kept p (hp.elim (fun hp => ?_) id) hlong
    exact (Contents.Within.flushBuffer hshape 0 (Nat.le_refl _)).kept p hp (by omega)
  · intro p hp
    rw [hsealed] at hp
    exact hwithin.created p hp
  · intro fates
    have hidle := compactTiers_idle (defaultStore Id Item) (s := Proc.armed t fates) (by
      rw [Contents.flushBuffer_of_empty (Proc.armed t fates).toContents _ hbuffer]
      exact hnone)
    obtain ⟨hr, hstate⟩ := hidle.of_empty _ hbuffer
    exact Prod.ext hr hstate

end SegmentedStore

/-- Every group that `next_merge_group` chooses is one the configuration allows.
A sequence of merges of such groups is no longer than the list of segments.
After any run, with any failures and stops, a `compact_tiers` that returns has
respected the cap and has left nothing for the next one. -/
theorem compact_tiers_settles :
    (∀ (cfg : TierConfig F) (flushThreshold : Nat) (c : Contents Id Item (List (Id × Item)))
      (g : List Nat), c.nextMergeGroup (defaultStore Id Item) cfg flushThreshold = some g →
        c.TierGroup (defaultStore Id Item) cfg g) ∧
    (∀ (cfg : TierConfig F) (flushThreshold : Nat) (c c' : Contents Id Item (List (Id × Item)))
      (gs : List (List Nat)), Contents.Rounds (defaultStore Id Item)
        (fun c g => c.nextMergeGroup (defaultStore Id Item) cfg flushThreshold = some g) c gs c' →
          gs.length ≤ c.segments.length) ∧
    ∀ (fileBacked : Bool) (events : List (Event Id Item F))
      (s : SegmentedStore Id Item (List (Id × Item)) F),
      (Proc.run (defaultStore Id Item) (.fresh fileBacked) [] events).1 = .running s →
        ∀ (fates : List (Call → Fate)) (stats : CompactionStats)
          (t : SegmentedStore Id Item (List (Id × Item)) F),
          SegmentedStore.compactTiers (defaultStore Id Item) (Proc.armed s fates) =
            (.ok stats, t) → TiersSettled s stats t := by
  refine ⟨fun cfg flushThreshold c g hg => Contents.nextMergeGroup_tier _ hg,
    fun cfg flushThreshold c c' gs hrounds => ?_, fun fileBacked events s hs fates stats t ht => ?_⟩
  · have hle := hrounds.length_add_le fun hg => Contents.nextMergeGroup_positions _ hg
    omega
  · obtain ⟨⟨m, hstores⟩, -⟩ := stores_run hs
    have hsettled := SegmentedStore.compactTiers_settled (s := Proc.armed s fates)
      hstores.tracked.shape ht
    exact ⟨hsettled.rounds, hsettled.merges_le, hsettled.frozen, hsettled.created,
      hsettled.settled, hsettled.again⟩

/-- Four segments of one item each become one. -/
theorem compact_tiers_settles_four :
    ∃ s t : SegmentedStore Nat Nat (List (Nat × Nat)) Rat, ∃ stats,
      (Proc.run (defaultStore Nat Nat) (.fresh false) []
        [.reopen (.new 1) 0 [], .call (.extend [(0, 5), (1, 6), (0, 7), (3, 4)]) []]).1 =
          .running s ∧
      SegmentedStore.compactTiers (defaultStore Nat Nat) (Proc.armed s []) = (.ok stats, t) ∧
      stats.merges = 1 ∧ TiersSettled s stats t := by
  obtain ⟨s, hs, hok⟩ := Proc.holds_iff.mp
    (show (Proc.run (F := Rat) (defaultStore Nat Nat) (.fresh false) []
      [.reopen (.new 1) 0 [], .call (.extend [(0, 5), (1, 6), (0, 7), (3, 4)]) []]).1.holds
        (fun s => decide ((SegmentedStore.compactTiers (defaultStore Nat Nat)
          (Proc.armed s [])).1 =
          .ok { merges := 1, segmentsBefore := 4, segmentsAfter := 1, itemsMerged := 3 })) =
            true by decide +kernel)
  have ht : SegmentedStore.compactTiers (defaultStore Nat Nat) (Proc.armed s []) = (.ok _, _) :=
    Prod.ext (of_decide_eq_true hok) rfl
  exact ⟨s, _, _, hs, ht, rfl, compact_tiers_settles.2.2 false
    [.reopen (.new 1) 0 [], .call (.extend [(0, 5), (1, 6), (0, 7), (3, 4)]) []] s hs [] _ _ ht⟩

end Segstore
