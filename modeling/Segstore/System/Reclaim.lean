import Segstore.Memory.Reclaimed
import Segstore.System.ForceMerge

/-!
# The end of `reclaim_tombstones`

On a default store `reclaim_tombstones` rewrites the segments with too few live
copies, and no others, into one segment of live copies, with which a second call
has nothing to do.
-/

namespace Segstore

variable {Id Item F : Type} [DecidableEq Id] [F64 F]

/-- What a `reclaim_tombstones` that returns has done, `q` being the number that
the ratio `r` stands for. -/
structure ReclaimSettled (r : F) (q : Rat) (s t : SegmentedStore Id Item (List (Id × Item)) F) :
    Prop where
  reclaimed : Contents.Reclaimed q (s.toContents.flushBuffer (defaultStore Id Item)) t.toContents
  sealed : ∀ p ∈ (s.toContents.flushBuffer (defaultStore Id Item)).sealed,
    p ∈ s.sealed ∨ p = (s.nextSegId, s.buffer)
  live : ∃ m, Shown s.livePairs m ∧ Shown t.livePairs m
  tombstones : t.tombstones = s.tombstones
  again : ∀ fates,
    SegmentedStore.reclaimTombstones (defaultStore Id Item) r (Proc.armed t fates) =
      (.ok (SegmentedStore.idleStats t.toContents), Proc.armed t fates)

namespace SegmentedStore

theorem reclaimTombstones_settled {s t : SegmentedStore Id Item (List (Id × Item)) F}
    {m : Id → Option Item} {r : F} {q : Rat} {stats : CompactionStats} (hexact : Exact r q)
    (hq : q ≤ 1) (hstores : s.toContents.Stores m)
    (ht : reclaimTombstones (defaultStore Id Item) r s = (.ok stats, t)) :
    ReclaimSettled r q s t := by
  have hflush := hstores.flushBuffer
  -- a call with targets merges and commits, a call without only seals
  have hmem : Contents.Reclaimed q (s.toContents.flushBuffer (defaultStore Id Item))
      t.toContents ∧ t.toContents.Stores m ∧ t.buffer = [] := by
    obtain ⟨g, hg⟩ : ∃ g, _ = some g :=
      ⟨_, Contents.reclaimTargets_default hexact (s.toContents.flushBuffer _) _⟩
    have hmerged := Contents.Reclaimed.merge hexact hq hflush.tracked hg
    cases g with
    | nil =>
        obtain ⟨-, hstate⟩ := (reclaimTombstones_idle (defaultStore Id Item) hg).of_run ht
        rw [hstate]
        refine ⟨.refl fun p hp => ?_, hflush, Contents.flushBuffer_buffer _ _⟩
        refine ((Contents.mem_dropIndices_reclaimTargets hexact hg).mp ?_).2
        exact (mem_pick_or_mem_dropIndices hp []).resolve_left List.not_mem_nil
    | cons target targets =>
        have hidx := (Contents.reclaimTargets_positions _ hflush.tracked.shape hg).1
        have hbuffer := (Contents.merge_buffer (defaultStore Id Item)
          (c := s.toContents.flushBuffer (defaultStore Id Item)) (target :: targets)).trans
            (Contents.flushBuffer_buffer _ _)
        obtain ⟨hmem, -⟩ :=
          (reclaimTombstones_leaves (defaultStore Id Item) hg).of_run ht stats rfl
        rw [Contents.flushBuffer_of_empty _ _ hbuffer] at hmem
        rw [hmem]
        exact ⟨hmerged.retainSuperseded (hflush.tracked.merge hidx),
          (hflush.merge hidx).retainSuperseded, hbuffer⟩
  obtain ⟨hreclaimed, hstores', hbuffer⟩ := hmem
  refine ⟨hreclaimed, fun p hp => ?_, ⟨m, Contents.shown_livePairs hstores.tracked hstores.map,
    Contents.shown_livePairs hstores'.tracked hstores'.map⟩,
    hreclaimed.tombstones.trans (Contents.flushBuffer_tombstones _ _), fun fates => ?_⟩
  · by_cases hne : s.buffer = []
    · rw [Contents.flushBuffer_of_empty _ _ hne] at hp
      exact .inl hp
    · rw [Contents.flushBuffer_sealed _ hstores.tracked.shape hne, List.mem_append,
        List.mem_singleton] at hp
      exact hp
  · have hidle : Ends (reclaimTombstones (defaultStore Id Item) r) (Proc.armed t fates) _ :=
      reclaimTombstones_idle (defaultStore Id Item) (by
        rw [Contents.flushBuffer_of_empty (Proc.armed t fates).toContents _ hbuffer]
        exact Contents.reclaimTargets_nil hexact hreclaimed.ratio)
    obtain ⟨hr, hstate⟩ := hidle.of_empty _ hbuffer
    exact Prod.ext hr hstate

end SegmentedStore

/-- After any run, with any failures and stops: a `reclaim_tombstones` that
returns has rewritten the segments below the ratio and nothing else. -/
theorem reclaim_tombstones_settles (fileBacked : Bool) (events : List (Event Id Item F))
    (s : SegmentedStore Id Item (List (Id × Item)) F)
    (hs : (Proc.run (defaultStore Id Item) (.fresh fileBacked) [] events).1 = .running s)
    (r : F) (q : Rat) (hexact : Exact r q) (hq : q ≤ 1) (fates : List (Call → Fate))
    (stats : CompactionStats) (t : SegmentedStore Id Item (List (Id × Item)) F)
    (ht : SegmentedStore.reclaimTombstones (defaultStore Id Item) r (Proc.armed s fates) =
      (.ok stats, t)) : ReclaimSettled r q (Proc.armed s fates) t := by
  obtain ⟨⟨m, hstores⟩, -⟩ := stores_run hs
  exact SegmentedStore.reclaimTombstones_settled (s := Proc.armed s fates) hexact hq hstores ht

/-- A segment of two copies, one of them dead, is rewritten. -/
theorem reclaim_tombstones_settles_half :
    ∃ s t : SegmentedStore Nat Nat (List (Nat × Nat)) Rat, ∃ stats,
      (Proc.run (defaultStore Nat Nat) (.fresh false) []
        [.reopen (.new 2) 0 [], .call (.extend [(0, 5), (1, 6), (0, 7)]) []]).1 = .running s ∧
      SegmentedStore.reclaimTombstones (defaultStore Nat Nat) (3 / 4) (Proc.armed s []) =
        (.ok stats, t) ∧
      stats.merges = 1 ∧ ReclaimSettled (3 / 4) (3 / 4) (Proc.armed s []) t := by
  obtain ⟨s, hs, hok⟩ := Proc.holds_iff.mp
    (show (Proc.run (F := Rat) (defaultStore Nat Nat) (.fresh false) []
      [.reopen (.new 2) 0 [], .call (.extend [(0, 5), (1, 6), (0, 7)]) []]).1.holds
        (fun s => decide ((SegmentedStore.reclaimTombstones (defaultStore Nat Nat) (3 / 4)
          (Proc.armed s [])).1 =
          .ok { merges := 1, segmentsBefore := 2, segmentsAfter := 2, itemsMerged := 1 })) =
            true by decide +kernel)
  have ht : SegmentedStore.reclaimTombstones (defaultStore Nat Nat) (3 / 4) (Proc.armed s []) =
      (.ok _, _) := Prod.ext (of_decide_eq_true hok) rfl
  exact ⟨s, _, _, hs, ht, rfl, reclaim_tombstones_settles false
    [.reopen (.new 2) 0 [], .call (.extend [(0, 5), (1, 6), (0, 7)]) []] s hs _ _ (exact_rat _)
    (by decide +kernel) [] _ _ ht⟩

end Segstore
