import Segstore.Writer.Commit
import Segstore.Writer.Parts

/-!
# Compaction

What the compaction calls do to a framed writer, whatever fails, and what
ledger they leave when they return.
-/

namespace Segstore

variable {Id Item Seg F : Type} [DecidableEq Id] (st : Store Id Item Seg)
variable {s : SegmentedStore Id Item Seg F} {im : Image Id Seg}

open SegmentedStore

omit [DecidableEq Id] in
theorem ledger_image {t : SegmentedStore Id Item Seg F} {im' : Image Id Seg}
    {f : Contents Id Item Seg → Contents Id Item Seg}
    (h : t.ledger im' = (s.ledger im).mapContents f) : im' = im :=
  congrArg Ledger.image h

/-- The memory changes to `c`, as a move of the ledger. -/
theorem Yields.of_contents {α : Type} {K : α → SegmentedStore Id Item Seg F → Image Id Seg → Prop}
    (h : Framed s im) (hcur : Current s im) {c : Contents Id Item Seg} (hc : c.Shape)
    (hgrows : s.toContents.Grows c)
    (hmoves : Ledger.Moves st (s.ledger im) ((s.ledger im).mapContents fun _ => c))
    {v : α} (hK : K v { s with toContents := c } im) :
    Yields st s im K (.ok v) { s with toContents := c } :=
  ⟨im, h.contents hc hgrows, fun _ => hcur, .contents hgrows, hmoves,
    by rintro _ ⟨⟩; exact ⟨rfl, hK⟩⟩

/-- The merged segment is on disk before it is in memory. -/
theorem Framed.merged (h : Framed s im) {t : SegmentedStore Id Item Seg F} (indices : List Nat)
    (hn : 0 < st.segmentLen (s.mergedSegment st indices))
    (ht : Persisted { s with toContents := s.allocId } t im)
    (hdone : s.nextSegId ∈ t.persistedIds ∧
      segFile t.dir.files s.nextSegId = some (s.mergedSegment st indices)) :
    Framed { t with toContents := s.toContents.merge st indices } im := by
  have hmem : ∀ p ∈ (s.toContents.merge st indices).sealed,
      p ∈ s.sealed ∨ p = (s.nextSegId, s.mergedSegment st indices) := by
    intro p hp
    rw [Contents.merge_sealed st h.shape, if_pos hn, List.mem_append,
      List.mem_singleton] at hp
    exact hp.imp_left ((dropIndices_sublist _ _).mem)
  have hnext : (s.toContents.merge st indices).nextSegId = s.nextSegId + 1 := by
    rw [Contents.merge, if_pos hn, Contents.installMerged_nextSegId]
    rfl
  refine ⟨ht.framed.disk, h.shape.merge st indices, ?_, ?_, ?_, ht.framed.named, ?_,
    ht.framed.wal⟩
  · exact h.next_le.trans (Contents.Grows.merge st h.shape indices).next_le
  · intro p hp hlt
    rcases hmem p hp with hp | rfl
    · exact h.committed p hp hlt
    · exact absurd hlt (Nat.not_lt_of_le h.next_le)
  · intro p hp hpers
    rcases hmem p hp with hp | rfl
    · exact ht.framed.file p (by rw [ht.memory]; exact hp) hpers
    · exact hdone.2
  · intro k hk
    have hlt := ht.framed.persisted_lt k hk
    rw [ht.memory] at hlt
    show k < (s.toContents.merge st indices).nextSegId
    rw [hnext]
    exact hlt

/-- As `Yields`, and the directory stands for the same image as before. -/
structure Stays {α : Type} (s : SegmentedStore Id Item Seg F) (im : Image Id Seg)
    (K : α → SegmentedStore Id Item Seg F → Prop) (r : Outcome PersistenceError α)
    (t : SegmentedStore Id Item Seg F) : Prop where
  framed : Framed t im
  current : r ≠ .crash → Current t im
  guar : Guar s im t im
  moves : Ledger.Moves st (s.ledger im) (t.ledger im)
  returned : ∀ v, r = .ok v → t.poisoned = s.poisoned ∧ K v t

variable {st} in
theorem Stays.yields {α : Type} {K : α → SegmentedStore Id Item Seg F → Prop}
    {r : Outcome PersistenceError α} {t : SegmentedStore Id Item Seg F}
    (h : Stays st s im K r t) {K' : α → SegmentedStore Id Item Seg F → Image Id Seg → Prop}
    (hK : ∀ v t, K v t → K' v t im) : Yields st s im K' r t :=
  ⟨im, h.framed, h.current, h.guar, h.moves, fun v hv => (h.returned v hv).imp_right (hK v t)⟩

theorem replaceGroup_ends (h : Framed s im) (hcur : Current s im) {indices : List Nat}
    (hpos : Positions s.segments.length indices) :
    Ends (replaceGroup st indices (s.mergedSegment st indices)) s
      (Stays st s im (fun _ t =>
        t.ledger im = (s.ledger im).mapContents fun c => c.merge st indices)) := by
  have hshape := h.shape.merge st indices
  have hgrows := Contents.Grows.merge st h.shape indices
  have hmerge : Ledger.Moves st (s.ledger im)
      ((s.ledger im).mapContents fun c => c.merge st indices) := .single (.merge _ _ hpos)
  rw [replaceGroup, Ends.get_bind_iff]
  by_cases hn : 0 < st.segmentLen (s.mergedSegment st indices)
  · rw [if_pos hn]
    have h₁ := h.contents h.shape.allocId .allocId
    have halloc : Ledger.Moves st (s.ledger im)
        ((s.ledger im).mapContents Contents.allocId) := .single (.alloc _)
    rw [onContents, Ends.update_bind_iff]
    have hfresh : ∀ seg, (s.nextSegId, seg) ∉ s.sealed := fun seg hmem =>
      absurd (h.shape.below _ (Contents.fst_mem_of_mem_sealed hmem)) (Nat.lt_irrefl _)
    have hpersist := persistSegment_ends h₁ (s.mergedSegment st indices)
      h.next_le (Nat.lt_succ_self _)
      (fun hmem => absurd (h.persisted_lt _ hmem) (Nat.lt_irrefl _))
      (fun seg hmem => absurd hmem (hfresh seg))
    refine Ends.bind hpersist ?_ ?_ ?_
    · rintro ⟨⟩ t ⟨ht, -, hdone⟩
      rw [onContents, Ends.update_iff]
      have hmem : t.toContents.installMerged st indices (s.mergedSegment st indices)
          (some s.nextSegId) = s.toContents.merge st indices := by
        rw [ht.memory, Contents.merge, if_pos hn]
      have heq : SegmentedStore.ledger { t with
          toContents := s.toContents.merge st indices } im =
          (s.ledger im).mapContents fun c => c.merge st indices := by
        simp only [SegmentedStore.ledger, Ledger.mapContents, ht.log, ht.published]
      rw [hmem]
      exact ⟨h.merged st indices hn ht (hdone rfl), fun _ => ht.current hcur,
        ⟨ht.opts, ht.backed, hgrows, fun _ hp => .inl hp, fun n hn => .inl (ht.index n hn)⟩,
        heq.symm ▸ hmerge, fun _ _ => ⟨ht.poisoned, heq⟩⟩
    · rintro e t ⟨ht, -, -⟩
      exact ⟨ht.framed, fun _ => ht.current hcur, (Guar.contents .allocId).trans ht.guar,
        ht.ledger.symm ▸ halloc, by simp⟩
    · rintro t ⟨ht, -, -⟩
      exact ⟨ht.framed, by simp, (Guar.contents .allocId).trans ht.guar,
        ht.ledger.symm ▸ halloc, by simp⟩
  · rw [if_neg hn, onContents, Ends.update_iff]
    have hmem : s.toContents.installMerged st indices (s.mergedSegment st indices) none =
        s.toContents.merge st indices := by rw [Contents.merge, if_neg hn]
    rw [hmem]
    exact ⟨h.contents hshape hgrows, fun _ => hcur, .contents hgrows, hmerge,
      fun _ _ => ⟨rfl, rfl⟩⟩

/-- `merge_group`: when it returns, the group has been merged; when it fails, at
most an id is lost. -/
theorem mergeGroup_stays (h : Framed s im) (hcur : Current s im) {indices : List Nat}
    (hpos : Positions s.segments.length indices) :
    Ends (mergeGroup st indices) s (Stays st s im (fun n t =>
      n = st.segmentLen (s.mergedSegment st indices) ∧
        t.ledger im = (s.ledger im).mapContents fun c => c.merge st indices)) := by
  rw [mergeGroup, Ends.get_bind_iff]
  refine Ends.bind (replaceGroup_ends st h hcur hpos) ?_ ?_ ?_
  · intro _ t ht
    obtain ⟨hpoisoned, hledger⟩ := ht.returned _ rfl
    refine Ends.pure_iff.mpr ⟨ht.framed, fun _ => ht.current (by simp), ht.guar, ht.moves, ?_⟩
    rintro _ ⟨⟩
    exact ⟨hpoisoned, rfl, hledger⟩
  · exact fun e t ht => ⟨ht.framed, fun _ => ht.current (by simp), ht.guar, ht.moves, by simp⟩
  · exact fun t ht => ⟨ht.framed, by simp, ht.guar, ht.moves, by simp⟩

theorem mergeGroup_ends (h : Framed s im) (hcur : Current s im) {indices : List Nat}
    (hpos : Positions s.segments.length indices) :
    Ends (mergeGroup st indices) s (Yields st s im (fun n t im' =>
      n = st.segmentLen (s.mergedSegment st indices) ∧
        t.ledger im' = (s.ledger im).mapContents fun c => c.merge st indices)) :=
  (mergeGroup_stays st h hcur hpos).mono fun _ _ ht => ht.yields fun _ _ hK => hK

theorem withSegmentsAfter_ends {K : CompactionStats → SegmentedStore Id Item Seg F →
    Image Id Seg → Prop} (h : Framed s im) (hcur : Current s im) (stats : CompactionStats)
    (hK : ∀ stats, K stats s im) :
    Ends (withSegmentsAfter stats) s (Yields st s im K) := by
  rw [withSegmentsAfter, Ends.get_bind_iff]
  exact Ends.pure_iff.mpr (.ret h hcur (hK _))

/-! ## Full compaction -/

theorem mergeEverything_ends (h : Framed s im) (hcur : Current s im) (hbuffer : s.buffer = []) :
    Ends (mergeEverything st) s (Yields st s im (fun _ t im' =>
      t.ledger im' = (s.ledger im).mapContents fun c => c.compacted st)) := by
  have hmoves : Ledger.Moves st (s.ledger im)
      ((s.ledger im).mapContents fun c => c.compacted st) := .single (.compacted _ hbuffer)
  rw [mergeEverything, Ends.get_bind_iff]
  by_cases hneeds : s.needsCompact = true
  · rw [if_pos hneeds]
    have hcompacted : s.toContents.compacted st =
        (s.toContents.merge st (List.range s.segments.length)).purge := by
      rw [Contents.compacted, if_pos hneeds]
    refine Ends.bind (mergeGroup_ends st h hcur (positions_range _)) ?_ ?_ ?_
    · rintro n t ⟨im', ht, hcur', hguar, -, hK⟩
      obtain ⟨hpoisoned, -, hledger⟩ := hK n rfl
      have him : im' = im := ledger_image hledger
      subst him
      have hmem : t.toContents.purge = s.toContents.compacted st := by
        rw [hcompacted]
        exact congrArg (fun l => l.contents.purge) hledger
      have hfinal : SegmentedStore.ledger { t with toContents := t.toContents.purge } im' =
          (s.ledger im').mapContents fun c => c.compacted st := by
        have hcongr := congrArg (fun l => l.mapContents Contents.purge) hledger
        refine hcongr.trans ?_
        simp only [Ledger.mapContents, SegmentedStore.ledger, hcompacted]
      rw [onContents, Ends.update_bind_iff]
      refine Ends.pure_iff.mpr ⟨im', ht.contents ht.shape.purge .purge,
        fun _ => hcur' (by simp),
        hguar.trans (.contents .purge), ?_, fun _ _ => ⟨hpoisoned, hfinal⟩⟩
      rwa [hfinal]
    · rintro e t ⟨im', ht, hcur', hguar, hm, -⟩
      exact ⟨im', ht, fun _ => hcur' (by simp), hguar, hm, by simp⟩
    · rintro t ⟨im', ht, -, hguar, hm, -⟩
      exact ⟨im', ht, by simp, hguar, hm, by simp⟩
  · rw [if_neg hneeds, onContents, Ends.update_bind_iff]
    have hmem : s.toContents.purge = s.toContents.compacted st := by
      rw [Contents.compacted, if_neg hneeds]
    rw [hmem]
    refine Ends.pure_iff.mpr (.of_contents st h hcur ?_ ?_ hmoves rfl)
    · exact hmem ▸ h.shape.purge
    · exact hmem ▸ .purge

/-- `compact`. -/
theorem compact_ends (h : Framed s im) (hcur : Current s im) :
    Ends (compact st) s (Yields st s im (fun _ t im' =>
      t.ledger im' = (s.ledger im).compact st)) := by
  rw [compact, compactMerging, bind_assoc]
  refine Yields.onContents_bind h hcur (h.shape.flushBuffer st) (.flushBuffer st h.shape)
    (.single (.flush _)) fun h₁ hcur₁ => ?_
  refine Yields.bind (mergeEverything_ends st h₁ hcur₁ (Contents.flushBuffer_buffer _ st))
    fun stats t im' ht hcur' _ _ hK => ?_
  refine Yields.bind (checkpoint_ends st ht hcur') fun _ u im'' hu hcur'' _ _ hK' => ?_
  refine withSegmentsAfter_ends st hu hcur'' stats fun _ => ?_
  rw [hK'.1, hK]
  rfl

/-! ## Partial compaction -/

/-- The end of a partial compaction that began at `s` and merged `p.2` times. -/
theorem finishCompaction_ends (h : Framed s im) (hcur : Current s im)
    {stats : CompactionStats} :
    Ends (finishCompaction st stats) s (Yields st s im (fun _ t im' =>
      t.ledger im' = if 0 < stats.merges then (s.ledger im).commit st else s.ledger im)) := by
  rw [finishCompaction]
  by_cases hmerges : 0 < stats.merges
  · simp only [if_pos hmerges]
    refine Yields.bind (checkpoint_ends st h hcur) fun _ t im' ht hcur' _ _ hK => ?_
    exact withSegmentsAfter_ends st ht hcur' stats fun _ => hK.1
  · simp only [if_neg hmerges]
    exact withSegmentsAfter_ends st h hcur stats fun _ => rfl

/-- The loop of a partial compaction. -/
theorem mergeLoop_ends {next : Options F → Contents Id Item Seg → Option (List Nat)}
    (hnext : ∀ opts, Contents.Picks (next opts)) (h : Framed s im) (hcur : Current s im)
    (fuel : Nat) (stats : CompactionStats) :
    Ends (mergeLoop st next fuel stats) s (Yields st s im (fun stats' t im' =>
      let p := s.toContents.mergesBy st (next s.opts) fuel
      t.ledger im' = (s.ledger im).mapContents (fun _ => p.1) ∧
        stats'.merges = stats.merges + p.2)) := by
  induction fuel generalizing s im stats with
  | zero => exact Ends.pure_iff.mpr (.ret h hcur ⟨rfl, rfl⟩)
  | succ fuel ih =>
      rw [mergeLoop, Ends.get_bind_iff]
      cases hgroup : next s.opts s.toContents with
      | none =>
          refine Ends.pure_iff.mpr (.ret h hcur ?_)
          simp only [Contents.mergesBy, hgroup]
          exact ⟨rfl, rfl⟩
      | some group =>
          refine Yields.bind (mergeGroup_ends st h hcur (hnext _ hgroup).1)
            fun n t im' ht hcur' hguar _ hK => ?_
          obtain ⟨-, hledger⟩ := hK
          have hmem : t.toContents = s.toContents.merge st group :=
            congrArg Ledger.contents hledger
          refine (ih ht hcur' _).mono fun r u hu => hu.imp fun stats' v im'' hv => ?_
          obtain ⟨hv, hmerges⟩ := hv
          simp only [Contents.mergesBy, hgroup]
          rw [hmem, hguar.opts] at hv hmerges
          refine ⟨?_, by rw [hmerges, Nat.add_assoc, Nat.add_comm 1]⟩
          rw [hv, hledger]
          rfl

theorem compactBy_ends {next : Options F → Contents Id Item Seg → Option (List Nat)}
    (hnext : ∀ opts, Contents.Picks (next opts)) (h : Framed s im) (hcur : Current s im) :
    Ends (compactBy st next) s (Yields st s im (fun _ t im' => t.ledger im' =
      (s.ledger im).compactBy st fun c => c.mergesBy st (next s.opts) c.segments.length)) := by
  rw [compactBy, mergingBy, bind_assoc]
  refine Yields.onContents_bind h hcur (h.shape.flushBuffer st) (.flushBuffer st h.shape)
    (.single (.flush _)) fun h₁ hcur₁ => ?_
  rw [bind_assoc, Ends.get_bind_iff]
  refine Yields.bind (mergeLoop_ends st hnext h₁ hcur₁ _ _)
    fun stats t im' ht hcur' _ _ hK => ?_
  obtain ⟨hledger, hmerges⟩ := hK
  refine (finishCompaction_ends st ht hcur').mono fun r u hu => hu.imp fun _ v im'' hv => ?_
  rw [hv, hledger, hmerges]
  simp only [Nat.zero_add]
  rfl

/-- `force_merge_to`. -/
theorem forceMergeTo_ends (h : Framed s im) (hcur : Current s im) (maxSegments : Nat) :
    Ends (forceMergeTo st maxSegments) s (Yields st s im (fun _ t im' =>
      t.ledger im' = (s.ledger im).forceMergeTo st s.opts maxSegments)) := by
  rw [forceMergeTo_eq]
  by_cases hmax : maxSegments ≤ 1
  · simp only [Ledger.forceMergeTo, if_pos hmax]
    exact compact_ends st h hcur
  · simp only [Ledger.forceMergeTo, if_neg hmax, Contents.forceMerges_eq]
    exact compactBy_ends st (fun _ => Contents.picks_overshootGroup st _ (by omega)) h hcur

variable [F64 F]

/-- `compact_tiers`. -/
theorem compactTiers_ends (h : Framed s im) (hcur : Current s im) :
    Ends (compactTiers st) s (Yields st s im (fun _ t im' =>
      t.ledger im' = (s.ledger im).compactTiers st s.opts)) := by
  rw [compactTiers_eq]
  simp only [Ledger.compactTiers, Contents.tierMerges_eq]
  exact compactBy_ends st (fun _ => Contents.picks_nextMergeGroup st _ _) h hcur

/-- `reclaim_tombstones`. -/
theorem reclaimTombstones_ends (h : Framed s im) (hcur : Current s im) (minLiveRatio : F) :
    Ends (reclaimTombstones st minLiveRatio) s (Yields st s im (fun _ t im' =>
      t.ledger im' = (s.ledger im).reclaimTombstones st minLiveRatio)) := by
  rw [reclaimTombstones, reclaimMerging, bind_assoc]
  refine Yields.onContents_bind h hcur (h.shape.flushBuffer st) (.flushBuffer st h.shape)
    (.single (.flush _)) fun h₁ hcur₁ => ?_
  rw [bind_assoc, Ends.get_bind_iff]
  have hquiet : ∀ {c : Contents Id Item Seg},
      c = s.toContents.flushBuffer st →
      (c.reclaimTargets st minLiveRatio c.sealed.zipIdx = none ∨
        c.reclaimTargets st minLiveRatio c.sealed.zipIdx = some []) →
      (s.ledger im).reclaimTombstones st minLiveRatio =
        (s.ledger im).mapContents fun _ => c := by
    rintro c rfl hc
    rw [Ledger.reclaimTombstones, Ledger.compactBy]
    rcases hc with hc | hc
    · simp only [SegmentedStore.ledger, hc]
      rfl
    · simp only [SegmentedStore.ledger, hc]
      rfl
  cases htargets : (s.toContents.flushBuffer st).reclaimTargets st minLiveRatio
      (s.toContents.flushBuffer st).sealed.zipIdx with
  | none =>
      exact withSegmentsAfter_ends st h₁ hcur₁ _ fun _ => (hquiet rfl (.inl htargets)).symm
  | some targets =>
      cases targets with
      | nil =>
          exact withSegmentsAfter_ends st h₁ hcur₁ _ fun _ => (hquiet rfl (.inr htargets)).symm
      | cons target targets =>
          dsimp only
          rw [bind_assoc]
          refine Yields.bind (mergeGroup_ends st h₁ hcur₁
            (Contents.reclaimTargets_positions st h₁.shape htargets))
              fun n t im' ht hcur' _ _ hK => ?_
          rw [pure_bind, finishCompaction, if_pos Nat.one_pos]
          refine Yields.bind (checkpoint_ends st ht hcur') fun _ u im'' hu hcur'' _ _ hK' => ?_
          refine withSegmentsAfter_ends st hu hcur'' _ fun _ => ?_
          rw [hK'.1, hK.2, Ledger.reclaimTombstones, Ledger.compactBy]
          simp only [SegmentedStore.ledger, htargets]
          rfl

end Segstore
