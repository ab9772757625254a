import Mathlib.Algebra.Ring.Nat
import Segstore.Memory.Shape

/-!
# The groups that get merged

Whatever the floating-point arithmetic does, a group chosen for a merge
consists of distinct positions of current segments, and the loops of
compaction choose at least two.
-/

namespace Segstore

variable {Id Item Seg F : Type} [DecidableEq Id]

namespace Contents

section Buckets

variable [F64 F] (cfg : TierConfig F)

/-- All positions in the buckets. -/
def bucketed (buckets : List (F × List (Nat × Nat))) : List Nat :=
  buckets.flatMap (fun b => b.2.map Prod.snd)

/-- Everything in the buckets: raw sizes and positions. -/
def members (buckets : List (F × List (Nat × Nat))) : List (Nat × Nat) :=
  buckets.flatMap Prod.snd

omit [F64 F] in
@[simp] theorem members_cons (b : F × List (Nat × Nat)) (bs : List (F × List (Nat × Nat))) :
    members (b :: bs) = b.2 ++ members bs := by
  simp [members]

omit [F64 F] in
theorem bucketed_eq (bs : List (F × List (Nat × Nat))) :
    bucketed bs = (members bs).map Prod.snd := by
  rw [bucketed, members, List.map_flatMap]

/-- A segment goes into exactly one bucket. -/
theorem members_addToBuckets (raw : Nat) (sz : F) (idx : Nat)
    (bs : List (F × List (Nat × Nat))) :
    (members (addToBuckets cfg raw sz idx bs)).Perm ((raw, idx) :: members bs) := by
  induction bs with
  | nil => simp [addToBuckets, members]
  | cons b bs ih =>
      obtain ⟨avg, ms⟩ := b
      rw [addToBuckets]
      split
      · simp only [members_cons, List.append_assoc, List.singleton_append]
        exact List.perm_middle
      · rw [members_cons, members_cons]
        exact (ih.append_left _).trans List.perm_middle

theorem members_foldl (es : List (Nat × F × Nat)) (bs : List (F × List (Nat × Nat))) :
    (members (es.foldl (fun bs e => addToBuckets cfg e.1 e.2.1 e.2.2 bs) bs)).Perm
      (es.map (fun e => (e.1, e.2.2)) ++ members bs) := by
  induction es generalizing bs with
  | nil => exact List.Perm.refl _
  | cons e es ih =>
      refine (ih _).trans ?_
      refine ((members_addToBuckets cfg e.1 e.2.1 e.2.2 bs).append_left _).trans ?_
      exact List.perm_middle

/-- The buckets hold every eligible segment once. -/
theorem members_tierBuckets (elig : List (Nat × F × Nat)) :
    (members (tierBuckets cfg elig)).Perm (elig.map (fun e => (e.1, e.2.2))) := by
  have hfold := members_foldl cfg
    (elig.insertionSort (fun a b => F64.totalLe a.2.1 b.2.1)) []
  rw [show members ([] : List (F × List (Nat × Nat))) = [] from rfl, List.append_nil] at hfold
  have hsorted := (List.perm_insertionSort
    (fun a b : Nat × F × Nat => F64.totalLe a.2.1 b.2.1) elig).map (fun e => (e.1, e.2.2))
  have hbuckets : (members (tierBuckets cfg elig)).Perm (members _) :=
    (List.perm_insertionSort _ _).flatMap_right _
  exact (hbuckets.trans hfold).trans hsorted

theorem bucketed_tierBuckets (elig : List (Nat × F × Nat)) :
    (bucketed (tierBuckets cfg elig)).Perm (elig.map (fun e => e.2.2)) := by
  have hmembers := (members_tierBuckets cfg elig).map Prod.snd
  rwa [List.map_map, ← bucketed_eq] at hmembers

omit [F64 F] in
/-- The chosen members are the first ones, as many as the configuration allows and
as the cap affords. -/
theorem chooseFrom_spec (ms : List (Nat × Nat)) (chosen : List Nat) (total : Nat) :
    ∃ l, l <+: ms ∧ chooseFrom cfg ms chosen total = chosen ++ l.map Prod.snd ∧
      (chosen.length ≤ cfg.maxMerge → chosen.length + l.length ≤ cfg.maxMerge) ∧
      ((∀ m ∈ ms, m.1 ≤ cfg.maxMergedLen) → total ≤ cfg.maxMergedLen →
        (chosen = [] → total = 0) → total + (l.map Prod.fst).sum ≤ cfg.maxMergedLen) := by
  have hstop : ∀ {ms : List (Nat × Nat)} (chosen : List Nat) (total : Nat),
      ∃ l, l <+: ms ∧ chosen = chosen ++ l.map Prod.snd ∧
        (chosen.length ≤ cfg.maxMerge → chosen.length + l.length ≤ cfg.maxMerge) ∧
        ((∀ m ∈ ms, m.1 ≤ cfg.maxMergedLen) → total ≤ cfg.maxMergedLen →
          (chosen = [] → total = 0) → total + (l.map Prod.fst).sum ≤ cfg.maxMergedLen) :=
    fun chosen total => ⟨[], List.nil_prefix, by simp, id, fun _ h _ => h⟩
  induction ms generalizing chosen total with
  | nil =>
      rw [chooseFrom]
      exact hstop chosen total
  | cons m ms ih =>
      obtain ⟨raw, idx⟩ := m
      rw [chooseFrom]
      split
      · exact hstop chosen total
      · rename_i hroom
        split
        · exact hstop chosen total
        · rename_i hafford
          obtain ⟨l, hl, heq, hcount, hsum⟩ := ih (chosen ++ [idx]) (total + raw)
          rw [List.length_append, List.length_singleton] at hcount
          refine ⟨(raw, idx) :: l, (List.prefix_cons_inj _).mpr hl, ?_, fun _ => ?_, ?_⟩
          · rw [heq, List.append_assoc]
            rfl
          · have hle := hcount (by omega)
            rw [List.length_cons]
            omega
          · intro hraw htotal hfirst
            have hnext : total + raw ≤ cfg.maxMergedLen := by
              have hfits := hraw (raw, idx) List.mem_cons_self
              cases chosen with
              | nil => rw [hfirst rfl, Nat.zero_add]; exact hfits
              | cons i chosen => simpa using hafford
            have hrest := hsum (fun m hm => hraw m (List.mem_cons_of_mem _ hm)) hnext
              (by simp)
            rw [List.map_cons, List.sum_cons]
            omega

omit [F64 F] in
/-- A chosen group consists of the smallest members of one bucket. -/
theorem firstEligible_spec {minMerge : Nat} {bs : List (F × List (Nat × Nat))}
    {g : List Nat} (h : firstEligible cfg minMerge bs = some g) :
    minMerge ≤ g.length ∧ ∃ b ∈ bs, g =
      chooseFrom cfg (b.2.insertionSort (fun a b => a.1 ≤ b.1)) [] 0 := by
  induction bs with
  | nil => cases h
  | cons b bs ih =>
      obtain ⟨avg, ms⟩ := b
      have hskip : firstEligible cfg minMerge bs = some g →
          minMerge ≤ g.length ∧ ∃ b ∈ (avg, ms) :: bs, g =
            chooseFrom cfg (b.2.insertionSort (fun a b => a.1 ≤ b.1)) [] 0 := by
        intro h
        obtain ⟨hlen, b, hb, hg⟩ := ih h
        exact ⟨hlen, b, List.mem_cons_of_mem _ hb, hg⟩
      rw [firstEligible] at h
      split at h
      · exact hskip h
      · simp only at h
        split at h
        · rename_i hlen
          cases h
          exact ⟨hlen, _, List.mem_cons_self, rfl⟩
        · exact hskip h

theorem eligible_positions (flushThreshold : Nat) (sizes : List Nat) :
    Positions sizes.length ((eligible cfg flushThreshold sizes).map (fun e => e.2.2)) := by
  have hsub : ((eligible cfg flushThreshold sizes).map (fun e => e.2.2)).Sublist
      (List.range sizes.length) := by
    have h := List.Sublist.map (fun e : Nat × F × Nat => e.2.2)
      (List.filter_sublist (p := fun e => decide (e.1 ≤ cfg.maxMergedLen / 2))
        (l := sizes.zipIdx.map (fun p =>
          (p.1, (F64.ofUsize (max p.1 (max flushThreshold 1)) : F), p.2))))
    rw [List.map_map] at h
    rw [List.range_eq_range', ← List.zipIdx_map_snd 0 sizes]
    exact h
  exact ⟨List.nodup_range.sublist hsub, fun i hi => List.mem_range.mp (hsub.mem hi)⟩

/-- An eligible segment is at its position, and the cap does not freeze it. -/
theorem mem_eligible {flushThreshold : Nat} {sizes : List Nat} {e : Nat × F × Nat}
    (h : e ∈ eligible cfg flushThreshold sizes) :
    sizes[e.2.2]? = some e.1 ∧ e.1 ≤ cfg.maxMergedLen / 2 := by
  obtain ⟨hmem, hsmall⟩ := List.mem_filter.mp h
  obtain ⟨⟨raw, idx⟩, hzip, rfl⟩ := List.mem_map.mp hmem
  exact ⟨List.mem_zipIdx_iff_getElem?.mp hzip, of_decide_eq_true hsmall⟩

end Buckets

theorem Positions.of_perm_sublist {n : Nat} {l p g : List Nat} (hl : Positions n l)
    (hp : p.Perm l) (hg : g.Sublist p) : Positions n g :=
  ⟨(hp.nodup_iff.mpr hl.1).sublist hg, fun i hi => hl.2 i (hp.mem_iff.mp (hg.mem hi))⟩

variable (st : Store Id Item Seg)

/-- What `next_merge_group` may choose: as many distinct segments as the
configuration asks for, none of them frozen by the cap, and all of them together
within the cap. -/
structure TierGroup (cfg : TierConfig F) (c : Contents Id Item Seg) (g : List Nat) : Prop where
  positions : Positions c.segments.length g
  atLeast : max cfg.minMerge 2 ≤ g.length
  atMost : g.length ≤ cfg.maxMerge
  small : ∀ seg ∈ pick c.segments g, st.segmentLen seg ≤ cfg.maxMergedLen / 2
  total : ((pick c.segments g).map st.segmentLen).sum ≤ cfg.maxMergedLen

omit [DecidableEq Id] in
theorem nextMergeGroup_tier [F64 F] {cfg : TierConfig F} {flushThreshold : Nat}
    {c : Contents Id Item Seg} {g : List Nat}
    (h : c.nextMergeGroup st cfg flushThreshold = some g) : c.TierGroup st cfg g := by
  rw [nextMergeGroup] at h
  split at h
  · cases h
  obtain ⟨hlen, ⟨avg, ms⟩, hb, rfl⟩ := firstEligible_spec cfg h
  obtain ⟨l, hl, heq, hcount, hsum⟩ :=
    chooseFrom_spec cfg (ms.insertionSort (fun a b => a.1 ≤ b.1)) [] 0
  rw [List.nil_append] at heq
  have hsorted := List.perm_insertionSort (fun a b : Nat × Nat => a.1 ≤ b.1) ms
  -- the bucket is a part of what is eligible
  have hbucket : ms.Sublist (members (tierBuckets cfg
      (eligible cfg flushThreshold (c.segments.map st.segmentLen)))) := by
    rw [members, List.flatMap_def]
    exact List.sublist_flatten_of_mem (List.mem_map_of_mem hb)
  have hmembers := members_tierBuckets cfg
    (eligible cfg flushThreshold (c.segments.map st.segmentLen))
  have hsize : ∀ m ∈ ms, (c.segments.map st.segmentLen)[m.2]? = some m.1 ∧
      m.1 ≤ cfg.maxMergedLen / 2 := by
    intro m hm
    obtain ⟨e, he, rfl⟩ := List.mem_map.mp (hmembers.mem_iff.mp (hbucket.mem hm))
    exact mem_eligible cfg he
  have hlsize : ∀ m ∈ l, (c.segments.map st.segmentLen)[m.2]? = some m.1 ∧
      m.1 ≤ cfg.maxMergedLen / 2 :=
    fun m hm => hsize m (hsorted.mem_iff.mp (hl.subset hm))
  have hpick : (pick c.segments (l.map Prod.snd)).map st.segmentLen = l.map Prod.fst := by
    rw [← pick_map, pick, List.filterMap_map]
    refine (List.filterMap_congr fun m hm => (hlsize m hm).1).trans ?_
    exact congrFun List.filterMap_eq_map l
  rw [heq] at hlen ⊢
  refine ⟨?_, hlen, ?_, ?_, ?_⟩
  · have helig := eligible_positions cfg flushThreshold (c.segments.map st.segmentLen)
    rw [List.length_map] at helig
    refine Positions.of_perm_sublist (Positions.of_perm_sublist helig
      (bucketed_tierBuckets cfg _) ?_) (hsorted.map Prod.snd) (hl.sublist.map Prod.snd)
    rw [bucketed_eq]
    exact hbucket.map Prod.snd
  · rw [List.length_map]
    simpa using hcount (Nat.zero_le _)
  · intro seg hseg
    have hmem : st.segmentLen seg ∈ l.map Prod.fst := hpick ▸ List.mem_map_of_mem hseg
    obtain ⟨m, hm, hraw⟩ := List.mem_map.mp hmem
    exact hraw ▸ (hlsize m hm).2
  · rw [hpick]
    have hle := hsum (fun m hm => ((hsize m (hsorted.mem_iff.mp hm)).2).trans
      (Nat.div_le_self _ _)) (Nat.zero_le _) (fun _ => rfl)
    rwa [Nat.zero_add] at hle

omit [DecidableEq Id] in
/-- `next_merge_group` chooses at least two distinct segments. -/
theorem nextMergeGroup_positions [F64 F] {cfg : TierConfig F} {flushThreshold : Nat}
    {c : Contents Id Item Seg} {g : List Nat}
    (h : c.nextMergeGroup st cfg flushThreshold = some g) :
    Positions c.segments.length g ∧ 2 ≤ g.length :=
  have htier := nextMergeGroup_tier st h
  ⟨htier.positions, le_trans (le_max_right _ _) htier.atLeast⟩

omit [DecidableEq Id] in
/-- `force_merge_to` merges at least two distinct segments a round. -/
theorem smallestGroup_positions (cfg : TierConfig F) {maxSegments : Nat}
    {c : Contents Id Item Seg} (hmax : 1 ≤ maxSegments)
    (h : maxSegments < c.segments.length) :
    Positions c.segments.length (c.smallestGroup st cfg maxSegments) ∧
      2 ≤ (c.smallestGroup st cfg maxSegments).length := by
  rw [smallestGroup]
  constructor
  · exact Positions.of_perm_sublist (positions_range _) (List.perm_insertionSort _ _)
      (List.take_sublist _ _)
  · rw [List.length_take, (List.perm_insertionSort _ _).length_eq, List.length_range]
    omega

/-- `reclaim_tombstones` merges distinct segments. -/
theorem reclaimTargets_sublist [F64 F] {minLiveRatio : F} {c : Contents Id Item Seg}
    {segs : List ((Nat × Seg) × Nat)} {g : List Nat}
    (h : c.reclaimTargets st minLiveRatio segs = some g) :
    g.Sublist (segs.map Prod.snd) := by
  induction segs generalizing g with
  | nil =>
      cases h
      exact List.Sublist.refl _
  | cons p segs ih =>
      obtain ⟨⟨segId, seg⟩, i⟩ := p
      rw [reclaimTargets] at h
      split at h
      · exact (ih h).cons i
      · split at h
        · cases h
        · split at h
          · obtain ⟨l, hl, rfl⟩ := Option.map_eq_some_iff.mp h
            exact (ih hl).cons_cons i
          · exact (ih h).cons i

theorem reclaimTargets_positions [F64 F] {minLiveRatio : F} {c : Contents Id Item Seg}
    {g : List Nat} (hc : c.Shape)
    (h : c.reclaimTargets st minLiveRatio c.sealed.zipIdx = some g) :
    Positions c.segments.length g := by
  have hsub := reclaimTargets_sublist st h
  rw [List.zipIdx_map_snd, ← List.range_eq_range', PubState.sealed, List.length_zip, hc.len,
    Nat.min_self] at hsub
  exact Positions.of_perm_sublist (positions_range _) (List.Perm.refl _) hsub

/-! ## Sequences of merges -/

/-- The merges of a full compaction, and what it then forgets. -/
def compacted (c : Contents Id Item Seg) : Contents Id Item Seg :=
  (if c.needsCompact then c.merge st (List.range c.segments.length) else c).purge

/-- The merges of `compact_tiers`, and how many there are. -/
def tierMerges [F64 F] (cfg : TierConfig F) (flushThreshold : Nat) :
    Nat → Contents Id Item Seg → Contents Id Item Seg × Nat
  | 0, c => (c, 0)
  | fuel + 1, c =>
      match c.nextMergeGroup st cfg flushThreshold with
      | none => (c, 0)
      | some group =>
          let p := tierMerges cfg flushThreshold fuel (c.merge st group)
          (p.1, p.2 + 1)

/-- The merges of `force_merge_to`, and how many there are. -/
def forceMerges (cfg : TierConfig F) (maxSegments : Nat) :
    Nat → Contents Id Item Seg → Contents Id Item Seg × Nat
  | 0, c => (c, 0)
  | fuel + 1, c =>
      if maxSegments < c.segments.length then
        let p := forceMerges cfg maxSegments fuel
          (c.merge st (c.smallestGroup st cfg maxSegments))
        (p.1, p.2 + 1)
      else
        (c, 0)

theorem compacted_buffer {c : Contents Id Item Seg} (h : c.buffer = []) :
    (c.compacted st).buffer = [] := by
  rw [compacted]
  split
  · exact (merge_buffer st _).trans h
  · exact h

theorem Shape.compacted {c : Contents Id Item Seg} (hc : c.Shape) : (c.compacted st).Shape := by
  rw [Contents.compacted]
  split
  · exact (hc.merge st _).purge
  · exact hc.purge

theorem Grows.compacted {c : Contents Id Item Seg} (hc : c.Shape) :
    Grows c (c.compacted st) := by
  rw [Contents.compacted]
  split
  · exact (Grows.merge st hc _).trans .purge
  · exact .purge

/-- A full compaction leaves one segment at most. -/
theorem length_compacted_le (c : Contents Id Item Seg) :
    (c.compacted st).segments.length ≤ 1 := by
  have hpurge : ∀ d : Contents Id Item Seg, d.purge.segments = d.segments := fun _ => rfl
  rw [compacted, hpurge]
  split
  · have hadd := merge_length_add st (positions_range c.segments.length)
    rw [List.length_range] at hadd
    split at hadd
    · omega
    · omega
  · rename_i hneeds
    simp only [needsCompact, Bool.or_eq_true, decide_eq_true_eq, not_or] at hneeds
    exact Nat.le_of_not_lt hneeds.1

/-! ## Rounds of merges -/

/-- The group of a round of `force_merge_to`, if there is a round to make. -/
def overshootGroup (cfg : TierConfig F) (maxSegments : Nat) (c : Contents Id Item Seg) :
    Option (List Nat) :=
  if maxSegments < c.segments.length then some (c.smallestGroup st cfg maxSegments) else none

omit [DecidableEq Id] in
theorem overshootGroup_eq_some {cfg : TierConfig F} {maxSegments : Nat}
    {c : Contents Id Item Seg} {group : List Nat} :
    c.overshootGroup st cfg maxSegments = some group ↔
      maxSegments < c.segments.length ∧ group = c.smallestGroup st cfg maxSegments := by
  rw [overshootGroup, Option.ite_none_right_eq_some, Option.some_inj, eq_comm (a := group)]

omit [DecidableEq Id] in
theorem overshootGroup_eq_none {cfg : TierConfig F} {maxSegments : Nat}
    {c : Contents Id Item Seg} :
    c.overshootGroup st cfg maxSegments = none ↔ c.segments.length ≤ maxSegments := by
  rw [overshootGroup, ite_eq_right_iff, ← Nat.not_lt]
  exact forall_congr' fun _ => by simp

/-- Rounds of merges, each of the group that `next` chooses. -/
def mergesBy (next : Contents Id Item Seg → Option (List Nat)) :
    Nat → Contents Id Item Seg → Contents Id Item Seg × Nat
  | 0, c => (c, 0)
  | fuel + 1, c =>
      match next c with
      | none => (c, 0)
      | some group =>
          let p := mergesBy next fuel (c.merge st group)
          (p.1, p.2 + 1)

/-- Whatever is chosen is at least two distinct segments. -/
def Picks (next : Contents Id Item Seg → Option (List Nat)) : Prop :=
  ∀ {c group}, next c = some group → Positions c.segments.length group ∧ 2 ≤ group.length

omit [DecidableEq Id] in
theorem picks_nextMergeGroup [F64 F] (cfg : TierConfig F) (flushThreshold : Nat) :
    Picks fun c : Contents Id Item Seg => c.nextMergeGroup st cfg flushThreshold :=
  nextMergeGroup_positions st

omit [DecidableEq Id] in
theorem picks_overshootGroup (cfg : TierConfig F) {maxSegments : Nat} (hmax : 1 ≤ maxSegments) :
    Picks fun c : Contents Id Item Seg => c.overshootGroup st cfg maxSegments := by
  intro c group h
  obtain ⟨hlen, rfl⟩ := (overshootGroup_eq_some st).mp h
  exact smallestGroup_positions st cfg hmax hlen

theorem tierMerges_eq [F64 F] (cfg : TierConfig F) (flushThreshold fuel : Nat)
    (c : Contents Id Item Seg) : c.tierMerges st cfg flushThreshold fuel =
      c.mergesBy st (fun c => c.nextMergeGroup st cfg flushThreshold) fuel := by
  induction fuel generalizing c with
  | zero => rfl
  | succ fuel ih =>
      rw [tierMerges, mergesBy]
      cases c.nextMergeGroup st cfg flushThreshold with
      | none => rfl
      | some group => simp only [ih]

theorem forceMerges_eq (cfg : TierConfig F) (maxSegments fuel : Nat)
    (c : Contents Id Item Seg) : c.forceMerges st cfg maxSegments fuel =
      c.mergesBy st (fun c => c.overshootGroup st cfg maxSegments) fuel := by
  induction fuel generalizing c with
  | zero => rfl
  | succ fuel ih =>
      rw [forceMerges, mergesBy, overshootGroup]
      split
      · simp only [ih]
      · rfl

/-- With as many rounds as segments the merging runs to its end. -/
theorem mergesBy_done {next : Contents Id Item Seg → Option (List Nat)} (hnext : Picks next)
    {fuel : Nat} {c : Contents Id Item Seg} (hfuel : c.segments.length ≤ fuel) :
    next (c.mergesBy st next fuel).1 = none := by
  induction fuel generalizing c with
  | zero =>
      rw [mergesBy]
      cases hgroup : next c with
      | none => rfl
      | some group =>
          obtain ⟨hpos, h2⟩ := hnext hgroup
          have hadd := length_dropIndices_add hpos
          omega
  | succ fuel ih =>
      rw [mergesBy]
      split
      · assumption
      · rename_i group hgroup
        obtain ⟨hpos, h2⟩ := hnext hgroup
        have hlt := merge_length_lt st hpos h2
        exact ih (by omega)

theorem tierMerges_done [F64 F] {cfg : TierConfig F} {flushThreshold fuel : Nat}
    {c : Contents Id Item Seg} (hfuel : c.segments.length ≤ fuel) :
    (c.tierMerges st cfg flushThreshold fuel).1.nextMergeGroup st cfg flushThreshold = none := by
  rw [tierMerges_eq]
  exact mergesBy_done st (picks_nextMergeGroup st cfg flushThreshold) hfuel

/-- With as many rounds as segments no more than `maxSegments` remain. -/
theorem forceMerges_done {cfg : TierConfig F} {maxSegments fuel : Nat} (hmax : 1 ≤ maxSegments)
    {c : Contents Id Item Seg} (hfuel : c.segments.length ≤ fuel) :
    (c.forceMerges st cfg maxSegments fuel).1.segments.length ≤ maxSegments := by
  rw [forceMerges_eq]
  exact (overshootGroup_eq_none st).mp (mergesBy_done st (picks_overshootGroup st cfg hmax) hfuel)

end Contents

end Segstore
