import Segstore.Memory.Groups
import Segstore.Memory.Sealing

/-!
# Rounds of merges

The loops of `compact_tiers` and `force_merge_to` merge one group after the
other.  Every round of at least two segments leaves fewer, so there are never
more rounds than segments.  The rounds of `compact_tiers` leave frozen segments
alone and make none that exceeds the cap.
-/

namespace Segstore

variable {Id Item Seg F : Type} [DecidableEq Id]

namespace Contents

section Rounds

variable (st : Store Id Item Seg) (G : Contents Id Item Seg → List Nat → Prop)

/-- Merges one after the other, each of a group that `G` admits. -/
inductive Rounds :
    Contents Id Item Seg → List (List Nat) → Contents Id Item Seg → Prop
  | done (c : Contents Id Item Seg) : Rounds c [] c
  | round {c c' : Contents Id Item Seg} {g : List Nat} {gs : List (List Nat)} :
      G c g → Rounds (c.merge st g) gs c' → Rounds c (g :: gs) c'

variable {st G} {c c' : Contents Id Item Seg} {gs : List (List Nat)}

theorem Rounds.mono {G' : Contents Id Item Seg → List Nat → Prop} (h : Rounds st G c gs c')
    (hG : ∀ {c g}, G c g → G' c g) : Rounds st G' c gs c' := by
  induction h with
  | done c => exact .done c
  | round hg _ ih => exact .round (hG hg) ih

/-- What every merge preserves every sequence of rounds preserves. -/
theorem Rounds.induction {I : Contents Id Item Seg → Prop}
    (hmerge : ∀ {c g}, I c → G c g → I (c.merge st g)) (hc : I c) (h : Rounds st G c gs c') :
    I c' := by
  induction h with
  | done c => exact hc
  | round hg _ ih => exact ih (hmerge hc hg)

/-- There are no more rounds than segments that disappear. -/
theorem Rounds.length_add_le
    (hG : ∀ {c g}, G c g → Positions c.segments.length g ∧ 2 ≤ g.length)
    (h : Rounds st G c gs c') : gs.length + c'.segments.length ≤ c.segments.length := by
  induction h with
  | done c => simp
  | @round c c' g gs hg _ ih =>
      obtain ⟨hpos, h2⟩ := hG hg
      have hlt := merge_length_lt st hpos h2
      rw [List.length_cons]
      omega

/-- A sequence that is not empty has a last round. -/
theorem Rounds.last (h : Rounds st G c gs c') (hne : gs ≠ []) : ∃ gs' d g,
    Rounds st G c gs' d ∧ G d g ∧ c' = d.merge st g ∧ gs.length = gs'.length + 1 := by
  induction h with
  | done c => exact absurd rfl hne
  | @round c c' g gs hg hrest ih =>
      cases hrest with
      | done => exact ⟨[], c, g, .done c, hg, rfl, rfl⟩
      | @round _ _ g' gs' hg' hrest =>
          obtain ⟨before, d, last, hbefore, hlast, heq, hlen⟩ := ih (List.cons_ne_nil _ _)
          exact ⟨g :: before, d, last, .round hg hbefore, hlast, heq, by simpa using hlen⟩

theorem Rounds.tombstones (h : Rounds st G c gs c') : c'.tombstones = c.tombstones :=
  h.induction (I := fun d => d.tombstones = c.tombstones)
    (fun hd _ => (merge_tombstones st _).trans hd) rfl

theorem Rounds.buffer (h : Rounds st G c gs c') : c'.buffer = c.buffer :=
  h.induction (I := fun d => d.buffer = c.buffer)
    (fun hd _ => (merge_buffer st _).trans hd) rfl

variable (st)

theorem mergesBy_rounds (next : Contents Id Item Seg → Option (List Nat)) (fuel : Nat)
    (c : Contents Id Item Seg) : ∃ gs,
      Rounds st (fun c g => next c = some g) c gs (c.mergesBy st next fuel).1 ∧
      (c.mergesBy st next fuel).2 = gs.length := by
  induction fuel generalizing c with
  | zero => exact ⟨[], .done c, rfl⟩
  | succ fuel ih =>
      rw [mergesBy]
      split
      · exact ⟨[], .done c, rfl⟩
      · rename_i g hg
        obtain ⟨gs, hrounds, hcount⟩ := ih (c.merge st g)
        exact ⟨g :: gs, .round hg hrounds, by rw [List.length_cons, ← hcount]⟩

/-- The loop of `compact_tiers`. -/
theorem tierMerges_rounds [F64 F] (cfg : TierConfig F) (flushThreshold fuel : Nat)
    (c : Contents Id Item Seg) : ∃ gs,
      Rounds st (fun c g => c.nextMergeGroup st cfg flushThreshold = some g) c gs
        (c.tierMerges st cfg flushThreshold fuel).1 ∧
      (c.tierMerges st cfg flushThreshold fuel).2 = gs.length := by
  rw [tierMerges_eq]
  exact mergesBy_rounds st _ fuel c

/-- The loop of `force_merge_to`. -/
theorem forceMerges_rounds (cfg : TierConfig F) (maxSegments fuel : Nat)
    (c : Contents Id Item Seg) : ∃ gs,
      Rounds st (fun c g => maxSegments < c.segments.length ∧
        g = c.smallestGroup st cfg maxSegments) c gs
        (c.forceMerges st cfg maxSegments fuel).1 ∧
      (c.forceMerges st cfg maxSegments fuel).2 = gs.length := by
  rw [forceMerges_eq]
  obtain ⟨gs, hrounds, hcount⟩ :=
    mergesBy_rounds st (fun c => c.overshootGroup st cfg maxSegments) fuel c
  exact ⟨gs, hrounds.mono (overshootGroup_eq_some st).mp, hcount⟩

/-- What one round of `force_merge_to` merges: no more than what is left of the
overshoot, and nothing larger than what it leaves alone. -/
structure SmallestGroup (cfg : TierConfig F) (maxSegments : Nat)
    (c : Contents Id Item Seg) (g : List Nat) : Prop where
  many : maxSegments < c.segments.length
  positions : Positions c.segments.length g
  atLeast : 2 ≤ g.length
  atMost : g.length ≤ max cfg.maxMerge 2
  overshoot : maxSegments + g.length ≤ c.segments.length + 1
  smallest : ∀ seg ∈ pick c.segments g, ∀ seg' ∈ dropIndices g c.segments,
    st.segmentLen seg ≤ st.segmentLen seg'

omit [DecidableEq Id] in
theorem smallestGroup_spec (cfg : TierConfig F) {maxSegments : Nat}
    (hmax : 1 ≤ maxSegments) {c : Contents Id Item Seg} (h : maxSegments < c.segments.length) :
    c.SmallestGroup st cfg maxSegments (c.smallestGroup st cfg maxSegments) := by
  obtain ⟨hpos, h2⟩ := smallestGroup_positions st cfg hmax h
  have hlen : (c.smallestGroup st cfg maxSegments).length =
      min (min (c.segments.length - maxSegments + 1) (max cfg.maxMerge 2)) c.segments.length := by
    rw [smallestGroup, List.length_take, (List.perm_insertionSort _ _).length_eq,
      List.length_range]
    omega
  refine ⟨h, hpos, h2, by omega, by omega, ?_⟩
  intro seg hseg seg' hseg'
  obtain ⟨i, hi, hget⟩ := mem_pick.mp hseg
  obtain ⟨j, hj, hget'⟩ := mem_dropIndices.mp hseg'
  have hsize : ∀ {i : Nat} {seg : Seg}, c.segments[i]? = some seg →
      (c.segments.map st.segmentLen)[i]?.getD 0 = st.segmentLen seg := by
    intro i seg hget
    rw [List.getElem?_map, hget]
    rfl
  rw [smallestGroup] at hi hj
  generalize min (min (c.segments.length - maxSegments + 1) (max cfg.maxMerge 2))
    c.segments.length = k at hi hj
  -- the group is the front of the sorted positions, and `j` is behind it
  let r : Nat → Nat → Prop := fun i j => (c.segments.map st.segmentLen)[i]?.getD 0 ≤
    (c.segments.map st.segmentLen)[j]?.getD 0
  have : Std.Total r := ⟨fun i j => Nat.le_total _ _⟩
  have : IsTrans Nat r := ⟨fun i j k => Nat.le_trans⟩
  have hsorted := List.pairwise_insertionSort r (List.range c.segments.length)
  have hmem : j ∈ (List.range c.segments.length).insertionSort r :=
    (List.mem_insertionSort r).mpr (List.mem_range.mpr (List.getElem?_eq_some_iff.mp hget').1)
  rw [← List.take_append_drop k ((List.range c.segments.length).insertionSort r)] at hsorted hmem
  have hle := (List.pairwise_append.mp hsorted).2.2 i hi j
    ((List.mem_append.mp hmem).resolve_left hj)
  rwa [← hsize hget, ← hsize hget']

variable {st} in
/-- The rounds of `force_merge_to` end at their target, or one below it when the
last of them has left nothing of its group. -/
theorem Rounds.target {cfg : TierConfig F} {maxSegments : Nat}
    (h : Rounds st (fun c g => c.SmallestGroup st cfg maxSegments g) c gs c')
    (hle : c'.segments.length ≤ maxSegments) (hmany : maxSegments < c.segments.length) :
    ∃ gs' d g, Rounds st (fun c g => c.SmallestGroup st cfg maxSegments g) c gs' d ∧
      d.SmallestGroup st cfg maxSegments g ∧ c' = d.merge st g ∧ gs.length = gs'.length + 1 ∧
      (c'.segments.length = maxSegments ∨ c'.segments.length + 1 = maxSegments ∧
        st.segmentLen (d.mergedSegment st g) = 0) := by
  have hne : gs ≠ [] := by
    rintro rfl
    cases h
    omega
  obtain ⟨gs', d, g, hbefore, hlast, rfl, hlen⟩ := h.last hne
  refine ⟨gs', d, g, hbefore, hlast, rfl, hlen, ?_⟩
  have hadd := merge_length_add st hlast.positions
  have hover := hlast.overshoot
  split at hadd
  · omega
  · omega

end Rounds

/-! ## Sizes -/

variable {c c' : Contents Id Item (List (Id × Item))} {cfg : TierConfig F} {g : List Nat}

/-- A merge does not add entries. -/
theorem length_mergedSegment_le (c : Contents Id Item (List (Id × Item))) (indices : List Nat) :
    (c.mergedSegment (defaultStore Id Item) indices).length ≤
      ((pick c.segments indices).map List.length).sum := by
  have hflat : ∀ (live : Id → Bool) (segs : List (List (Id × Item))),
      ((defaultStore Id Item).mergeSegments segs live).length ≤ (segs.map List.length).sum := by
    intro live segs
    refine (List.length_filter_le _ _).trans ?_
    rw [List.length_flatten]
  rw [mergedSegment]
  dsimp only
  split
  · refine (hflat _ _).trans ?_
    generalize pick c.segments indices = segs
    generalize pick c.segmentIds indices = group
    induction segs generalizing group with
    | nil => simp
    | cons seg segs ih =>
        cases group with
        | nil => simp
        | cons k group =>
            have hseg := hflat (copyIsLive c.tombstones c.superseded k) [seg]
            rw [List.map_singleton, List.sum_singleton] at hseg
            simp only [List.zip_cons_cons, List.map_cons, List.sum_cons]
            exact Nat.add_le_add hseg (ih group)
  · exact hflat _ _

/-- The later memory has no new segment of more than `cap` entries, and still has
every segment of more than `frozen`. -/
structure Within (frozen cap : Nat) (c c' : Contents Id Item (List (Id × Item))) : Prop where
  created : ∀ p ∈ c'.sealed, p ∈ c.sealed ∨ p.2.length ≤ cap
  kept : ∀ p ∈ c.sealed, frozen < p.2.length → p ∈ c'.sealed

omit [DecidableEq Id] in
theorem Within.of_sealed {frozen cap : Nat} (h : c'.sealed = c.sealed) :
    Within frozen cap c c' :=
  ⟨fun _ hp => .inl (h ▸ hp), fun _ hp _ => h ▸ hp⟩

omit [DecidableEq Id] in
theorem Within.trans {frozen cap : Nat} {c'' : Contents Id Item (List (Id × Item))}
    (h : Within frozen cap c c') (h' : Within frozen cap c' c'') : Within frozen cap c c'' where
  created := fun p hp => (h'.created p hp).elim (h.created p) .inr
  kept := fun p hp hlong => h'.kept p (h.kept p hp hlong) hlong

omit [DecidableEq Id] in
theorem Within.mono {frozen cap frozen' cap' : Nat} (h : Within frozen cap c c')
    (hfrozen : frozen ≤ frozen') (hcap : cap ≤ cap') : Within frozen' cap' c c' where
  created := fun p hp => (h.created p hp).imp_right fun hle => hle.trans hcap
  kept := fun p hp hlong => h.kept p hp (hfrozen.trans_lt hlong)

theorem Within.flushBuffer (hc : c.Shape) (frozen : Nat) {cap : Nat} (h : c.buffer.length ≤ cap) :
    Within frozen cap c (c.flushBuffer (defaultStore Id Item)) := by
  by_cases hne : c.buffer = []
  · rw [flushBuffer_of_empty c _ hne]
    exact .of_sealed rfl
  · have hsealed := flushBuffer_sealed (defaultStore Id Item) hc hne
    refine ⟨fun p hp => ?_, fun p hp _ => ?_⟩
    · rw [hsealed, List.mem_append, List.mem_singleton] at hp
      refine hp.imp_right ?_
      rintro rfl
      exact h
    · rw [hsealed]
      exact List.mem_append_left _ hp

theorem Within.apply (frozen cap : Nat) (op : Op Id Item) : Within frozen cap c (c.apply op) :=
  .of_sealed (apply_sealed c op)

/-- A replay seals under the threshold, however long it is. -/
theorem Within.replay (frozen : Nat) {cap flushThreshold : Nat} (hcap : max flushThreshold 1 ≤ cap)
    (ops : List (Op Id Item)) (hc : c.Shape) (hb : c.buffer.length < max flushThreshold 1) :
    Within frozen cap c (c.replay (defaultStore Id Item) flushThreshold ops) := by
  induction ops generalizing c with
  | nil => exact .of_sealed rfl
  | cons op ops ih =>
      have hle := apply_buffer_length_le c op
      have hstep : Within frozen cap (c.apply op)
          ((c.apply op).sealFull (defaultStore Id Item) flushThreshold) ∧
          ((c.apply op).sealFull (defaultStore Id Item) flushThreshold).buffer.length <
            max flushThreshold 1 := by
        rw [sealFull]
        split
        · refine ⟨.flushBuffer (hc.apply op) frozen (by omega), ?_⟩
          rw [flushBuffer_buffer, List.length_nil]
          omega
        · exact ⟨.of_sealed rfl, by omega⟩
      have hrest := ih ((hc.apply op).sealFull _ _) hstep.2
      exact ((Within.apply frozen cap op).trans hstep.1).trans hrest

/-- The result of a tier merge respects the cap. -/
theorem TierGroup.length_mergedSegment (h : c.TierGroup (defaultStore Id Item) cfg g) :
    (c.mergedSegment (defaultStore Id Item) g).length ≤ cfg.maxMergedLen :=
  (length_mergedSegment_le c g).trans h.total

/-- A tier merge spares the segments above half of the cap. -/
theorem TierGroup.within (hc : c.Shape) (h : c.TierGroup (defaultStore Id Item) cfg g) :
    Within (cfg.maxMergedLen / 2) cfg.maxMergedLen c (c.merge (defaultStore Id Item) g) where
  created := by
    intro p hp
    rw [merge_sealed _ hc, List.mem_append] at hp
    rcases hp with hp | hp
    · exact .inl ((dropIndices_sublist _ _).mem hp)
    · split at hp
      · rw [List.mem_singleton.mp hp]
        exact .inr h.length_mergedSegment
      · cases hp
  kept := by
    intro p hp hlong
    rw [merge_sealed _ hc, List.mem_append]
    refine .inl ((mem_pick_or_mem_dropIndices hp g).resolve_left fun hpick => ?_)
    rw [PubState.sealed, pick_zip _ _ _ hc.len] at hpick
    exact Nat.not_le_of_lt hlong (h.small p.2 (List.of_mem_zip hpick).2)

/-- So do all rounds of `compact_tiers`. -/
theorem Rounds.within {gs : List (List Nat)} (hc : c.Shape)
    (h : Rounds (defaultStore Id Item) (fun c g => c.TierGroup (defaultStore Id Item) cfg g)
      c gs c') : Within (cfg.maxMergedLen / 2) cfg.maxMergedLen c c' :=
  (h.induction (I := fun d => d.Shape ∧ Within (cfg.maxMergedLen / 2) cfg.maxMergedLen c d)
    (fun hd hg => ⟨hd.1.merge _ _, hd.2.trans (hg.within hd.1)⟩) ⟨hc, .of_sealed rfl⟩).2

end Contents

end Segstore
