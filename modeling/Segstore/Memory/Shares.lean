import Mathlib.Algebra.BigOperators.Ring.Finset
import Segstore.Memory.Buckets

/-!
# The share of a segment in a merge

A segment joins a bucket below the upper edge of its band, so it is not much larger than
the average of the smaller ones.  In a group of so many segments each is a fixed
share of all at most.
-/

namespace Segstore

variable {Id Item Seg F : Type} [F64 F] {cfg : TierConfig F}

/-- How far a member may exceed the average of those before it. -/
def Banding.width (bd : Banding cfg) : Rat := (1 + bd.ε) * bd.up bd.count * bd.high

/-- By how much a merged segment is larger than each of the group. -/
def Banding.factor (bd : Banding cfg) : Rat :=
  1 + (((max cfg.minMerge 2 : Nat) : Rat) - 1) / bd.width

namespace Contents

variable {floor : Nat} (bd : Banding cfg)

theorem width_pos : 0 < bd.width :=
  mul_pos (mul_pos bd.one_add_pos (bd.up_pos _)) (zero_lt_one.trans_le (one_le_high bd))

theorem one_le_factor : 1 ≤ bd.factor := by
  have htwo : ((2 : Nat) : Rat) ≤ (max cfg.minMerge 2 : Nat) :=
    Nat.cast_le.mpr (le_max_right _ _)
  rw [Nat.cast_ofNat] at htwo
  exact le_add_of_nonneg_right (div_nonneg (by linarith) (width_pos bd).le)

/-- The floored sizes of members. -/
def sizes (floor : Nat) (ms : List (Nat × Nat)) : List Rat :=
  ms.map fun m => ((floored floor m : Nat) : Rat)

theorem sizes_concat (ms : List (Nat × Nat)) (m : Nat × Nat) :
    sizes floor (ms ++ [m]) = sizes floor ms ++ [((floored floor m : Nat) : Rat)] :=
  List.map_append

theorem length_sizes (ms : List (Nat × Nat)) : (sizes floor ms).length = ms.length :=
  List.length_map _

theorem sum_sizes_nonneg (ms : List (Nat × Nat)) : 0 ≤ (sizes floor ms).sum := by
  refine List.sum_nonneg fun x hx => ?_
  obtain ⟨m, -, rfl⟩ := List.mem_map.mp hx
  exact Nat.cast_nonneg _

/-- The average exceeds that of the members by rounding only, and no member exceeds
the average of those before it by more than the width. -/
structure Means (floor : Nat) (avg : F) (ms : List (Nat × Nat)) : Prop
    extends Averages bd floor avg ms where
  mean : ∀ v, bd.val avg = some v → v * ms.length ≤ bd.up ms.length * (sizes floor ms).sum
  sorted : (sizes floor ms).Pairwise (· ≤ ·)
  balanced : Balanced bd.width (sizes floor ms)

variable {bd}

theorem Means.start (hfloor : 1 ≤ floor) {m : Nat × Nat} (hcount : 0 < bd.count)
    (hm : floored floor m ≤ bd.top) :
    Means bd floor ((bucketRule cfg floor).start m) [m] where
  toAverages := .start hfloor hcount hm
  mean := by
    intro v hv
    have hstart : bd.val ((bucketRule cfg floor).start m) = some (floored floor m : Nat) :=
      bd.ofUsize (le_big bd hcount hm)
    obtain rfl : v = (floored floor m : Nat) := Option.some_inj.mp (hv.symm.trans hstart)
    rw [List.length_singleton, Nat.cast_one, mul_one]
    simpa [sizes] using le_mul_of_one_le_left (Nat.cast_nonneg _) (bd.one_le_up 1)
  sorted := List.pairwise_singleton _ _
  balanced := by
    intro before x after heq hne
    obtain ⟨y, before, rfl⟩ := List.exists_cons_of_ne_nil hne
    simp [sizes] at heq

/-- A member that a bucket takes keeps it balanced. -/
theorem Means.grow (hfloor : 1 ≤ floor) {avg : F} {ms : List (Nat × Nat)} {m : Nat × Nat}
    (h : Means bd floor avg ms) (hm : floored floor m ≤ bd.top)
    (hasc : ∀ m' ∈ ms, ((floored floor m' : Nat) : Rat) ≤ (floored floor m : Nat))
    (htakes : (bucketRule cfg floor).takes avg m = true) (hlt : ms.length < bd.count) :
    Means bd floor ((bucketRule cfg floor).grow avg ms.length m) (ms ++ [m]) where
  toAverages := h.toAverages.grow hfloor hm hasc hlt
  mean := by
    intro z hz
    obtain ⟨v, hv, -⟩ := h.value
    obtain ⟨z', hz', -, -, hmean⟩ := h.toAverages.next hfloor hm hasc hlt hv
    obtain rfl : z = z' := Option.some_inj.mp (hz.symm.trans hz')
    have hsum : v * ms.length + (floored floor m : Nat) ≤
        bd.up ms.length * ((sizes floor ms).sum + (floored floor m : Nat)) := by
      have hle := le_mul_of_one_le_left
        (Nat.cast_nonneg (α := Rat) (floored floor m)) (bd.one_le_up ms.length)
      rw [mul_add]
      linarith [h.mean v hv]
    rw [sizes_concat, List.sum_append, List.sum_singleton, List.length_append,
      List.length_singleton, Nat.cast_add, Nat.cast_one]
    calc z * (ms.length + 1)
        ≤ (1 + bd.ε) ^ 3 * (v * ms.length + (floored floor m : Nat)) := hmean
      _ ≤ (1 + bd.ε) ^ 3 *
          (bd.up ms.length * ((sizes floor ms).sum + (floored floor m : Nat))) :=
          mul_le_mul_of_nonneg_left hsum (pow_pos bd.one_add_pos 3).le
      _ = bd.up (ms.length + 1) * ((sizes floor ms).sum + (floored floor m : Nat)) := by
          rw [Rounded.up, Rounded.up, pow_succ' _ ms.length, mul_assoc]
  sorted := by
    rw [sizes_concat, List.pairwise_append]
    refine ⟨h.sorted, List.pairwise_singleton _ _, fun x hx y hy => ?_⟩
    obtain ⟨m', hm', rfl⟩ := List.mem_map.mp hx
    rw [List.mem_singleton.mp hy]
    exact hasc m' hm'
  balanced := by
    obtain ⟨v, hv, -, hvhi⟩ := h.range hfloor
    obtain ⟨z, hz, -, hzhi⟩ := h.edge hfloor hv
    have hsize := bd.ofUsize (le_big bd (Nat.zero_lt_of_lt hlt) hm)
    have hbelow : ((floored floor m : Nat) : Rat) < z := by
      have hright := (Bool.and_eq_true_iff.mp htakes).2
      rw [bd.lt hsize hz] at hright
      exact of_decide_eq_true hright
    have hfactor : 0 ≤ (1 + bd.ε) * bd.high :=
      mul_nonneg bd.one_add_pos.le (zero_le_one.trans (one_le_high bd))
    have hlen : (0 : Rat) ≤ ms.length := Nat.cast_nonneg _
    rw [sizes_concat]
    refine h.balanced.concat ?_
    rw [length_sizes]
    calc ((floored floor m : Nat) : Rat) * ms.length
        ≤ (1 + bd.ε) * (v * bd.high) * ms.length :=
          mul_le_mul_of_nonneg_right (hbelow.le.trans hzhi) hlen
      _ = (1 + bd.ε) * bd.high * (v * ms.length) := by ring
      _ ≤ (1 + bd.ε) * bd.high * (bd.up ms.length * (sizes floor ms).sum) :=
          mul_le_mul_of_nonneg_left (h.mean v hv) hfactor
      _ ≤ (1 + bd.ε) * bd.high * (bd.up bd.count * (sizes floor ms).sum) :=
          mul_le_mul_of_nonneg_left
            (mul_le_mul_of_nonneg_right (bd.up_mono hlt.le) (sum_sizes_nonneg ms)) hfactor
      _ = bd.width * (sizes floor ms).sum := by
          rw [Banding.width]
          ring

/-- The buckets of `next_merge_group` are balanced. -/
theorem bucketRule_balances (hfloor : 1 ≤ floor) :
    (bucketRule cfg floor).Grades (fun m => ((floored floor m : Nat) : Rat)) bd.gap
      (fun m => floored floor m ≤ bd.top) bd.count (Means bd floor) where
  start := fun hN hm => .start hfloor hN hm
  grow := fun h hm hasc htakes hlt => h.grow hfloor hm hasc htakes hlt
  refuse := fun h hm hasc hno => h.toAverages.refuse hfloor hm hasc hno

/-! ## The chosen group -/

variable [DecidableEq Id] (st : Store Id Item Seg) {c : Contents Id Item Seg} {g : List Nat}
variable {flushThreshold : Nat}

/-- The floored size of a segment. -/
def weight (floor : Nat) (seg : Seg) : Nat := max (st.segmentLen seg) floor

omit [DecidableEq Id] in
/-- The chosen segments have the sizes of the smallest members of a bucket. -/
theorem nextMergeGroup_chosen (h : c.nextMergeGroup st cfg flushThreshold = some g) :
    ∃ avg ms chosen, (avg, ms) ∈ tierBuckets cfg
        (eligible cfg flushThreshold (c.segments.map st.segmentLen)) ∧
      chosen <+: ms.insertionSort (fun a b => a.1 ≤ b.1) ∧
      max cfg.minMerge 2 ≤ chosen.length ∧
      (pick c.segments g).map st.segmentLen = chosen.map Prod.fst := by
  rw [nextMergeGroup] at h
  split at h
  · cases h
  obtain ⟨hlen, ⟨avg, ms⟩, hb, rfl⟩ := firstEligible_spec cfg h
  obtain ⟨chosen, hchosen, heq, -⟩ :=
    chooseFrom_spec cfg (ms.insertionSort (fun a b => a.1 ≤ b.1)) [] 0
  rw [List.nil_append] at heq
  rw [heq, List.length_map] at hlen
  refine ⟨avg, ms, chosen, hb, hchosen, hlen, ?_⟩
  have hmembers := members_tierBuckets cfg
    (eligible cfg flushThreshold (c.segments.map st.segmentLen))
  have hsize : ∀ m ∈ chosen, (c.segments.map st.segmentLen)[m.2]? = some m.1 := by
    intro m hm
    have hmem : m ∈ ms := (List.perm_insertionSort _ ms).mem_iff.mp (hchosen.subset hm)
    obtain ⟨e, he, rfl⟩ := List.mem_map.mp
      (hmembers.mem_iff.mp (List.mem_flatMap.mpr ⟨(avg, ms), hb, hmem⟩))
    exact (mem_eligible cfg he).1
  dsimp only
  rw [heq, ← pick_map, pick, List.filterMap_map]
  refine (List.filterMap_congr fun m hm => hsize m hm).trans ?_
  exact congrFun List.filterMap_eq_map chosen

omit [DecidableEq Id] in
/-- No segment of a chosen group is more than a fixed share of all. -/
theorem nextMergeGroup_share (bd : Banding cfg)
    (h : c.nextMergeGroup st cfg flushThreshold = some g)
    (hcount : c.segments.length ≤ bd.count)
    (htop : max (cfg.maxMergedLen / 2) (max flushThreshold 1) ≤ bd.top) :
    ∀ x ∈ (pick c.segments g).map (weight st (max flushThreshold 1)),
      bd.factor * (x : Nat) ≤
        (((pick c.segments g).map (weight st (max flushThreshold 1))).sum : Nat) := by
  obtain ⟨avg, ms, chosen, hb, hchosen, hlen, hpick⟩ := nextMergeGroup_chosen st h
  rw [eligible_eq] at hb
  have hfloor : 1 ≤ max flushThreshold 1 := le_max_right _ _
  generalize max flushThreshold 1 = floor at *
  have hfew : (unfrozen cfg (c.segments.map st.segmentLen)).length ≤ bd.count := by
    refine (length_unfrozen_le cfg _).trans ?_
    rwa [List.length_map]
  obtain ⟨bs, hperm, hgraded⟩ := tierBuckets_graded bd (bucketRule_balances hfloor) hfew
    fun e he => floored_unfrozen_le he htop
  have hmeans := hgraded.sound _ (hperm.mem_iff.mp hb)
  -- by raw size the members of the bucket come in the same order
  have hperm' := List.perm_insertionSort (fun a b : Nat × Nat => a.1 ≤ b.1) ms
  have : Std.Total (fun a b : Nat × Nat => a.1 ≤ b.1) := ⟨fun _ _ => Nat.le_total _ _⟩
  have : IsTrans (Nat × Nat) (fun a b => a.1 ≤ b.1) := ⟨fun _ _ _ => Nat.le_trans⟩
  have hraw : (sizes floor (ms.insertionSort (fun a b => a.1 ≤ b.1))).Pairwise (· ≤ ·) := by
    refine List.pairwise_map.mpr ((List.pairwise_insertionSort _ ms).imp fun hab => ?_)
    exact floored_le (max_le_max_right floor hab)
  have hsame : sizes floor (ms.insertionSort (fun a b => a.1 ≤ b.1)) = sizes floor ms :=
    (hperm'.map _).eq_of_pairwise' hraw hmeans.sorted
  have hprefix : sizes floor chosen <+: sizes floor ms := hsame ▸ hchosen.map _
  have hweights : (pick c.segments g).map (weight st floor) = chosen.map (floored floor) := by
    have hfloored : (pick c.segments g).map (weight st floor) =
        ((pick c.segments g).map st.segmentLen).map fun n => max n floor := by
      rw [List.map_map]
      rfl
    rw [hfloored, hpick, List.map_map]
    rfl
  have hcast : ((chosen.map (floored floor)).map fun n : Nat => (n : Rat)) =
      sizes floor chosen := by
    rw [List.map_map]
    rfl
  intro x hx
  rw [hweights] at hx ⊢
  rw [Nat.cast_list_sum, hcast]
  refine (hmeans.balanced.of_prefix hprefix).share (hmeans.sorted.sublist hprefix.sublist)
    (width_pos bd) ?_ (Nat.cast_nonneg _) ?_
  · rw [← hcast]
    exact List.mem_map_of_mem hx
  · rwa [length_sizes]

end Contents

end Segstore
