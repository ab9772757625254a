import Mathlib.Tactic.NormNum
import Segstore.Memory.Buckets
import Segstore.System.LiveMap
import Segstore.Writer.Loops

/-!
# The number of segments of a writer that compacts by itself

A writer that has no tier to compact has few segments for each size between the
flush threshold and the cap.  `compact_tiers` leaves such a writer, and with
automatic compaction every write that succeeds does.
-/

namespace Segstore

variable {α β Id Item Seg F : Type} [DecidableEq Id] [F64 F] (st : Store Id Item Seg)

namespace SegmentedStore

/-- The writer compacts by itself, and there is nothing to compact. -/
structure Leveled (s : SegmentedStore Id Item Seg F) : Prop where
  auto : s.opts.autoCompact = true
  idle : s.hasEligibleTier st = false

omit [DecidableEq Id] in
theorem hasEligibleTier_eq_false_iff {s : SegmentedStore Id Item Seg F} :
    s.hasEligibleTier st = false ↔
      s.nextMergeGroup st s.opts.tiering s.opts.flushThreshold = none := by
  rw [hasEligibleTier, Option.isSome_eq_false_iff, Option.isNone_iff_eq_none]

omit [DecidableEq Id] in
/-- What is eligible depends on the segments only. -/
theorem hasEligibleTier_congr {s t : SegmentedStore Id Item Seg F} (hopts : t.opts = s.opts)
    (hsegments : t.segments = s.segments) : t.hasEligibleTier st = s.hasEligibleTier st := by
  rw [hasEligibleTier, hasEligibleTier, hopts, Contents.nextMergeGroup_congr st hsegments]

omit [DecidableEq Id] in
/-- One segment alone is no tier. -/
theorem hasEligibleTier_of_one {s : SegmentedStore Id Item Seg F}
    (h : s.segments.length ≤ 1) : s.hasEligibleTier st = false := by
  rw [hasEligibleTier_eq_false_iff, Contents.nextMergeGroup]
  refine if_pos ?_
  have hlen : (Contents.eligible s.opts.tiering s.opts.flushThreshold
      (s.segments.map st.segmentLen)).length ≤ 1 := by
    refine (List.length_filter_le _ _).trans ?_
    rw [List.length_map, List.length_zipIdx, List.length_map]
    exact h
  omega

/-! ## Compactions -/

/-- When `compact_tiers` returns, no tier is left to compact. -/
theorem compactTiers_levels (s : SegmentedStore Id Item Seg F) :
    Ends (compactTiers st) s (fun r t => ∀ stats, r = .ok stats →
      t.hasEligibleTier st = false ∧ t.opts = s.opts) := by
  refine (compactTiers_leaves st s).mono fun r t ht stats hr => ?_
  obtain ⟨hmem, -, hopts⟩ := ht stats hr
  obtain ⟨gs, hrounds, -⟩ := Contents.tierMerges_rounds st s.opts.tiering s.opts.flushThreshold
    (s.toContents.flushBuffer st).segments.length (s.toContents.flushBuffer st)
  obtain ⟨-, hsegments, -⟩ := Contents.compactedBy_rest (c := s.toContents)
    (fun c => c.tierMerges st s.opts.tiering s.opts.flushThreshold c.segments.length)
    (hrounds.buffer.trans (Contents.flushBuffer_buffer _ _))
  rw [← hmem] at hsegments
  refine ⟨(hasEligibleTier_eq_false_iff st).mpr ?_, hopts⟩
  rw [hopts, Contents.nextMergeGroup_congr st hsegments]
  exact Contents.tierMerges_done st (Nat.le_refl _)

omit [F64 F] in
/-- `compact` leaves one segment at most. -/
theorem compact_length (s : SegmentedStore Id Item Seg F) :
    Ends (compact st) s (fun r t => ∀ stats, r = .ok stats →
      t.segments.length ≤ 1 ∧ t.opts = s.opts) := by
  refine (compact_leaves st s).mono fun r t ht stats hr => ?_
  obtain ⟨hopts, hmem⟩ := ht stats hr
  have hbuffer := Contents.compacted_buffer st (Contents.flushBuffer_buffer s.toContents st)
  rw [Contents.flushBuffer_of_empty _ st hbuffer] at hmem
  refine ⟨?_, hopts⟩
  rw [hmem]
  exact Contents.length_compacted_le st (s.toContents.flushBuffer st)

/-! ## Writes -/

/-- From a leveled writer the call leaves one when it returns. -/
def Levels (p : StoreM Id Item Seg F α) : Prop :=
  ∀ s : SegmentedStore Id Item Seg F, s.Leveled st →
    Ends p s (fun r t => ∀ a, r = .ok a → t.Leveled st ∧ t.opts = s.opts)

variable {st}

omit [DecidableEq Id] in
theorem Levels.pure (a : α) : Levels st (Pure.pure a : StoreM Id Item Seg F α) :=
  fun _ hs _ _ => ⟨hs, rfl⟩

omit [DecidableEq Id] in
theorem Levels.bind {p : StoreM Id Item Seg F α} {f : α → StoreM Id Item Seg F β}
    (hp : Levels st p) (hf : ∀ a, Levels st (f a)) : Levels st (p >>= f) := by
  intro s hs
  refine Ends.bind (hp s hs) ?_ (fun _ _ _ _ h => by cases h) (fun _ _ _ h => by cases h)
  intro a t ht
  obtain ⟨hlevel, hopts⟩ := ht a rfl
  refine (hf a t hlevel).mono fun r u hu b hr => ?_
  exact ⟨(hu b hr).1, (hu b hr).2.trans hopts⟩

omit [DecidableEq Id] in
/-- A call that touches neither segments nor options. -/
theorem Levels.of_respects {p : StoreM Id Item Seg F α}
    (hp : Respects (fun s t => t.segments = s.segments ∧ t.opts = s.opts) p) :
    Levels st p := by
  refine fun s hs => (hp s).mono fun _ t ht _ _ => ⟨⟨?_, ?_⟩, ht.2⟩
  · rw [ht.2]
    exact hs.auto
  · rw [hasEligibleTier_congr st ht.2 ht.1]
    exact hs.idle

omit [DecidableEq Id] in
theorem syncWal_levels : Levels st (syncWal : StoreM Id Item Seg F Unit) :=
  .of_respects (onWal_respects fun _ _ _ => ⟨rfl, rfl⟩)

omit [DecidableEq Id] in
theorem appendWal_levels (op : Op Id Item) :
    Levels st (appendWal op : StoreM Id Item Seg F Unit) :=
  .of_respects (onWal_respects fun _ _ _ => ⟨rfl, rfl⟩)

omit [DecidableEq Id] in
theorem checkPoisoned_levels : Levels st (checkPoisoned : StoreM Id Item Seg F Unit) := by
  refine .of_respects fun s => ?_
  rw [checkPoisoned, Ends.read_bind_iff]
  split
  · exact ⟨rfl, rfl⟩
  · exact ⟨rfl, rfl⟩

theorem apply_levels (op : Op Id Item) :
    Levels st (onContents (F := F) fun c : Contents Id Item Seg => c.apply op) :=
  .of_respects fun s => ⟨Contents.apply_segments s.toContents op, rfl⟩

/-- A write that seals compacts when that is due, so nothing is left to compact. -/
theorem sealAndCompact_levels {beforeCompact : StoreM Id Item Seg F Unit}
    (hbefore : Respects KeepsOpts beforeCompact) :
    Levels st (sealAndCompact st beforeCompact) := by
  intro s hs
  rw [sealAndCompact, Ends.get_bind_iff]
  split
  · rw [onContents, Ends.update_bind_iff, Ends.get_bind_iff]
    split
    · refine Ends.bind (hbefore _) ?_ (fun _ _ _ _ h => by cases h) (fun _ _ _ h => by cases h)
      intro a t ht
      refine Ends.bind (compactTiers_levels st t) ?_ (fun _ _ _ _ h => by cases h)
        (fun _ _ _ h => by cases h)
      intro stats u hu b hb
      obtain ⟨hidle, hopts⟩ := hu stats rfl
      have hsame : u.opts = s.opts := hopts.trans ht
      exact ⟨⟨hsame ▸ hs.auto, hidle⟩, hsame⟩
    · rename_i hdue
      refine Ends.pure_iff.mpr fun _ _ => ⟨⟨hs.auto, ?_⟩, rfl⟩
      simpa [hs.auto] using hdue
  · exact Levels.pure () s hs

theorem extendItems_levels (items : List (Id × Item)) :
    Levels st (extendItems st items : StoreM Id Item Seg F Unit) := by
  induction items with
  | nil => exact .pure ()
  | cons e items ih =>
      refine .bind ?_ fun _ => ih
      exact .bind (appendWal_levels _) fun _ => .bind (apply_levels _) fun _ =>
        sealAndCompact_levels ((partwise_keepsOpts st).sync)

end SegmentedStore

open SegmentedStore

/-- The calls that keep a writer leveled: a checkpoint seals without compacting,
and the other two merge groups of their own. -/
def Cmd.Levels : Cmd Id Item F → Prop
  | .checkpoint => False
  | .forceMergeTo _ => False
  | .reclaimTombstones _ => False
  | _ => True

variable {st}

theorem exec_levels {cmd : Cmd Id Item F} (hcmd : cmd.Levels) :
    SegmentedStore.Levels st (cmd.exec st) := by
  cases cmd with
  | add id item =>
      exact .bind checkPoisoned_levels fun _ => .bind (appendWal_levels _) fun _ =>
        .bind syncWal_levels fun _ => .bind (apply_levels _) fun _ =>
          sealAndCompact_levels (.pure ())
  | extend items =>
      refine .bind checkPoisoned_levels fun _ => .bind (extendItems_levels items) fun _ => ?_
      split
      · exact .pure ()
      · exact syncWal_levels
  | delete id =>
      exact .bind checkPoisoned_levels fun _ => .bind (appendWal_levels _) fun _ =>
        .bind syncWal_levels fun _ => apply_levels _
  | compact =>
      refine .bind (fun s hs => ?_) fun _ => .pure ()
      refine (compact_length st s).mono fun r t ht stats hr => ?_
      obtain ⟨hone, hopts⟩ := ht stats hr
      exact ⟨⟨hopts ▸ hs.auto, hasEligibleTier_of_one st hone⟩, hopts⟩
  | compactTiers =>
      refine .bind (fun s hs => ?_) fun _ => .pure ()
      refine (compactTiers_levels st s).mono fun r t ht stats hr => ?_
      obtain ⟨hidle, hopts⟩ := ht stats hr
      exact ⟨⟨hopts ▸ hs.auto, hidle⟩, hopts⟩
  | checkpoint => exact hcmd.elim
  | forceMergeTo maxSegments => exact hcmd.elim
  | reclaimTombstones minLiveRatio => exact hcmd.elim

/-! ## The bound -/

variable (st)

/-- Calls one after the other, each of which returns, under any fates. -/
inductive Calls : SegmentedStore Id Item Seg F → List (Cmd Id Item F) →
    SegmentedStore Id Item Seg F → Prop
  | nil (s : SegmentedStore Id Item Seg F) : Calls s [] s
  | cons {s t u : SegmentedStore Id Item Seg F} {cmd : Cmd Id Item F}
      {cmds : List (Cmd Id Item F)} (fates : List (Call → Fate)) :
      cmd.exec st (Proc.armed s fates) = (.ok (), t) → Calls t cmds u → Calls s (cmd :: cmds) u

/-- Where bands separate by a factor, there are fewer segments than a merge takes
for each such factor between the flush threshold and the cap, and as many again as the
stored items fill at that part of the cap. -/
def SegmentedStore.FewSegments (s : SegmentedStore Id Item Seg F) : Prop :=
  ∀ (bd : Banding s.opts.tiering) (B : Nat),
    max s.opts.tiering.minMerge 2 ≤ s.opts.tiering.maxMerge →
    0 < s.opts.tiering.maxMergedLen → s.segments.length ≤ bd.count →
    max (s.opts.tiering.maxMergedLen / 2) (max s.opts.flushThreshold 1) ≤ bd.top →
    (bd.top : Rat) < (max s.opts.flushThreshold 1 : Nat) * bd.gap ^ B →
      s.segments.length ≤ (max s.opts.tiering.minMerge 2 - 1) * B +
        max s.opts.tiering.minMerge 2 * (s.segments.map st.segmentLen).sum /
          s.opts.tiering.maxMergedLen

variable {st}

omit [DecidableEq Id] in
theorem fewSegments_of_idle {s : SegmentedStore Id Item Seg F}
    (h : s.hasEligibleTier st = false) : s.FewSegments st := by
  intro bd B hmax hcap hcount htop hB
  exact Contents.length_segments_le st bd ((hasEligibleTier_eq_false_iff st).mp h) rfl hmax
    hcap hcount htop hB

/-- A leveled writer stays so from call to call. -/
theorem Calls.leveled {s t : SegmentedStore Id Item Seg F} {cmds : List (Cmd Id Item F)}
    (h : Calls st s cmds t) (hs : s.Leveled st) (hcmds : ∀ cmd ∈ cmds, cmd.Levels) :
    t.Leveled st := by
  induction h with
  | nil s => exact hs
  | @cons s t u cmd cmds fates hrun hrest ih =>
      obtain ⟨hcmd, hcmds⟩ := List.forall_mem_cons.mp hcmds
      have harmed : (Proc.armed s fates).Leveled st := ⟨hs.auto, hs.idle⟩
      exact ih ((exec_levels hcmd _ harmed).of_run hrun () rfl).1 hcmds

variable (st)

/-- For every consumer store, a writer on which `compact_tiers` has returned has few
segments.  A writer with automatic compaction that starts with one segment at
most, or with nothing to compact, has few segments after all successful adds,
extends, deletes and compactions. -/
theorem few_segments :
    (∀ (s t : SegmentedStore Id Item Seg F) (stats : CompactionStats),
      compactTiers st s = (.ok stats, t) → t.FewSegments st) ∧
    ∀ (s t : SegmentedStore Id Item Seg F) (cmds : List (Cmd Id Item F)),
      s.opts.autoCompact = true →
      (s.segments.length ≤ 1 ∨ s.hasEligibleTier st = false) →
      (∀ cmd ∈ cmds, cmd.Levels) → Calls st s cmds t → t.FewSegments st := by
  refine ⟨fun s t stats ht => ?_, fun s t cmds hauto hstart hcmds hcalls => ?_⟩
  · exact fewSegments_of_idle ((compactTiers_levels st s).of_run ht stats rfl).1
  · have hidle := hstart.elim (hasEligibleTier_of_one st) id
    exact fewSegments_of_idle (hcalls.leveled ⟨hauto, hidle⟩ hcmds).idle

/-- Nine adds that seal one segment each, merged four at a time up to eight items. -/
theorem few_segments_nine :
    ∃ s t : SegmentedStore Nat Nat (List (Nat × Nat)) Rat,
      (Proc.run (defaultStore Nat Nat) (.fresh false) [] [.reopen
        ⟨1, .flush, ⟨4, 32, 1 / 2, 3 / 2, 8⟩, true⟩ 0 []]).1 = .running s ∧
      Calls (defaultStore Nat Nat) s
        [.extend ((List.range 9).map fun i => (i, i))] t ∧
      t.FewSegments (defaultStore Nat Nat) ∧ t.segments.length ≤ 16 := by
  obtain ⟨s, hs, hok⟩ := Proc.holds_iff.mp
    (show (Proc.run (F := Rat) (defaultStore Nat Nat) (.fresh false) [] [.reopen
        ⟨1, .flush, ⟨4, 32, 1 / 2, 3 / 2, 8⟩, true⟩ 0 []]).1.holds (fun s =>
        let run := Cmd.exec (defaultStore Nat Nat)
          (.extend ((List.range 9).map fun i => (i, i))) (Proc.armed s [])
        decide (s.opts.autoCompact = true ∧ s.segments.length ≤ 1 ∧ run.1 = .ok () ∧
          run.2.opts.tiering.bucketLow = 1 / 2 ∧ run.2.opts.tiering.bucketHigh = 3 / 2 ∧
          run.2.opts.tiering.minMerge = 4 ∧ run.2.opts.tiering.maxMerge = 32 ∧
          run.2.opts.tiering.maxMergedLen = 8 ∧ run.2.opts.flushThreshold = 1 ∧
          (run.2.segments.map (defaultStore Nat Nat).segmentLen).sum = 9)) = true
      by decide +kernel)
  obtain ⟨hauto, hone, hrun, hlow, hhigh, hmin, hmax, hcap, hflush, hsum⟩ :=
    of_decide_eq_true hok
  obtain ⟨t, ht⟩ : ∃ t, Cmd.exec (defaultStore Nat Nat)
      (.extend ((List.range 9).map fun i => (i, i))) (Proc.armed s []) = (.ok (), t) :=
    ⟨_, Prod.ext hrun rfl⟩
  rw [ht] at hlow hhigh hmin hmax hcap hflush hsum
  have hcalls := Calls.cons [] ht (.nil t)
  have hfew := (few_segments (defaultStore Nat Nat)).2 s t _ hauto (.inl hone)
    (by simp [Cmd.Levels]) hcalls
  refine ⟨s, t, hs, hcalls, hfew, ?_⟩
  have hbound := hfew (.exact _ t.segments.length 4 (by rw [hlow]; norm_num)
    (by rw [hlow]; norm_num) (by rw [hhigh]; norm_num)) 4 (by rw [hmin, hmax]; decide)
    (by rw [hcap]; decide) (Nat.le_refl _) (by rw [hcap, hflush]; exact Nat.le_refl 4) (by
      rw [hflush]
      show ((4 : Nat) : Rat) < _ * t.opts.tiering.bucketHigh ^ 4
      rw [hhigh]
      norm_num)
  rw [hmin, hcap, hsum] at hbound
  exact hbound

end Segstore
