import Segstore.Memory.Amplification
import Segstore.System.LiveMap
import Segstore.Writer.Reports

/-!
# How often tiering rewrites an item

Size-tiered compaction merges segments of about the same size, so each merge makes
them larger by a factor.  Over any sequence of calls that return, the items that tier
merges write are bounded by what came in times a logarithm of it.  Full and forced
compactions, deletes and reclaims may come between, they are not counted and do not
add to the bound.
-/

namespace Segstore

variable {Id Item Seg F : Type} [DecidableEq Id] [F64 F] (st : Store Id Item Seg)

/-! ## What a call writes and brings in -/

namespace Cmd

/-- The items that tier merges write during a call. -/
def rewrites (opts : Options F) (c : Contents Id Item Seg) : Cmd Id Item F → Nat
  | .add id item => written st ((c.apply (.add id item)).sealDeeds st opts)
  | .extend items => written st (c.extendDeeds st opts items)
  | .compactTiers => written st ((c.flushBuffer st).tiersDeeds st opts)
  | _ => 0

/-- The items that tier merges wrote, according to the statistics of a call. -/
def itemsTiered (reports : List CompactionStats) : Cmd Id Item F → Nat
  | .add _ _ => (reports.map CompactionStats.itemsMerged).sum
  | .extend _ => (reports.map CompactionStats.itemsMerged).sum
  | .compactTiers => (reports.map CompactionStats.itemsMerged).sum
  | _ => 0

/-- What a call may bring in: its items, or a segment sealed from a short buffer. -/
def charge (floor : Nat) : Cmd Id Item F → Nat
  | .add _ _ => 1
  | .extend items => items.length
  | .delete _ => 0
  | _ => floor

end Cmd

namespace SegmentedStore

/-- What the writer holds and what the calls bring in. -/
def budget (s : SegmentedStore Id Item Seg F) (cmds : List (Cmd Id Item F)) : Nat :=
  s.toContents.holdings st (max s.opts.flushThreshold 1) +
    (cmds.map (Cmd.charge (max s.opts.flushThreshold 1))).sum

end SegmentedStore

/-- Calls one after the other, each of which returns, under any fates, and the
items that tier merges write meanwhile, as the calls count them. -/
inductive Rewrites : SegmentedStore Id Item Seg F → List (Cmd Id Item F) → Nat →
    SegmentedStore Id Item Seg F → Prop
  | nil (s : SegmentedStore Id Item Seg F) : Rewrites s [] 0 s
  | cons {s t u : SegmentedStore Id Item Seg F} {cmd : Cmd Id Item F}
      {cmds : List (Cmd Id Item F)} {reports : List CompactionStats} {work : Nat}
      (fates : List (Call → Fate)) :
      cmd.reports st (Proc.armed s fates) = (.ok reports, t) → Rewrites t cmds work u →
        Rewrites s (cmd :: cmds) (cmd.itemsTiered reports + work) u

variable {st}

/-- What the calls count is what the merges write. -/
theorem Totals.itemsTiered_eq {cmd : Cmd Id Item F} {opts : Options F} {c : Contents Id Item Seg}
    {reports : List CompactionStats} (h : Totals st (cmd.deeds st opts c) reports) :
    cmd.itemsTiered reports = cmd.rewrites st opts c := by
  cases cmd with
  | add id item => exact h.items.trans (written_write _ _ _)
  | extend items => exact h.items
  | compactTiers => exact h.items
  | delete id => rfl
  | checkpoint => rfl
  | compact => rfl
  | forceMergeTo maxSegments => rfl
  | reclaimTombstones minLiveRatio => rfl

/-! ## One call -/

/-- There is room for a budget of `M`: the bands separate for as many segments, and
the potential reaches as far. -/
structure Room (opts : Options F) (bd : Banding opts.tiering) (limit : ℝ) (M : Nat) : Prop where
  count : M ≤ bd.count
  top : max (opts.tiering.maxMergedLen / 2) (max opts.flushThreshold 1) ≤ bd.top
  floor : Real.log (max opts.flushThreshold 1 : Nat) ≤ limit
  total : ∀ b : Nat, b ≤ M → Real.log b + 1 ≤ limit

namespace Contents

variable {opts : Options F} {bd : Banding opts.tiering} {limit : ℝ} {M b w : Nat}
variable {c : Contents Id Item Seg}

omit [F64 F] in
theorem one_le_floor (opts : Options F) : 1 ≤ max opts.flushThreshold 1 :=
  le_max_right _ _

/-- A round of `compact_tiers`. -/
theorem Accounted.tierRound (hst : st.Sized) (hroom : Room opts bd limit M) (hb : b ≤ M)
    (h : Accounted st limit (bd.factor : ℝ) (max opts.flushThreshold 1) b w c)
    {group : List Nat}
    (hgroup : c.nextMergeGroup st opts.tiering opts.flushThreshold = some group) :
    Accounted st limit (bd.factor : ℝ) (max opts.flushThreshold 1) b
      (w + st.segmentLen (c.mergedSegment st group)) (c.merge st group) := by
  obtain ⟨hpos, htwo⟩ := nextMergeGroup_positions st hgroup
  have hfew : c.segments.length ≤ bd.count :=
    (h.length_le (one_le_floor opts)).trans (hb.trans hroom.count)
  have hshare := nextMergeGroup_share st bd hgroup hfew hroom.top
  refine h.mergeShares hst (one_le_floor opts) (hroom.total b hb)
    (by exact_mod_cast one_le_factor bd) hpos
    (List.ne_nil_of_length_pos (Nat.lt_of_lt_of_le Nat.zero_lt_two htwo)) fun x hx => ?_
  obtain ⟨seg, hseg, rfl⟩ := List.mem_map.mp hx
  rw [sum_weights]
  exact_mod_cast hshare _ (List.mem_map_of_mem hseg)

/-- The rounds of `compact_tiers`. -/
theorem Accounted.tierMerges (hst : st.Sized) (hroom : Room opts bd limit M) (hb : b ≤ M)
    (fuel : Nat) (h : Accounted st limit (bd.factor : ℝ) (max opts.flushThreshold 1) b w c) :
    Accounted st limit (bd.factor : ℝ) (max opts.flushThreshold 1) b
      (w + written st (c.tierDeeds st opts.tiering opts.flushThreshold fuel))
      (c.tierMerges st opts.tiering opts.flushThreshold fuel).1 := by
  induction fuel generalizing c w with
  | zero => exact h
  | succ fuel ih =>
      rw [Contents.tierMerges, tierDeeds]
      cases hgroup : c.nextMergeGroup st opts.tiering opts.flushThreshold with
      | none => exact h
      | some group =>
          have hrest := ih (h.tierRound hst hroom hb hgroup)
          rwa [Nat.add_assoc, ← written_merge] at hrest

omit [F64 F] in
/-- The commit of a partial compaction keeps the account. -/
theorem Accounted.compactedBy {g : ℝ} {floor : Nat}
    {merges : Contents Id Item Seg → Contents Id Item Seg × Nat}
    (h : Accounted st limit g floor b w (merges (c.flushBuffer st)).1)
    (hbuffer : (merges (c.flushBuffer st)).1.buffer = []) :
    Accounted st limit g floor b w (c.compactedBy st merges) := by
  obtain ⟨hnone, hsegments, -⟩ := compactedBy_rest merges hbuffer
  exact h.congr hsegments (hnone.trans hbuffer.symm)

omit [F64 F] in
theorem mergesBy_buffer (next : Contents Id Item Seg → Option (List Nat)) (fuel : Nat)
    (c : Contents Id Item Seg) : (c.mergesBy st next fuel).1.buffer = c.buffer :=
  let ⟨_, hrounds, _⟩ := mergesBy_rounds st next fuel c
  hrounds.buffer

theorem Accounted.compactedTiers (hst : st.Sized) (hroom : Room opts bd limit M) (hb : b ≤ M)
    (h : Accounted st limit (bd.factor : ℝ) (max opts.flushThreshold 1) b w (c.flushBuffer st)) :
    Accounted st limit (bd.factor : ℝ) (max opts.flushThreshold 1) b
      (w + written st ((c.flushBuffer st).tiersDeeds st opts))
      (c.compactedBy st fun c =>
        c.tierMerges st opts.tiering opts.flushThreshold c.segments.length) := by
  refine Accounted.compactedBy (h.tierMerges hst hroom hb _) ?_
  rw [tierMerges_eq, mergesBy_buffer, flushBuffer_buffer]

omit [F64 F] in
theorem Accounted.compactedWhole {g : ℝ} {floor : Nat} (hst : st.Sized) (hfloor : 1 ≤ floor)
    (hlimit : Real.log b + 1 ≤ limit)
    (h : Accounted st limit g floor b w (c.flushBuffer st)) :
    Accounted st limit g floor b w (c.compactedWhole st) := by
  have hbuffer := compacted_buffer st (flushBuffer_buffer c st)
  rw [Contents.compactedWhole, flushBuffer_of_empty _ st hbuffer]
  exact (h.compacted hst hfloor hlimit).congr rfl rfl

/-- `reclaim_tombstones` merges distinct segments. -/
theorem reclaimTargets_within {minLiveRatio : F} {targets : List Nat}
    (h : c.reclaimTargets st minLiveRatio c.sealed.zipIdx = some targets) :
    Positions c.segments.length targets := by
  have hsub := reclaimTargets_sublist st h
  rw [List.zipIdx_map_snd, ← List.range_eq_range'] at hsub
  have hlen : c.sealed.length ≤ c.segments.length := by
    rw [PubState.sealed, List.length_zip]
    exact Nat.min_le_right _ _
  exact ⟨List.nodup_range.sublist hsub,
    fun i hi => (List.mem_range.mp (hsub.mem hi)).trans_le hlen⟩

/-- The end of a write: the seal of a full buffer brings nothing in. -/
theorem Accounted.sealCompacted (hst : st.Sized) (hroom : Room opts bd limit M) (hb : b ≤ M)
    (h : Accounted st limit (bd.factor : ℝ) (max opts.flushThreshold 1) b w c) :
    Accounted st limit (bd.factor : ℝ) (max opts.flushThreshold 1) b
      (w + written st (c.sealDeeds st opts)) (c.sealCompacted st opts) := by
  rw [Contents.sealCompacted, sealDeeds]
  split
  · rename_i hfull
    have hsealed : Accounted st limit (bd.factor : ℝ) (max opts.flushThreshold 1) (b + 0) w
        (c.flushBuffer st) := by
      refine h.flushBuffer hst (one_le_floor opts) hroom.floor (hroom.total b hb) fun hne => ?_
      exact max_le hfull (List.length_pos_of_ne_nil hne)
    dsimp only
    split
    · refine Accounted.compactedTiers hst hroom hb ?_
      rw [flushBuffer_flushBuffer]
      exact hsealed
    · exact hsealed
  · exact h

/-- One written item. -/
theorem Accounted.written (hst : st.Sized) (hroom : Room opts bd limit M) (hb : b + 1 ≤ M)
    (h : Accounted st limit (bd.factor : ℝ) (max opts.flushThreshold 1) b w c) (id : Id)
    (item : Item) :
    Accounted st limit (bd.factor : ℝ) (max opts.flushThreshold 1) (b + 1)
      (w + Segstore.written st ((c.apply (.add id item)).sealDeeds st opts))
      ((c.apply (.add id item)).sealCompacted st opts) :=
  (h.accept hroom.floor (apply_segments c _) (apply_buffer_length_le c _)).sealCompacted
    hst hroom hb

theorem Accounted.extended (hst : st.Sized) (hroom : Room opts bd limit M)
    (items : List (Id × Item)) (hb : b + items.length ≤ M)
    (h : Accounted st limit (bd.factor : ℝ) (max opts.flushThreshold 1) b w c) :
    Accounted st limit (bd.factor : ℝ) (max opts.flushThreshold 1) (b + items.length)
      (w + Segstore.written st (c.extendDeeds st opts items))
      (items.foldl (fun c e => (c.apply (.add e.1 e.2)).sealCompacted st opts) c) := by
  induction items generalizing c b w with
  | nil => exact h
  | cons e items ih =>
      rw [List.length_cons] at hb ⊢
      have hrest := ih (by omega) (h.written hst hroom (by omega) e.1 e.2)
      rw [extendDeeds, written_write, written_append, List.foldl_cons]
      rwa [Nat.add_assoc b, Nat.add_comm 1, Nat.add_assoc w] at hrest

/-- A call that returns keeps the account. -/
theorem Accounted.exec (hst : st.Sized) (hroom : Room opts bd limit M) (cmd : Cmd Id Item F)
    (hb : b + cmd.charge (max opts.flushThreshold 1) ≤ M)
    (h : Accounted st limit (bd.factor : ℝ) (max opts.flushThreshold 1) b w c) :
    Accounted st limit (bd.factor : ℝ) (max opts.flushThreshold 1)
      (b + cmd.charge (max opts.flushThreshold 1)) (w + cmd.rewrites st opts c)
      (c.exec st opts cmd) := by
  have hfloor := one_le_floor opts
  -- a compaction seals the buffer first
  have hsealed : b + max opts.flushThreshold 1 ≤ M → Accounted st limit (bd.factor : ℝ)
      (max opts.flushThreshold 1) (b + max opts.flushThreshold 1) w (c.flushBuffer st) :=
    fun hle => h.flushBuffer hst hfloor hroom.floor (hroom.total _ hle)
      fun _ => Nat.le_add_left _ _
  cases cmd with
  | add id item => exact h.written hst hroom hb id item
  | extend items => exact h.extended hst hroom items hb
  | delete id =>
      exact h.accept hroom.floor (apply_segments c _) (apply_delete_buffer_length_le c id)
  | checkpoint => exact (hsealed hb).congr rfl rfl
  | compact => exact Accounted.compactedWhole hst hfloor (hroom.total _ hb) (hsealed hb)
  | compactTiers => exact Accounted.compactedTiers hst hroom hb (hsealed hb)
  | forceMergeTo maxSegments =>
      rw [Contents.exec]
      split
      · exact Accounted.compactedWhole hst hfloor (hroom.total _ hb) (hsealed hb)
      · rename_i hmax
        refine Accounted.compactedBy ?_ ?_
        · rw [forceMerges_eq]
          exact (hsealed hb).mergesBy hst hfloor (hroom.total _ hb)
            (picks_overshootGroup st _ (by omega)) _
        · rw [forceMerges_eq, mergesBy_buffer, flushBuffer_buffer]
  | reclaimTombstones minLiveRatio =>
      rw [Contents.exec]
      refine Accounted.compactedBy ?_ ?_
      · rw [reclaimMerge]
        split
        · exact hsealed hb
        · exact hsealed hb
        · rename_i target targets htargets
          exact (hsealed hb).merge hst hfloor (hroom.total _ hb)
            (reclaimTargets_within htargets) (List.cons_ne_nil _ _)
      · rw [reclaimMerge]
        split
        · exact flushBuffer_buffer c st
        · exact flushBuffer_buffer c st
        · exact (merge_buffer st _).trans (flushBuffer_buffer c st)

end Contents

/-! ## Sequences of calls -/

/-- Calls that return keep the account. -/
theorem Rewrites.accounted (hst : st.Sized) {opts : Options F} {bd : Banding opts.tiering}
    {limit : ℝ} {M : Nat} (hroom : Room opts bd limit M) {s t : SegmentedStore Id Item Seg F}
    {cmds : List (Cmd Id Item F)} {work : Nat} (h : Rewrites st s cmds work t)
    (hopts : s.opts = opts) {b w : Nat}
    (hb : b + (cmds.map (Cmd.charge (max opts.flushThreshold 1))).sum ≤ M)
    (hs : s.toContents.Accounted st limit (bd.factor : ℝ) (max opts.flushThreshold 1) b w) :
    t.toContents.Accounted st limit (bd.factor : ℝ) (max opts.flushThreshold 1)
      (b + (cmds.map (Cmd.charge (max opts.flushThreshold 1))).sum) (w + work) := by
  induction h generalizing b w with
  | nil s => exact hs
  | @cons s t u cmd cmds reports work fates hrun hrest ih =>
      obtain ⟨hmem, hopts'⟩ := (exec_becomes st cmd (Proc.armed s fates)).of_run
        (Cmd.exec_of_reports st hrun) () rfl
      replace hmem : t.toContents = s.toContents.exec st opts cmd := by
        rw [hmem, ← hopts]
        rfl
      rw [List.map_cons, List.sum_cons, ← Nat.add_assoc] at hb ⊢
      have hcall := hs.exec hst hroom cmd (by omega)
      have hcount : cmd.itemsTiered reports = cmd.rewrites st opts s.toContents :=
        hopts ▸ ((reports_counts cmd (Proc.armed s fates)).of_run hrun reports rfl).itemsTiered_eq
      rw [← hmem] at hcall
      rw [hcount, ← Nat.add_assoc]
      exact ih (hopts'.trans hopts) hb hcall

/-- The potential that reaches as far as a budget. -/
theorem room_of_budget {opts : Options F} {bd : Banding opts.tiering} {M : Nat}
    (hcount : M ≤ bd.count)
    (htop : max (opts.tiering.maxMergedLen / 2) (max opts.flushThreshold 1) ≤ bd.top) :
    Room opts bd (Real.log (max M (max opts.flushThreshold 1) : Nat) + 1) M where
  count := hcount
  top := htop
  floor := by
    have hpos : 0 < max opts.flushThreshold 1 := Contents.one_le_floor opts
    have hlog := Real.log_le_log (Nat.cast_pos (α := ℝ).mpr hpos)
      (Nat.cast_le.mpr (le_max_right M _))
    linarith
  total := by
    intro b hb
    have hle : Real.log b ≤ Real.log (max M (max opts.flushThreshold 1) : Nat) := by
      rcases Nat.eq_zero_or_pos b with rfl | hpos
      · rw [Nat.cast_zero, Real.log_zero]
        exact Real.log_natCast_nonneg _
      · exact Real.log_le_log (Nat.cast_pos.mpr hpos)
          (Nat.cast_le.mpr (hb.trans (le_max_left _ _)))
    linarith

theorem one_lt_factor {cfg : TierConfig F} (bd : Banding cfg) : 1 < bd.factor := by
  have htwo : ((2 : Nat) : Rat) ≤ (max cfg.minMerge 2 : Nat) :=
    Nat.cast_le.mpr (le_max_right _ _)
  rw [Nat.cast_ofNat] at htwo
  exact lt_add_of_pos_right 1 (div_pos (by linarith) (Contents.width_pos bd))

open SegmentedStore

/-- For every consumer store whose segments hold no more items than went into them: a
call returns exactly when it does so with the statistics of its compactions, which count
the items of the segments that its tier merges write; and over calls that return these
are no more than what came in times a logarithm of it. -/
theorem write_amplification (hst : st.Sized) :
    (∀ (cmd : Cmd Id Item F) (s t : SegmentedStore Id Item Seg F),
      (cmd.exec st s = (.ok (), t) ↔ ∃ reports, cmd.reports st s = (.ok reports, t)) ∧
      ∀ reports, cmd.reports st s = (.ok reports, t) →
        cmd.itemsTiered reports = cmd.rewrites st s.opts s.toContents) ∧
    ∀ (s t : SegmentedStore Id Item Seg F) (cmds : List (Cmd Id Item F)) (work : Nat),
      Rewrites st s cmds work t → ∀ bd : Banding s.opts.tiering,
      s.budget st cmds ≤ bd.count →
      max (s.opts.tiering.maxMergedLen / 2) (max s.opts.flushThreshold 1) ≤ bd.top →
        0 < Real.log bd.factor ∧
        work * Real.log bd.factor ≤ s.budget st cmds *
          (1 + Real.log ((max (s.budget st cmds) (max s.opts.flushThreshold 1) : Nat) /
            (max s.opts.flushThreshold 1 : Nat))) := by
  constructor
  · intro cmd s t
    refine ⟨⟨Cmd.reports_of_exec st, fun ⟨reports, h⟩ => Cmd.exec_of_reports st h⟩, ?_⟩
    exact fun reports h => ((reports_counts cmd s).of_run h reports rfl).itemsTiered_eq
  · intro s t cmds work hcalls bd hcount htop
    have hroom : Room s.opts bd _ _ := room_of_budget hcount htop
    have hfloor : 1 ≤ max s.opts.flushThreshold 1 := Contents.one_le_floor s.opts
    have hend := hcalls.accounted hst hroom rfl (le_refl _) (.start hfloor _)
    rw [Nat.zero_add] at hend
    have hbound := Account.bound (Nat.cast_pos.mpr hfloor) hend (hroom.total _ (le_refl _))
      hroom.floor
    have hf : ((max s.opts.flushThreshold 1 : Nat) : ℝ) ≠ 0 :=
      Nat.cast_ne_zero.mpr (Nat.pos_iff_ne_zero.mp hfloor)
    have hM : ((max (s.budget st cmds) (max s.opts.flushThreshold 1) : Nat) : ℝ) ≠ 0 :=
      Nat.cast_ne_zero.mpr (Nat.pos_iff_ne_zero.mp (hfloor.trans (le_max_right _ _)))
    refine ⟨Real.log_pos (by exact_mod_cast one_lt_factor bd), ?_⟩
    rw [Real.log_div hM hf]
    refine hbound.trans (le_of_eq ?_)
    rw [budget]
    ring

/-- One `extend` that seals sixteen segments of one item, has them merged four at a time
and the results once more. -/
theorem write_amplification_sixteen :
    ∃ (s t : SegmentedStore Nat Nat (List (Nat × Nat)) Rat) (reports : List CompactionStats)
      (bd : Banding s.opts.tiering),
      Cmd.reports (defaultStore Nat Nat) (.extend ((List.range 16).map fun i => (i, i)))
        (Proc.armed s []) = (.ok reports, t) ∧
      reports.map CompactionStats.itemsMerged = [4, 4, 4, 20] ∧
      Rewrites (defaultStore Nat Nat) s [.extend ((List.range 16).map fun i => (i, i))] 32 t ∧
      0 < Real.log bd.factor ∧
      (32 : Nat) * Real.log bd.factor ≤
        (16 : Nat) * (1 + Real.log ((16 : Nat) / (1 : Nat))) := by
  obtain ⟨s, -, hok⟩ := Proc.holds_iff.mp
    (show (Proc.run (F := Rat) (defaultStore Nat Nat) (.fresh false) [] [.reopen
        ⟨1, .flush, ⟨4, 4, 1 / 2, 3 / 2, 100⟩, true⟩ 0 []]).1.holds (fun s =>
        let call : Cmd Nat Nat Rat := .extend ((List.range 16).map fun i => (i, i))
        decide ((call.reports (defaultStore Nat Nat) (Proc.armed s [])).1 =
            .ok [⟨1, 4, 1, 4⟩, ⟨1, 5, 2, 4⟩, ⟨1, 6, 3, 4⟩, ⟨2, 7, 1, 20⟩] ∧
          s.budget (defaultStore Nat Nat) [call] = 16 ∧
          s.opts.tiering.bucketLow = 1 / 2 ∧ s.opts.tiering.bucketHigh = 3 / 2 ∧
          s.opts.tiering.maxMergedLen = 100 ∧ s.opts.flushThreshold = 1)) = true
      by decide +kernel)
  obtain ⟨hrun, hbudget, hlow, hhigh, hcap, hflush⟩ := of_decide_eq_true hok
  obtain ⟨t, ht⟩ : ∃ t, Cmd.reports (defaultStore Nat Nat)
      (.extend ((List.range 16).map fun i => (i, i))) (Proc.armed s []) =
        (.ok [⟨1, 4, 1, 4⟩, ⟨1, 5, 2, 4⟩, ⟨1, 6, 3, 4⟩, ⟨2, 7, 1, 20⟩], t) :=
    ⟨_, Prod.ext hrun rfl⟩
  have hcalls := Rewrites.cons [] ht (.nil t)
  have hspent := (write_amplification (F := Rat) (defaultStore_sized Nat Nat)).2 s t _ 32 hcalls
    (.exact _ 16 50 (by rw [hlow]; norm_num) (by rw [hlow]; norm_num) (by rw [hhigh]; norm_num))
    hbudget.le (by rw [hcap, hflush]; exact Nat.le_refl 50)
  rw [hbudget, hflush] at hspent
  exact ⟨s, t, _, _, ht, rfl, hcalls, hspent⟩

end Segstore
