import Segstore.Writer.Returned

/-!
# The compactions inside a call

`add` and `extend` drop the statistics of the compactions they make.
`Cmd.reports` makes a call and returns the statistics of all its compactions, in
order.  Dropping them gives the call back, and together they count the merges
among its deeds.
-/

namespace Segstore

variable {α Id Item Seg F : Type} [DecidableEq Id] [F64 F] (st : Store Id Item Seg)

/-! ## Calls with their statistics -/

namespace SegmentedStore

/-- `sealAndCompact`, with the statistics of its compaction, if it makes one. -/
def sealReports (beforeCompact : StoreM Id Item Seg F Unit) :
    StoreM Id Item Seg F (List CompactionStats) := do
  let s ← Eff.get
  if s.opts.flushThreshold ≤ s.buffer.length then
    onContents (Contents.flushBuffer st)
    let s ← Eff.get
    if s.opts.autoCompact && s.hasEligibleTier st then
      beforeCompact
      let stats ← compactTiers st
      pure [stats]
    else
      pure []
  else
    pure []

/-- The loop of `extend`, with the statistics of its compactions. -/
def extendReports : List (Id × Item) → StoreM Id Item Seg F (List CompactionStats)
  | [] => pure []
  | (id, item) :: rest => do
      appendWal (.add id item)
      onContents (fun c => c.apply (.add id item))
      let now ← sealReports st syncWal
      let later ← extendReports rest
      pure (now ++ later)

end SegmentedStore

open SegmentedStore

/-- A call that returns the statistics of every compaction in it. -/
def Cmd.reports : Cmd Id Item F → StoreM Id Item Seg F (List CompactionStats)
  | .add id item => do
      checkPoisoned
      appendWal (.add id item)
      syncWal
      onContents (fun c => c.apply (.add id item))
      sealReports st (pure ())
  | .extend items => do
      checkPoisoned
      let reports ← extendReports st items
      (if items.isEmpty then pure () else syncWal : StoreM Id Item Seg F Unit)
      pure reports
  | .delete id => do
      SegmentedStore.delete id
      pure []
  | .checkpoint => do
      SegmentedStore.checkpoint st
      pure []
  | .compact => List.singleton <$> SegmentedStore.compact st
  | .compactTiers => List.singleton <$> SegmentedStore.compactTiers st
  | .forceMergeTo maxSegments => List.singleton <$> SegmentedStore.forceMergeTo st maxSegments
  | .reclaimTombstones minLiveRatio =>
      List.singleton <$> SegmentedStore.reclaimTombstones st minLiveRatio

/-! ## Dropping the statistics -/

theorem sealAndCompact_eq_reports (beforeCompact : StoreM Id Item Seg F Unit) :
    sealAndCompact st beforeCompact = (do let _ ← sealReports st beforeCompact; pure ()) := by
  simp only [sealAndCompact, sealReports, bind_assoc]
  refine bind_congr fun s => ?_
  split
  · simp only [bind_assoc]
    refine bind_congr fun _ => bind_congr fun t => ?_
    split
    · simp only [bind_assoc, pure_bind]
    · simp only [pure_bind]
  · simp only [pure_bind]

theorem extendItems_eq_reports (items : List (Id × Item)) :
    (extendItems st items : StoreM Id Item Seg F Unit) =
      (do let _ ← extendReports st items; pure ()) := by
  induction items with
  | nil => simp only [extendItems, extendReports, pure_bind]
  | cons e items ih =>
      simp only [extendItems, extendItem, extendReports, sealAndCompact_eq_reports, ih, bind_assoc,
        pure_bind]

/-- The statistics are all that a call has in addition. -/
theorem Cmd.exec_eq_reports (cmd : Cmd Id Item F) :
    cmd.exec st = (do let _ ← cmd.reports st; pure ()) := by
  cases cmd with
  | add id item =>
      simp only [exec, reports, SegmentedStore.add, sealAndCompact_eq_reports, bind_assoc]
  | extend items =>
      simp only [exec, reports, SegmentedStore.extend, extendItems_eq_reports, bind_assoc,
        pure_bind]
      exact bind_congr fun _ => bind_congr fun _ => bind_pure_unit.symm
  | delete id => simp only [exec, reports, bind_assoc, pure_bind, bind_pure_unit]
  | checkpoint => simp only [exec, reports, bind_assoc, pure_bind, bind_pure_unit]
  | compact => simp only [exec, reports, map_eq_pure_bind, bind_assoc, pure_bind]
  | compactTiers => simp only [exec, reports, map_eq_pure_bind, bind_assoc, pure_bind]
  | forceMergeTo maxSegments => simp only [exec, reports, map_eq_pure_bind, bind_assoc, pure_bind]
  | reclaimTombstones minLiveRatio =>
      simp only [exec, reports, map_eq_pure_bind, bind_assoc, pure_bind]

/-- A call that returns has statistics. -/
theorem Cmd.reports_of_exec {cmd : Cmd Id Item F} {s t : SegmentedStore Id Item Seg F}
    (h : cmd.exec st s = (.ok (), t)) : ∃ reports, cmd.reports st s = (.ok reports, t) :=
  Eff.drop_eq_ok.mp (Cmd.exec_eq_reports st cmd ▸ h)

theorem Cmd.exec_of_reports {cmd : Cmd Id Item F} {s t : SegmentedStore Id Item Seg F}
    {reports : List CompactionStats} (h : cmd.reports st s = (.ok reports, t)) :
    cmd.exec st s = (.ok (), t) := by
  rw [Cmd.exec_eq_reports]
  exact Eff.drop_eq_ok.mpr ⟨reports, h⟩

/-! ## What the statistics add up to -/

/-- The statistics count the merges among the deeds, and the items these write. -/
structure Totals (deeds : List (Deed Id Item Seg)) (reports : List CompactionStats) : Prop where
  merges : (reports.map CompactionStats.merges).sum = deeds.countP Deed.isMerge
  items : (reports.map CompactionStats.itemsMerged).sum = written st deeds

variable {st}

omit [F64 F] in
theorem written_append (deeds deeds' : List (Deed Id Item Seg)) :
    written st (deeds ++ deeds') = written st deeds + written st deeds' := by
  rw [written, List.map_append, List.sum_append]
  rfl

omit [F64 F] in
theorem written_write (c : Contents Id Item Seg) (op : Op Id Item)
    (deeds : List (Deed Id Item Seg)) : written st (.write c op :: deeds) = written st deeds := by
  rw [written, List.map_cons, List.sum_cons, Nat.zero_add]
  rfl

omit [F64 F] in
theorem written_merge (c : Contents Id Item Seg) (indices : List Nat)
    (deeds : List (Deed Id Item Seg)) : written st (.merge c indices :: deeds) =
      st.segmentLen (c.mergedSegment st indices) + written st deeds := by
  rw [written, List.map_cons, List.sum_cons]
  rfl

namespace Totals

variable {deeds deeds' : List (Deed Id Item Seg)} {reports reports' : List CompactionStats}

theorem nil : Totals st ([] : List (Deed Id Item Seg)) [] := ⟨rfl, rfl⟩

theorem write (h : Totals st deeds reports) (c : Contents Id Item Seg) (op : Op Id Item) :
    Totals st (.write c op :: deeds) reports :=
  ⟨h.merges.trans (List.countP_cons_of_neg (by simp [Deed.isMerge])).symm,
    h.items.trans (written_write c op deeds).symm⟩

theorem append (h : Totals st deeds reports) (h' : Totals st deeds' reports') :
    Totals st (deeds ++ deeds') (reports ++ reports') where
  merges := by rw [List.map_append, List.sum_append, h.merges, h'.merges, List.countP_append]
  items := by rw [List.map_append, List.sum_append, h.items, h'.items, written_append]

/-- One compaction. -/
theorem singleton (hmerges : ∀ d ∈ deeds, d.isMerge = true) (c c' : Contents Id Item Seg) :
    Totals st deeds [reportOf st deeds c c'] where
  merges := (List.sum_singleton).trans (List.countP_eq_length.mpr hmerges).symm
  items := List.sum_singleton

end Totals

namespace SegmentedStore

/-- When the call returns, its statistics count the merges among these deeds. -/
def Counts (st : Store Id Item Seg)
    (deeds : Options F → Contents Id Item Seg → List (Deed Id Item Seg))
    (p : StoreM Id Item Seg F (List CompactionStats)) : Prop :=
  ∀ s, Ends p s (fun r _ => ∀ reports, r = .ok reports →
    Totals st (deeds s.opts s.toContents) reports)

omit [DecidableEq Id] [F64 F] in
/-- What a call does is not changed by dropping what it returns. -/
theorem Becomes.of_dropped {f : Options F → Contents Id Item Seg → Contents Id Item Seg}
    {p : StoreM Id Item Seg F α} (h : Becomes f (p >>= fun _ => Pure.pure ())) :
    Becomes f p := by
  intro s a ha
  have hend := h s
  rw [Ends, Eff.bind_of_ok (Prod.ext ha rfl)] at hend
  exact hend () rfl

namespace Counts

variable {deeds : Options F → Contents Id Item Seg → List (Deed Id Item Seg)}
variable {f : Options F → Contents Id Item Seg → Contents Id Item Seg}

omit [F64 F] in
/-- After a part that makes no merges. -/
theorem after {q : StoreM Id Item Seg F α} {p : α → StoreM Id Item Seg F (List CompactionStats)}
    (hq : Becomes f q) (hp : ∀ a, Counts st deeds (p a)) :
    Counts st (fun opts c => deeds opts (f opts c)) (q >>= p) := by
  intro s
  refine Ends.bind (hq s) ?_ (fun _ _ _ _ h => by cases h) (fun _ _ _ h => by cases h)
  intro a t ht
  obtain ⟨hmem, hopts⟩ := ht a rfl
  refine (hp a t).mono fun r u hu reports hr => ?_
  have htotals := hu reports hr
  rwa [hmem, hopts] at htotals

omit [F64 F] in
theorem of_reports {p : StoreM Id Item Seg F CompactionStats} (hp : Reports st deeds p)
    (hmerges : ∀ opts c, ∀ d ∈ deeds opts c, d.isMerge = true) :
    Counts st deeds (List.singleton <$> p) := by
  intro s
  rw [map_eq_pure_bind]
  refine Ends.bind (hp s) ?_ (fun _ _ _ _ h => by cases h) (fun _ _ _ h => by cases h)
  intro stats t ht
  rw [Ends.pure_iff]
  rintro _ ⟨⟩
  rw [ht stats rfl]
  exact .singleton (hmerges _ _) _ _

omit [F64 F] in
theorem none (p : StoreM Id Item Seg F Unit) :
    Counts st (fun _ _ => []) (do p; pure []) := by
  intro s
  refine Ends.bind (R := fun _ _ => True) trivial (fun _ _ _ => ?_) (fun _ _ _ _ h => by cases h)
    (fun _ _ _ h => by cases h)
  rw [Ends.pure_iff]
  rintro _ ⟨⟩
  exact .nil

end Counts

theorem sealReports_counts {beforeCompact : StoreM Id Item Seg F Unit}
    (hbefore : Becomes (fun _ c => c) beforeCompact) :
    Counts st (fun opts c => c.sealDeeds st opts) (sealReports st beforeCompact) := by
  intro s
  have hcompacts := Counts.after hbefore fun _ =>
    Counts.of_reports (compactTiers_reports (F := F) st) fun opts c => Contents.isMerge_tiersDeeds
  dsimp only
  rw [sealReports, Ends.get_bind_iff, Contents.sealDeeds]
  split
  · rw [onContents, Ends.update_bind_iff, Ends.get_bind_iff]
    dsimp only
    split
    · rename_i hnow
      rw [if_pos (show (s.toContents.flushBuffer st).compactsNow st s.opts = true from hnow)]
      have hend := hcompacts { s with toContents := s.toContents.flushBuffer st }
      rwa [map_eq_pure_bind] at hend
    · rename_i hnow
      rw [if_neg (show ¬ (s.toContents.flushBuffer st).compactsNow st s.opts = true from hnow),
        Ends.pure_iff]
      rintro _ ⟨⟩
      exact .nil
  · rw [Ends.pure_iff]
    rintro _ ⟨⟩
    exact .nil

theorem extendReports_counts (items : List (Id × Item)) :
    Counts st (fun opts c => c.extendDeeds st opts items)
      (extendReports st items : StoreM Id Item Seg F (List CompactionStats)) := by
  induction items with
  | nil =>
      intro s
      rw [extendReports, Ends.pure_iff]
      rintro _ ⟨⟩
      exact .nil
  | cons e items ih =>
      have hseals : Becomes (fun opts c => c.sealCompacted st opts)
          (sealReports (F := F) st syncWal) := by
        have hdropped := sealAndCompact_becomes (F := F) st (syncWal_becomes)
        rw [sealAndCompact_eq_reports] at hdropped
        exact Becomes.of_dropped hdropped
      have hrest : Counts st (fun opts c => c.sealDeeds st opts ++
          (c.sealCompacted st opts).extendDeeds st opts items)
          (do
            let now ← sealReports st syncWal
            let later ← extendReports st items
            pure (now ++ later) : StoreM Id Item Seg F (List CompactionStats)) := by
        intro s
        refine Ends.bind ((sealReports_counts syncWal_becomes s).and (hseals s)) ?_
          (fun _ _ _ _ h => by cases h) (fun _ _ _ h => by cases h)
        rintro now t ⟨hnow, ht⟩
        obtain ⟨hmem, hopts⟩ := ht now rfl
        refine Ends.bind (ih t) ?_ (fun _ _ _ _ h => by cases h) (fun _ _ _ h => by cases h)
        intro later u hlater
        rw [Ends.pure_iff]
        rintro _ ⟨⟩
        have htotals := (hnow now rfl).append (hlater later rfl)
        rwa [hmem, hopts] at htotals
      have hitem := Counts.after (appendWal_becomes (F := F) (Op.add e.1 e.2)) fun _ =>
        Counts.after (Becomes.contents fun c => c.apply (.add e.1 e.2)) fun _ => hrest
      exact fun s => (hitem s).mono fun r t h reports hr => (h reports hr).write _ _

end SegmentedStore

/-- The statistics of a call that returns count its merges and what these write. -/
theorem reports_counts (cmd : Cmd Id Item F) :
    Counts st (fun opts c => cmd.deeds st opts c) (cmd.reports st) := by
  cases cmd with
  | add id item =>
      have hseal : Counts st (fun opts c => c.sealDeeds st opts)
          (sealReports (F := F) st (pure ())) := sealReports_counts (.pure ())
      have hseals := Counts.after (checkPoisoned_becomes (F := F)) fun _ =>
        Counts.after (appendWal_becomes (Op.add id item)) fun _ =>
          Counts.after syncWal_becomes fun _ =>
            Counts.after (Becomes.contents (fun c => c.apply (.add id item))) fun _ => hseal
      exact fun s => (hseals s).mono fun r t h reports hr => (h reports hr).write _ _
  | extend items =>
      refine Counts.after checkPoisoned_becomes fun _ => fun s => ?_
      refine Ends.bind (extendReports_counts items s) ?_ (fun _ _ _ _ h => by cases h)
        (fun _ _ _ h => by cases h)
      intro reports t ht
      refine Ends.bind (p := if items.isEmpty then pure () else syncWal) (R := fun _ _ => True)
        trivial (fun _ _ _ => ?_) (fun _ _ _ _ h => by cases h) (fun _ _ _ h => by cases h)
      rw [Ends.pure_iff]
      rintro _ ⟨⟩
      exact ht reports rfl
  | delete id =>
      exact fun s => (Counts.none _ s).mono fun r t h reports hr => (h reports hr).write _ _
  | checkpoint => exact .none _
  | compact => exact .of_reports (compact_reports st) fun _ _ => Contents.isMerge_fullDeeds
  | compactTiers =>
      exact .of_reports (compactTiers_reports st) fun _ _ => Contents.isMerge_tiersDeeds
  | forceMergeTo maxSegments =>
      refine .of_reports (forceMergeTo_reports st maxSegments) fun opts c => ?_
      dsimp only [Cmd.deeds]
      split
      · exact Contents.isMerge_fullDeeds
      · rw [Contents.forceDeeds_eq]
        exact Contents.isMerge_deedsBy
  | reclaimTombstones minLiveRatio =>
      exact .of_reports (reclaimTombstones_reports st minLiveRatio) fun _ _ =>
        Contents.isMerge_reclaimDeeds

omit [DecidableEq Id] [F64 F] in
/-- The call always checkpoints, or its statistics say that it merged. -/
def Cmd.Checkpointed (cmd : Cmd Id Item F) (reports : List CompactionStats) : Prop :=
  cmd.checkpoints = true ∨ ∃ stats ∈ reports, 0 < stats.merges

theorem Totals.checkpointed_iff {cmd : Cmd Id Item F} {opts : Options F} {c : Contents Id Item Seg}
    {reports : List CompactionStats} (h : Totals st (cmd.deeds st opts c) reports) :
    cmd.Checkpointed reports ↔ cmd.Commits st opts c := by
  rw [Cmd.Checkpointed, Cmd.Commits, ← h.merges, List.sum_pos_iff_exists_pos_nat]
  simp only [List.mem_map, exists_exists_and_eq_and]

end Segstore
