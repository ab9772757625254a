import Segstore.Memory.Groups
import Segstore.System.LiveMap
import Segstore.Writer.Memory

/-!
# A merge that is refused

When the merged segment cannot be written, `merge_group` changes nothing.  A
compaction that merges in a loop has by then replaced the segments of its
earlier groups, so it leaves the segments as they were exactly when it is the
first merge that is refused.
-/

namespace Segstore

variable {Id Item Seg F : Type} [DecidableEq Id] (st : Store Id Item Seg)

/-! ## The merges of a call -/

/-- What a compaction does before its checkpoint. -/
def Cmd.merging [F64 F] : Cmd Id Item F → StoreM Id Item Seg F Unit
  | .compact => do
      let _ ← SegmentedStore.compactMerging st
      pure ()
  | .compactTiers => do
      let _ ← SegmentedStore.tierMerging st
      pure ()
  | .forceMergeTo maxSegments =>
      if maxSegments ≤ 1 then do
        let _ ← SegmentedStore.compactMerging st
        pure ()
      else do
        let _ ← SegmentedStore.forceMerging st maxSegments
        pure ()
  | .reclaimTombstones minLiveRatio => do
      let _ ← SegmentedStore.reclaimMerging st minLiveRatio
      pure ()
  | _ => pure ()

/-- The group that `compact` merges, if it merges. -/
def Contents.fullGroup (c : Contents Id Item Seg) : Option (List Nat) :=
  if c.needsCompact then some (List.range c.segments.length) else none

/-- The group that a compaction merges first, if it merges. -/
def Cmd.firstGroup [F64 F] (opts : Options F) (c : Contents Id Item Seg) :
    Cmd Id Item F → Option (List Nat)
  | .compact => c.fullGroup
  | .compactTiers => c.nextMergeGroup st opts.tiering opts.flushThreshold
  | .forceMergeTo maxSegments =>
      if maxSegments ≤ 1 then
        c.fullGroup
      else if maxSegments < c.segments.length then
        some (c.smallestGroup st opts.tiering maxSegments)
      else
        none
  | .reclaimTombstones minLiveRatio =>
      match c.reclaimTargets st minLiveRatio c.sealed.zipIdx with
      | some (target :: targets) => some (target :: targets)
      | _ => none
  | _ => none

omit [DecidableEq Id] in
/-- The first part of a sequence fails within any longer one. -/
theorem merging_err {α β : Type} {p : StoreM Id Item Seg F α} {f : α → StoreM Id Item Seg F β}
    {s t : SegmentedStore Id Item Seg F} {e : PersistenceError}
    (h : (p >>= fun _ => (pure () : StoreM Id Item Seg F Unit)) s = (.err e, t)) :
    (p >>= f) s = (.err e, t) := by
  rcases Eff.bind_eq_err.mp h with h | ⟨a, u, -, h⟩
  · exact Eff.bind_eq_err.mpr (.inl h)
  · cases h

variable [F64 F]

/-- A call whose merges fail returns their error. -/
theorem Cmd.exec_of_merging {cmd : Cmd Id Item F} {s t : SegmentedStore Id Item Seg F}
    {e : PersistenceError} (h : cmd.merging st s = (.err e, t)) : cmd.exec st s = (.err e, t) := by
  cases cmd with
  | add id item => cases h
  | extend items => cases h
  | delete id => cases h
  | checkpoint => cases h
  | compact => exact Eff.bind_eq_err.mpr (.inl (merging_err h))
  | compactTiers => exact Eff.bind_eq_err.mpr (.inl (merging_err h))
  | forceMergeTo maxSegments =>
      rw [merging] at h
      rw [exec, SegmentedStore.forceMergeTo]
      split at h
      · rename_i hmax
        rw [if_pos hmax]
        exact Eff.bind_eq_err.mpr (.inl (merging_err h))
      · rename_i hmax
        rw [if_neg hmax]
        exact Eff.bind_eq_err.mpr (.inl (merging_err h))
  | reclaimTombstones minLiveRatio => exact Eff.bind_eq_err.mpr (.inl (merging_err h))

/-! ## The merge that is refused -/

/-- The merge of the group cannot be written: there is something to write, and the
environment refuses it. -/
def Refuses (s : SegmentedStore Id Item Seg F) (group : List Nat) : Prop :=
  0 < st.segmentLen (s.mergedSegment st group) ∧
    ∃ e landed, s.dir.nextFate .write = .failed e landed

/-- The segments and everything known of their copies are the same. -/
structure SameSegments (s t : SegmentedStore Id Item Seg F) : Prop where
  segmentIds : t.segmentIds = s.segmentIds
  segments : t.segments = s.segments
  tombstones : t.tombstones = s.tombstones
  superseded : t.superseded = s.superseded
  liveSegmentOf : ∀ id, t.liveSegmentOf id = s.liveSegmentOf id

/-- What a compaction leaves that was refused a merge, at its first group or later. -/
def LeftBy (s : SegmentedStore Id Item Seg F) (group : List Nat)
    (t : SegmentedStore Id Item Seg F) : Prop :=
  Refuses st s group ∧ t.toContents = s.allocId ∨
    ¬ Refuses st s group ∧ t.segments.length < s.segments.length

section Left

variable {st} {s t : SegmentedStore Id Item Seg F} {group : List Nat}

omit [F64 F] in
theorem LeftBy.le (h : LeftBy st s group t) : t.segments.length ≤ s.segments.length := by
  rcases h with ⟨-, hmem⟩ | ⟨-, hlt⟩
  · rw [hmem]
    exact Nat.le_refl _
  · exact Nat.le_of_lt hlt

omit [F64 F] in
/-- The segments are as before if it was the first merge that was refused. -/
theorem LeftBy.same_iff (h : LeftBy st s group t) : SameSegments s t ↔ Refuses st s group := by
  rcases h with ⟨hrefused, hmem⟩ | ⟨hdone, hlt⟩
  · refine iff_of_true ?_ hrefused
    constructor <;> rw [hmem]
    · rfl
    · rfl
    · rfl
    · rfl
    · exact fun _ => rfl
  · refine iff_of_false (fun hsame => ?_) hdone
    rw [hsame.segments] at hlt
    exact Nat.lt_irrefl _ hlt

end Left

namespace SegmentedStore

/-- A write ends as the environment has decided. -/
def EndsAsFated (s : SegmentedStore Id Item Seg F) (r : Outcome PersistenceError Unit) : Prop :=
  (∀ e, r = .err e → ∃ e landed, s.dir.nextFate .write = .failed e landed) ∧
    (r = .ok () → s.dir.nextFate .write = .done)

omit [DecidableEq Id] [F64 F] in
theorem EndsAsFated.err {s : SegmentedStore Id Item Seg F} {e : PersistenceError}
    (h : EndsAsFated s (.err e)) (e' : PersistenceError) : EndsAsFated s (.err e') :=
  ⟨fun _ _ => h.1 e rfl, by simp⟩

omit [DecidableEq Id] [F64 F] in
theorem persistSegment_fate (id : Nat) (seg : Seg) (s : SegmentedStore Id Item Seg F) :
    Ends (persistSegment id seg) s (fun r _ => EndsAsFated s r) := by
  have hwrite : Ends (onDir (Directory.writeCheckpoint (segPath id) 0 (.segment seg))) s
      (fun r _ => EndsAsFated s r) := by
    unfold EndsAsFated Ends onDir Eff.zoom Directory.writeCheckpoint Directory.atomicWrite
      Directory.perform
    cases s.dir.nextFate .write with
    | done => simp
    | failed e landed => simp
    | stopped landed => simp
  refine Ends.bind (R := fun r _ => EndsAsFated s r) ?_ ?_ (fun _ _ h => h) fun _ h => h
  · exact Ends.mapErr hwrite (fun _ _ h => h) (fun _ _ h => h.err _) fun _ h => h
  · exact fun _ _ h => Ends.update_iff.mpr h

omit [F64 F] in
/-- `merge_group` fails exactly when its write is refused, and has then used up an
id. -/
theorem mergeGroup_refused (group : List Nat) (s : SegmentedStore Id Item Seg F) :
    Ends (mergeGroup st group) s (fun r t =>
      (∀ e, r = .err e → Refuses st s group ∧ t.toContents = s.allocId) ∧
        (∀ n, r = .ok n → ¬ Refuses st s group ∧ t.toContents = s.merge st group)) := by
  have hfate : Ends (mergeGroup st group) s (fun r _ =>
      (∀ e, r = .err e → Refuses st s group) ∧ (∀ n, r = .ok n → ¬ Refuses st s group)) := by
    rw [mergeGroup, Ends.get_bind_iff]
    refine Ends.bind (R := fun r _ => (∀ e, r = .err e → Refuses st s group) ∧
      (r = .ok () → ¬ Refuses st s group)) ?_ ?_ ?_ ?_
    · rw [replaceGroup, Ends.get_bind_iff]
      split
      · rename_i hlen
        rw [onContents, Ends.update_bind_iff]
        refine Ends.bind (persistSegment_fate _ _ _) ?_ ?_ ?_
        · rintro ⟨⟩ t ⟨-, hdone⟩
          refine Ends.update_iff.mpr ⟨by simp, ?_⟩
          rintro - ⟨-, e, landed, hfailed⟩
          cases (hdone rfl).symm.trans hfailed
        · exact fun e t h => ⟨fun _ _ => ⟨hlen, h.1 e rfl⟩, by simp⟩
        · exact fun t h => ⟨by simp, by simp⟩
      · rename_i hlen
        exact Ends.update_iff.mpr ⟨by simp, fun _ hrefused => hlen hrefused.1⟩
    · exact fun _ t h => Ends.pure_iff.mpr ⟨by simp, fun _ _ => h.2 rfl⟩
    · exact fun e t h => ⟨fun _ _ => h.1 e rfl, by simp⟩
    · exact fun t h => ⟨by simp, by simp⟩
  refine (hfate.and (mergeGroup_memory st group s)).mono ?_
  rintro r t ⟨⟨herr, hok⟩, -, hmerged, hlost⟩
  refine ⟨fun e he => ⟨herr e he, hlost (by simp [he])⟩, fun n hn => ⟨hok n hn, ?_⟩⟩
  exact (hmerged n hn).2

omit [F64 F] in
/-- A merge of at least two segments, and whatever merges follow. -/
theorem mergeGroup_then_refused {α : Type} {group : List Nat} {s : SegmentedStore Id Item Seg F}
    (hpos : Positions s.segments.length group) (h2 : 2 ≤ group.length)
    {f : Nat → StoreM Id Item Seg F α}
    (hf : ∀ n u, Ends (f n) u (fun r t => ∀ e, r = .err e →
      t.segments.length ≤ u.segments.length)) :
    Ends (mergeGroup st group >>= f) s (fun r t => ∀ e, r = .err e → LeftBy st s group t) := by
  refine Ends.bind (mergeGroup_refused st group s) ?_ ?_ (by simp)
  · rintro n u ⟨-, hok⟩
    obtain ⟨hdone, hmem⟩ := hok n rfl
    refine (hf n u).mono fun r t ht e he => .inr ⟨hdone, ?_⟩
    have hle := ht e he
    rw [hmem] at hle
    exact Nat.lt_of_le_of_lt hle (Contents.merge_length_lt st hpos h2)
  · rintro e t ⟨herr, -⟩ _ -
    exact .inl (herr e rfl)

omit [F64 F] in
/-- The loop of a partial compaction. -/
theorem mergeLoop_refused {next : Options F → Contents Id Item Seg → Option (List Nat)}
    (hnext : ∀ opts, Contents.Picks (next opts)) (fuel : Nat) (stats : CompactionStats) :
    RespectsOnError (fun s t => ∃ group,
        next s.opts s.toContents = some group ∧ LeftBy st s group t)
      (mergeLoop st next fuel stats : StoreM Id Item Seg F _) := by
  induction fuel generalizing stats with
  | zero => exact fun s => Ends.pure_iff.mpr (by simp)
  | succ fuel ih =>
      intro s
      rw [mergeLoop, Ends.get_bind_iff]
      cases hgroup : next s.opts s.toContents with
      | none => exact Ends.pure_iff.mpr (by simp)
      | some group =>
          obtain ⟨hpos, h2⟩ := hnext _ hgroup
          refine (mergeGroup_then_refused st hpos h2 fun n u => ?_).mono
            fun r t ht e he => ⟨group, hgroup, ht e he⟩
          refine (ih _ u).mono fun r t ht e he => ?_
          obtain ⟨group', -, hleft⟩ := ht e he
          exact hleft.le

omit [F64 F] in
/-- A full compaction merges once. -/
theorem mergeEverything_refused :
    RespectsOnError (fun s t => ∃ group, s.fullGroup = some group ∧ LeftBy st s group t)
      (mergeEverything st : StoreM Id Item Seg F _) := by
  intro s
  rw [mergeEverything, Ends.get_bind_iff]
  by_cases hneeds : s.needsCompact = true
  · simp only [if_pos hneeds]
    refine Ends.bind (mergeGroup_refused st _ s) ?_ ?_ (by simp)
    · intro n t _
      rw [onContents, Ends.update_bind_iff, Ends.pure_iff]
      simp
    · rintro e t ⟨herr, -⟩ _ -
      exact ⟨_, if_pos hneeds, .inl (herr e rfl)⟩
  · simp only [if_neg hneeds]
    rw [onContents, Ends.update_bind_iff, Ends.pure_iff]
    simp

omit [F64 F] in
theorem flushed_of_buffer {s : SegmentedStore Id Item Seg F} (hbuffer : s.buffer = []) :
    { s with toContents := s.toContents.flushBuffer st } = s := by
  rw [Contents.flushBuffer_of_empty _ st hbuffer]

omit [F64 F] in
theorem compactMerging_refused {s : SegmentedStore Id Item Seg F} (hbuffer : s.buffer = []) :
    Ends (compactMerging st) s (fun r t => ∀ e, r = .err e → ∃ group,
      s.fullGroup = some group ∧ LeftBy st s group t) := by
  rw [compactMerging, onContents, Ends.update_bind_iff, flushed_of_buffer st hbuffer]
  exact mergeEverything_refused st s

omit [F64 F] in
theorem mergingBy_refused {next : Options F → Contents Id Item Seg → Option (List Nat)}
    (hnext : ∀ opts, Contents.Picks (next opts)) {s : SegmentedStore Id Item Seg F}
    (hbuffer : s.buffer = []) :
    Ends (mergingBy st next) s (fun r t => ∀ e, r = .err e → ∃ group,
      next s.opts s.toContents = some group ∧ LeftBy st s group t) := by
  rw [mergingBy, onContents, Ends.update_bind_iff, flushed_of_buffer st hbuffer,
    Ends.get_bind_iff]
  exact mergeLoop_refused st hnext _ _ s

theorem reclaimMerging_refused {s : SegmentedStore Id Item Seg F} (hbuffer : s.buffer = [])
    (minLiveRatio : F) :
    Ends (reclaimMerging st minLiveRatio) s (fun r t => ∀ e, r = .err e → ∃ group,
      Cmd.firstGroup st s.opts s.toContents (.reclaimTombstones minLiveRatio) = some group ∧
        LeftBy st s group t) := by
  rw [reclaimMerging, onContents, Ends.update_bind_iff, flushed_of_buffer st hbuffer,
    Ends.get_bind_iff]
  simp only [Cmd.firstGroup]
  cases s.reclaimTargets st minLiveRatio s.sealed.zipIdx with
  | none => simp
  | some targets =>
      cases targets with
      | nil => simp
      | cons target targets =>
          refine Ends.bind (mergeGroup_refused st _ s) (fun _ _ _ => by simp) ?_ (by simp)
          rintro e t ⟨herr, -⟩ _ -
          exact ⟨_, rfl, .inl (herr e rfl)⟩

end SegmentedStore

omit [DecidableEq Id] [F64 F] in
/-- What is returned does not matter to how a call fails. -/
theorem merging_onError {α : Type} {p : StoreM Id Item Seg F α} {s : SegmentedStore Id Item Seg F}
    {R : SegmentedStore Id Item Seg F → Prop}
    (hp : Ends p s (fun r t => ∀ e, r = .err e → R t)) :
    Ends (p >>= fun _ => (pure () : StoreM Id Item Seg F Unit)) s
      (fun r t => ∀ e, r = .err e → R t) :=
  Ends.bind hp (fun _ _ _ => by simp) (fun e _ h _ _ => h e rfl) (by simp)

theorem Cmd.merging_refused {s : SegmentedStore Id Item Seg F} (hbuffer : s.buffer = [])
    (cmd : Cmd Id Item F) :
    Ends (cmd.merging st) s (fun r t => ∀ e, r = .err e → ∃ group,
      cmd.firstGroup st s.opts s.toContents = some group ∧ LeftBy st s group t) := by
  cases cmd with
  | add id item => simp [merging]
  | extend items => simp [merging]
  | delete id => simp [merging]
  | checkpoint => simp [merging]
  | compact => exact merging_onError (SegmentedStore.compactMerging_refused st hbuffer)
  | compactTiers =>
      rw [merging, SegmentedStore.tierMerging_eq]
      exact merging_onError (SegmentedStore.mergingBy_refused st
        (fun _ => Contents.picks_nextMergeGroup st _ _) hbuffer)
  | forceMergeTo maxSegments =>
      rw [merging]
      simp only [firstGroup]
      split
      · exact merging_onError (SegmentedStore.compactMerging_refused st hbuffer)
      · rename_i hmax
        rw [SegmentedStore.forceMerging_eq]
        exact merging_onError (SegmentedStore.mergingBy_refused st
          (fun _ => Contents.picks_overshootGroup st _ (by omega)) hbuffer)
  | reclaimTombstones minLiveRatio =>
      exact merging_onError (SegmentedStore.reclaimMerging_refused st hbuffer minLiveRatio)

/-- At every point of a run, with an empty buffer: a compaction that is refused
a merge leaves the segments as they were exactly when its first group could not be
written. -/
theorem refused_merge_iff (fileBacked : Bool) (events : List (Event Id Item F))
    (s : SegmentedStore Id Item Seg F)
    (hs : (Proc.run st (.closed (.empty fileBacked)) [] events).1 = .running s)
    (hbuffer : s.buffer = []) (cmd : Cmd Id Item F) (fates : List (Call → Fate))
    (e : PersistenceError) (t : SegmentedStore Id Item Seg F)
    (hrefused : cmd.merging st (Proc.armed s fates) = (.err e, t)) :
    cmd.exec st (Proc.armed s fates) = (.err e, t) ∧
      (Proc.run st (.closed (.empty fileBacked)) [] (events ++ [.call cmd fates])).1 =
        .running t ∧
      (SameSegments s t ↔ ∃ group, cmd.firstGroup st s.opts s.toContents = some group ∧
        Refuses st (Proc.armed s fates) group) := by
  have hexec := cmd.exec_of_merging st hrefused
  refine ⟨hexec, ?_, ?_⟩
  · rw [Proc.run_append, hs, Proc.run, Proc.run, Proc.step, hexec]
    rfl
  · have hleft := cmd.merging_refused st (s := Proc.armed s fates) hbuffer
    obtain ⟨group, hgroup, hleft⟩ := hleft.of_run hrefused e rfl
    replace hgroup : cmd.firstGroup st s.opts s.toContents = some group := hgroup
    have hsame : SameSegments (Proc.armed s fates) t ↔ Refuses st (Proc.armed s fates) group :=
      hleft.same_iff
    have harmed : SameSegments s t ↔ SameSegments (Proc.armed s fates) t :=
      ⟨fun h => ⟨h.1, h.2, h.3, h.4, h.5⟩, fun h => ⟨h.1, h.2, h.3, h.4, h.5⟩⟩
    rw [harmed, hsame, hgroup]
    simp

/-- Four segments of one entry each, in a store that merges two at a time. -/
def fourSegments : List (Event Nat Nat Rat) :=
  [.reopen { (Options.new 1 : Options Rat) with
      tiering := { (TierConfig.default : TierConfig Rat) with maxMerge := 2 } } 0 [],
    .call (.extend [(1, 5), (2, 6), (3, 7), (4, 8)]) []]

/-- The first merge of `force_merge_to` is refused. -/
theorem refused_merge_iff_first :
    ∃ s t : SegmentedStore Nat Nat (List (Nat × Nat)) Rat,
      (Proc.run (defaultStore Nat Nat) (.closed (.empty false)) [] fourSegments).1 =
        .running s ∧
      Cmd.exec (defaultStore Nat Nat) (.forceMergeTo 2)
        (Proc.armed s [fun _ => .failed (.io "full") .nothing]) = (.err (.io "full"), t) ∧
      SameSegments s t := by
  obtain ⟨s, hs, hok⟩ := Proc.holds_iff.mp
    (show (Proc.run (defaultStore Nat Nat) (.closed (.empty false)) [] fourSegments).1.holds
      (fun s => decide (s.buffer = [] ∧
        (Cmd.merging (defaultStore Nat Nat) (.forceMergeTo 2)
          (Proc.armed s [fun _ => .failed (.io "full") .nothing])).1 = .err (.io "full") ∧
        Cmd.firstGroup (defaultStore Nat Nat) s.opts s.toContents (.forceMergeTo 2) =
          some [0, 1] ∧
        0 < (s.mergedSegment (defaultStore Nat Nat) [0, 1]).length)) = true by decide +kernel)
  obtain ⟨hbuffer, hmerging, hgroup, hlen⟩ := of_decide_eq_true hok
  have ht : Cmd.merging (defaultStore Nat Nat) (.forceMergeTo 2)
      (Proc.armed s [fun _ => .failed (.io "full") .nothing]) = (.err (.io "full"), _) :=
    Prod.ext hmerging rfl
  obtain ⟨hexec, -, hiff⟩ := refused_merge_iff (defaultStore Nat Nat) false fourSegments s hs
    hbuffer (.forceMergeTo 2) [fun _ => .failed (.io "full") .nothing] _ _ ht
  exact ⟨s, _, hs, hexec, hiff.mpr ⟨[0, 1], hgroup, hlen, _, _, rfl⟩⟩

/-- The second merge is refused: two segments are gone. -/
theorem refused_merge_changes_segments :
    ¬ ∀ (events : List (Event Nat Nat Rat))
        (s : SegmentedStore Nat Nat (List (Nat × Nat)) Rat),
      (Proc.run (defaultStore Nat Nat) (.closed (.empty false)) [] events).1 = .running s →
      s.buffer = [] → ∀ (cmd : Cmd Nat Nat Rat) (fates : List (Call → Fate))
        (e : PersistenceError) (t : SegmentedStore Nat Nat (List (Nat × Nat)) Rat),
      cmd.merging (defaultStore Nat Nat) (Proc.armed s fates) = (.err e, t) →
      SameSegments s t := by
  intro h
  obtain ⟨s, hs, hok⟩ := Proc.holds_iff.mp
    (show (Proc.run (defaultStore Nat Nat) (.closed (.empty false)) [] fourSegments).1.holds
      (fun s => decide (s.buffer = [] ∧ s.segmentIds = [0, 1, 2, 3] ∧
        (Cmd.merging (defaultStore Nat Nat) (.forceMergeTo 2)
          (Proc.armed s [fun _ => .done, fun _ => .failed (.io "full") .nothing])).1 =
            .err (.io "full") ∧
        (Cmd.merging (defaultStore Nat Nat) (.forceMergeTo 2)
          (Proc.armed s [fun _ => .done, fun _ => .failed (.io "full") .nothing])).2.segmentIds =
            [2, 3, 4])) = true by decide +kernel)
  obtain ⟨hbuffer, hbefore, hmerging, hafter⟩ := of_decide_eq_true hok
  have hsame := h fourSegments s hs hbuffer (.forceMergeTo 2)
    [fun _ => .done, fun _ => .failed (.io "full") .nothing] _ _ (Prod.ext hmerging rfl)
  have hids := hsame.segmentIds
  rw [hafter, hbefore] at hids
  exact absurd hids (by decide)

end Segstore
