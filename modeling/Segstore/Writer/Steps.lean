import Segstore.Writer.Ledger

/-!
# Calls in steps

A call in which nothing fails is a sequence of steps of the ledger: writes that
seal a full buffer, seals of what is in the buffer, merges with the commit that
follows them.  The deeds of a call are its writes and merges, each with the
memory it finds.  `Steps A` is a run of steps whose deeds satisfy `A`.
-/

namespace Segstore

/-- A write or a merge, with the memory before it. -/
inductive Deed (Id Item Seg : Type)
  | write (c : Contents Id Item Seg) (op : Op Id Item)
  | merge (c : Contents Id Item Seg) (indices : List Nat)

/-- A deed that is a merge. -/
def Deed.isMerge {Id Item Seg : Type} : Deed Id Item Seg → Bool
  | .write _ _ => false
  | .merge _ _ => true

variable {Id Item Seg F : Type} [DecidableEq Id] (st : Store Id Item Seg)

/-! ## The deeds of a call -/

namespace Contents

/-- The merge of a full compaction. -/
def fullDeeds (c : Contents Id Item Seg) : List (Deed Id Item Seg) :=
  if c.needsCompact then [.merge c (List.range c.segments.length)] else []

/-- The merges of `compact_tiers`. -/
def tierDeeds [F64 F] (cfg : TierConfig F) (flushThreshold : Nat) :
    Nat → Contents Id Item Seg → List (Deed Id Item Seg)
  | 0, _ => []
  | fuel + 1, c =>
      match c.nextMergeGroup st cfg flushThreshold with
      | none => []
      | some group => .merge c group :: tierDeeds cfg flushThreshold fuel (c.merge st group)

/-- The merges of `force_merge_to`. -/
def forceDeeds (cfg : TierConfig F) (maxSegments : Nat) :
    Nat → Contents Id Item Seg → List (Deed Id Item Seg)
  | 0, _ => []
  | fuel + 1, c =>
      if maxSegments < c.segments.length then
        let group := c.smallestGroup st cfg maxSegments
        .merge c group :: forceDeeds cfg maxSegments fuel (c.merge st group)
      else
        []

variable [F64 F]

/-- The merge of `reclaim_tombstones`. -/
def reclaimDeeds (minLiveRatio : F) (c : Contents Id Item Seg) : List (Deed Id Item Seg) :=
  match c.reclaimTargets st minLiveRatio c.sealed.zipIdx with
  | none => []
  | some [] => []
  | some (target :: targets) => [.merge c (target :: targets)]

/-- The memory after a partial compaction. -/
def compactedBy (merges : Contents Id Item Seg → Contents Id Item Seg × Nat)
    (c : Contents Id Item Seg) : Contents Id Item Seg :=
  let p := merges (c.flushBuffer st)
  if 0 < p.2 then (p.1.flushBuffer st).retainSuperseded else p.1

/-- Whether a write that has sealed compacts as well. -/
def compactsNow (opts : Options F) (c : Contents Id Item Seg) : Bool :=
  opts.autoCompact && (c.nextMergeGroup st opts.tiering opts.flushThreshold).isSome

/-- The memory at the end of a write. -/
def sealCompacted (opts : Options F) (c : Contents Id Item Seg) : Contents Id Item Seg :=
  if opts.flushThreshold ≤ c.buffer.length then
    let c := c.flushBuffer st
    if c.compactsNow st opts then
      c.compactedBy st (fun c => c.tierMerges st opts.tiering opts.flushThreshold c.segments.length)
    else
      c
  else
    c

/-- The merges of `compact_tiers` after its seal. -/
def tiersDeeds (opts : Options F) (c : Contents Id Item Seg) : List (Deed Id Item Seg) :=
  c.tierDeeds st opts.tiering opts.flushThreshold c.segments.length

/-- The merges at the end of a write. -/
def sealDeeds (opts : Options F) (c : Contents Id Item Seg) : List (Deed Id Item Seg) :=
  if opts.flushThreshold ≤ c.buffer.length then
    let c := c.flushBuffer st
    if c.compactsNow st opts then (c.flushBuffer st).tiersDeeds st opts else []
  else
    []

/-- The deeds of `extend`. -/
def extendDeeds (opts : Options F) :
    List (Id × Item) → Contents Id Item Seg → List (Deed Id Item Seg)
  | [], _ => []
  | e :: items, c =>
      let c' := c.apply (.add e.1 e.2)
      .write c (.add e.1 e.2) :: (c'.sealDeeds st opts ++
        extendDeeds opts items (c'.sealCompacted st opts))

end Contents

/-- The deeds of a call in which nothing fails. -/
def Cmd.deeds [F64 F] (opts : Options F) (c : Contents Id Item Seg) :
    Cmd Id Item F → List (Deed Id Item Seg)
  | .add id item => .write c (.add id item) :: (c.apply (.add id item)).sealDeeds st opts
  | .extend items => c.extendDeeds st opts items
  | .delete id => [.write c (.delete id)]
  | .checkpoint => []
  | .compact => (c.flushBuffer st).fullDeeds
  | .compactTiers => (c.flushBuffer st).tiersDeeds st opts
  | .forceMergeTo maxSegments =>
      let c := c.flushBuffer st
      if maxSegments ≤ 1 then
        c.fullDeeds
      else
        c.forceDeeds st opts.tiering maxSegments c.segments.length
  | .reclaimTombstones minLiveRatio => (c.flushBuffer st).reclaimDeeds st minLiveRatio

/-! ## Steps -/

section Relations

variable (A : Deed Id Item Seg → Prop)

/-- Any number of merges, all of them allowed. -/
inductive Merged : Contents Id Item Seg → Contents Id Item Seg → Prop
  | done (c : Contents Id Item Seg) : Merged c c
  | merge {c c' : Contents Id Item Seg} {indices : List Nat} :
      Positions c.segments.length indices → A (.merge c indices) →
        Merged (c.merge st indices) c' → Merged c c'

/-- One step of a call, with the operations it issues. -/
inductive Step (flushThreshold : Nat) :
    Ledger Id Item Seg → List (Op Id Item) → Ledger Id Item Seg → Prop
  | write (l : Ledger Id Item Seg) {op : Op Id Item} :
      A (.write l.contents op) → Step flushThreshold l [op]
        (((l.append op).apply op).mapContents (fun c => c.sealFull st flushThreshold))
  | sync (l : Ledger Id Item Seg) : Step flushThreshold l [] l.sync
  | sealRest (l : Ledger Id Item Seg) :
      l.contents.buffer.length < max flushThreshold 1 →
        Step flushThreshold l [] (l.mapContents (fun c => c.flushBuffer st))
  | commit (l : Ledger Id Item Seg) {c : Contents Id Item Seg} :
      Merged st A (l.contents.flushBuffer st) c →
        Step flushThreshold l [] ((l.mapContents (fun _ => c)).commit st)
  | compact (l : Ledger Id Item Seg) :
      (∀ d ∈ (l.contents.flushBuffer st).fullDeeds, A d) →
        Step flushThreshold l [] (l.compact st)

/-- Any number of steps, with all operations they issue. -/
inductive Steps (flushThreshold : Nat) :
    Ledger Id Item Seg → List (Op Id Item) → Ledger Id Item Seg → Prop
  | done (l : Ledger Id Item Seg) : Steps flushThreshold l [] l
  | step {l l₁ l' : Ledger Id Item Seg} {ops more : List (Op Id Item)} :
      Step st A flushThreshold l ops l₁ → Steps flushThreshold l₁ more l' →
        Steps flushThreshold l (ops ++ more) l'

end Relations

variable {st} {A : Deed Id Item Seg → Prop} {flushThreshold : Nat}

theorem Step.steps {l l' : Ledger Id Item Seg} {ops : List (Op Id Item)}
    (h : Step st A flushThreshold l ops l') : Steps st A flushThreshold l ops l' := by
  have hsteps := Steps.step h (.done l')
  rwa [List.append_nil] at hsteps

theorem Steps.append {l l₁ l' : Ledger Id Item Seg} {ops more : List (Op Id Item)}
    (h : Steps st A flushThreshold l ops l₁) (hmore : Steps st A flushThreshold l₁ more l') :
    Steps st A flushThreshold l (ops ++ more) l' := by
  induction h with
  | done => exact hmore
  | step hstep _ ih =>
      rw [List.append_assoc]
      exact .step hstep (ih hmore)

/-- What every step preserves every run of steps preserves. -/
theorem Steps.induction {I : List (Op Id Item) → Ledger Id Item Seg → Prop}
    (hstep : ∀ {issued l ops l'}, I issued l → Step st A flushThreshold l ops l' →
      I (issued ++ ops) l')
    {issued ops : List (Op Id Item)} {l l' : Ledger Id Item Seg} (hl : I issued l)
    (h : Steps st A flushThreshold l ops l') : I (issued ++ ops) l' := by
  induction h generalizing issued with
  | done => rwa [List.append_nil]
  | step h _ ih =>
      rw [← List.append_assoc]
      exact ih (hstep hl h)

/-- What every merge preserves. -/
theorem Merged.induction {I : Contents Id Item Seg → Prop}
    (hmerge : ∀ {c indices}, I c → Positions c.segments.length indices →
      A (.merge c indices) → I (c.merge st indices))
    {c c' : Contents Id Item Seg} (hc : I c) (h : Merged st A c c') : I c' := by
  induction h with
  | done => exact hc
  | merge hpos hA _ ih => exact ih (hmerge hc hpos hA)

/-! ## Calls are sequences of steps -/

namespace Contents

/-- The merges of the rounds, each of the group that `next` chooses. -/
def deedsBy (st : Store Id Item Seg) (next : Contents Id Item Seg → Option (List Nat)) :
    Nat → Contents Id Item Seg → List (Deed Id Item Seg)
  | 0, _ => []
  | fuel + 1, c =>
      match next c with
      | none => []
      | some group => .merge c group :: deedsBy st next fuel (c.merge st group)

theorem tierDeeds_eq [F64 F] (cfg : TierConfig F) (fuel : Nat) (c : Contents Id Item Seg) :
    c.tierDeeds st cfg flushThreshold fuel =
      c.deedsBy st (fun c => c.nextMergeGroup st cfg flushThreshold) fuel := by
  induction fuel generalizing c with
  | zero => rfl
  | succ fuel ih =>
      rw [tierDeeds, deedsBy]
      cases c.nextMergeGroup st cfg flushThreshold with
      | none => rfl
      | some group => simp only [ih]

theorem forceDeeds_eq (cfg : TierConfig F) (maxSegments fuel : Nat) (c : Contents Id Item Seg) :
    c.forceDeeds st cfg maxSegments fuel =
      c.deedsBy st (fun c => c.overshootGroup st cfg maxSegments) fuel := by
  induction fuel generalizing c with
  | zero => rfl
  | succ fuel ih =>
      rw [forceDeeds, deedsBy, overshootGroup]
      split
      · simp only [ih]
      · rfl

theorem mergesBy_merged {next : Contents Id Item Seg → Option (List Nat)} (hnext : Picks next)
    (fuel : Nat) (c : Contents Id Item Seg) (hA : ∀ d ∈ c.deedsBy st next fuel, A d) :
    Merged st A c (c.mergesBy st next fuel).1 := by
  induction fuel generalizing c with
  | zero => exact .done c
  | succ fuel ih =>
      rw [deedsBy] at hA
      rw [mergesBy]
      split
      · exact .done c
      · rename_i group hgroup
        rw [hgroup] at hA
        exact .merge (hnext hgroup).1 (hA _ List.mem_cons_self)
          (ih _ fun d hd => hA d (List.mem_cons_of_mem _ hd))

/-- No merge, no change. -/
theorem mergesBy_none {next : Contents Id Item Seg → Option (List Nat)} (fuel : Nat)
    (c : Contents Id Item Seg) (h : (c.mergesBy st next fuel).2 = 0) :
    (c.mergesBy st next fuel).1 = c := by
  cases fuel with
  | zero => rfl
  | succ fuel =>
      rw [mergesBy] at h ⊢
      split
      · rfl
      · rename_i group hgroup
        rw [hgroup] at h
        cases h

theorem flushBuffer_flushBuffer (c : Contents Id Item Seg) :
    (c.flushBuffer st).flushBuffer st = c.flushBuffer st :=
  flushBuffer_of_empty _ st (flushBuffer_buffer c st)

end Contents

namespace Ledger

variable {l : Ledger Id Item Seg}

/-- A partial compaction: a step that seals, or one that merges and commits. -/
theorem compactBy_steps {merges : Contents Id Item Seg → Contents Id Item Seg × Nat}
    (hbuffer : l.contents.buffer.length < max flushThreshold 1)
    (hmerged : Merged st A (l.contents.flushBuffer st) (merges (l.contents.flushBuffer st)).1)
    (hnone : (merges (l.contents.flushBuffer st)).2 = 0 →
      (merges (l.contents.flushBuffer st)).1 = l.contents.flushBuffer st) :
    Steps st A flushThreshold l [] (l.compactBy st merges) := by
  rw [compactBy]
  split
  · exact (Step.commit l hmerged).steps
  · rename_i hzero
    rw [hnone (Nat.eq_zero_of_not_pos hzero)]
    exact (Step.sealRest l hbuffer).steps

theorem compactBy_contents (merges : Contents Id Item Seg → Contents Id Item Seg × Nat) :
    (l.compactBy st merges).contents = l.contents.compactedBy st merges := by
  rw [compactBy, Contents.compactedBy]
  split
  · rfl
  · rfl

/-- The loop of a partial compaction. -/
theorem mergesBy_steps {merges : Contents Id Item Seg → Contents Id Item Seg × Nat}
    {deeds : Contents Id Item Seg → List (Deed Id Item Seg)}
    {next : Contents Id Item Seg → Option (List Nat)} (hnext : Contents.Picks next)
    (hmerges : ∀ c, merges c = c.mergesBy st next c.segments.length)
    (hdeeds : ∀ c, deeds c = c.deedsBy st next c.segments.length)
    (hbuffer : l.contents.buffer.length < max flushThreshold 1)
    (hA : ∀ d ∈ deeds (l.contents.flushBuffer st), A d) :
    Steps st A flushThreshold l [] (l.compactBy st merges) := by
  rw [hdeeds] at hA
  refine compactBy_steps hbuffer ?_ fun hzero => ?_
  · rw [hmerges]
    exact Contents.mergesBy_merged hnext _ _ hA
  · rw [hmerges] at hzero ⊢
    exact Contents.mergesBy_none _ _ hzero

variable [F64 F] {opts : Options F}

theorem compactTiers_steps (hbuffer : l.contents.buffer.length < max opts.flushThreshold 1)
    (hA : ∀ d ∈ (l.contents.flushBuffer st).tiersDeeds st opts, A d) :
    Steps st A opts.flushThreshold l [] (l.compactTiers st opts) :=
  mergesBy_steps (Contents.picks_nextMergeGroup st _ _)
    (fun c => c.tierMerges_eq st _ _ _) (fun c => c.tierDeeds_eq _ _) hbuffer hA

theorem sealAndCompact_contents :
    (l.sealAndCompact st opts).contents = l.contents.sealCompacted st opts := by
  rw [sealAndCompact, Contents.sealCompacted]
  split
  · dsimp only
    split
    · rename_i hnow
      exact (compactBy_contents _).trans (if_pos hnow).symm
    · rename_i hnow
      exact (if_neg hnow).symm
  · rfl

/-- The end of a write: the seal that belongs to the write itself, then what
compaction there is. -/
theorem sealAndCompact_steps (hA : ∀ d ∈ l.contents.sealDeeds st opts, A d) :
    Steps st A opts.flushThreshold (l.mapContents (fun c => c.sealFull st opts.flushThreshold))
      [] (l.sealAndCompact st opts) := by
  by_cases hfull : opts.flushThreshold ≤ l.contents.buffer.length
  · have hseal : l.mapContents (fun c => c.sealFull st opts.flushThreshold) =
        l.mapContents (fun c => c.flushBuffer st) := by
      rw [mapContents, mapContents, Contents.sealFull, if_pos hfull]
    rw [Contents.sealDeeds, if_pos hfull] at hA
    rw [hseal, sealAndCompact_of_full st opts hfull]
    split
    · rename_i hnow
      replace hA : ∀ d ∈ ((l.contents.flushBuffer st).flushBuffer st).tiersDeeds st opts, A d :=
        fun d hd => hA d ((if_pos hnow : (if _ then _ else _) = _) ▸ hd)
      refine .step (.sync _) (compactTiers_steps ?_ hA)
      show ((l.contents.flushBuffer st).buffer).length < _
      rw [Contents.flushBuffer_buffer]
      exact Nat.lt_of_lt_of_le Nat.zero_lt_one (Nat.le_max_right _ _)
    · exact .done _
  · have hseal : l.mapContents (fun c => c.sealFull st opts.flushThreshold) = l := by
      rw [mapContents, Contents.sealFull, if_neg hfull]
    rw [hseal, sealAndCompact_of_short st hfull]
    exact .done l

theorem extendItems_steps (items : List (Id × Item)) (l : Ledger Id Item Seg)
    (hA : ∀ d ∈ l.contents.extendDeeds st opts items, A d) :
    Steps st A opts.flushThreshold l (items.map (fun e => .add e.1 e.2))
      (l.extendItems st opts items) := by
  induction items generalizing l with
  | nil => exact .done l
  | cons e items ih =>
      rw [Contents.extendDeeds, List.forall_mem_cons] at hA
      obtain ⟨hwrite, hA⟩ := hA
      refine Steps.step (.write l hwrite) ?_
      have hseal := sealAndCompact_steps (l := (l.append (.add e.1 e.2)).apply (.add e.1 e.2))
        fun d hd => hA d (List.mem_append_left _ hd)
      refine hseal.append (ih _ fun d hd => hA d (List.mem_append_right _ ?_))
      rw [sealAndCompact_contents] at hd
      exact hd

variable (st) in
/-- Deletes shrink the buffer, so none seals it. -/
theorem sealFull_delete (hbuffer : l.contents.buffer.length < max flushThreshold 1) (id : Id) :
    ((l.contents.apply (.delete id)).sealFull st flushThreshold) =
      l.contents.apply (.delete id) := by
  have hle := Contents.apply_delete_buffer_length_le l.contents id
  rw [Contents.sealFull]
  split
  · rename_i hfull
    refine Contents.flushBuffer_of_empty _ st (List.eq_nil_of_length_eq_zero ?_)
    omega
  · rfl

/-- A call in which nothing fails. -/
theorem exec_steps (cmd : Cmd Id Item F) (hshape : l.contents.Shape)
    (hbuffer : l.contents.buffer.length < max opts.flushThreshold 1)
    (hA : ∀ d ∈ cmd.deeds st opts l.contents, A d) :
    Steps st A opts.flushThreshold l cmd.ops (l.exec st opts cmd) := by
  cases cmd with
  | add id item =>
      obtain ⟨hwrite, hA⟩ := List.forall_mem_cons.mp hA
      exact .step (.write l hwrite) (.step (.sync _)
        (sealAndCompact_steps (l := (l.append (.add id item)).sync.apply (.add id item)) hA))
  | extend items =>
      rw [exec, extend]
      split
      · rename_i hnil
        rw [List.isEmpty_iff.mp hnil]
        exact .done l
      · have hsteps := (extendItems_steps items l hA).append (Step.sync _).steps
        rwa [List.append_nil] at hsteps
  | delete id =>
      refine .step (.write l (hA _ List.mem_cons_self)) (.step (.sync _) ?_)
      have hseal := sealFull_delete st hbuffer id
      have heq : (((l.append (.delete id)).apply (.delete id)).mapContents
          (fun c => c.sealFull st opts.flushThreshold)).sync = l.delete id := by
        simp only [delete, append, apply, mapContents, sync, hseal]
      rw [heq]
      exact .done _
  | checkpoint =>
      have hstep : Step st A opts.flushThreshold l [] _ :=
        .commit l (.done (l.contents.flushBuffer st))
      have heq : (l.mapContents (fun _ => l.contents.flushBuffer st)).commit st =
          l.commit st := by
        simp only [commit, mapContents, Contents.flushBuffer_flushBuffer]
      rw [heq] at hstep
      exact hstep.steps
  | compact => exact (Step.compact l hA).steps
  | compactTiers => exact compactTiers_steps hbuffer hA
  | forceMergeTo maxSegments =>
      rw [Cmd.deeds] at hA
      rw [exec, forceMergeTo]
      split
      · rename_i hle
        rw [if_pos hle] at hA
        exact (Step.compact l hA).steps
      · rename_i hle
        rw [if_neg hle] at hA
        exact mergesBy_steps (Contents.picks_overshootGroup st _ (by omega))
          (fun c => c.forceMerges_eq st _ _ _) (fun c => c.forceDeeds_eq _ _ _) hbuffer hA
  | reclaimTombstones minLiveRatio =>
      rw [Cmd.deeds, Contents.reclaimDeeds] at hA
      rw [exec, reclaimTombstones]
      refine compactBy_steps hbuffer ?_ ?_
      · split
        · exact .done _
        · exact .done _
        · rename_i target targets htargets
          rw [htargets] at hA
          exact .merge (Contents.reclaimTargets_positions st (hshape.flushBuffer st) htargets)
            (hA _ List.mem_cons_self) (.done _)
      · split
        · exact fun _ => rfl
        · exact fun _ => rfl
        · exact fun hzero => absurd hzero Nat.one_ne_zero

/-! ## Durability -/

omit [DecidableEq Id] in
/-- Every record of the log has been flushed. -/
def Synced (l : Ledger Id Item Seg) : Prop :=
  l.log.synced = l.log.records.length

omit [F64 F] in
theorem compactBy_synced (merges : Contents Id Item Seg → Contents Id Item Seg × Nat)
    (h : l.Synced) : (l.compactBy st merges).Synced := by
  rw [compactBy]
  split
  · rfl
  · exact h

theorem sealAndCompact_synced (h : l.Synced) : (l.sealAndCompact st opts).Synced := by
  by_cases hfull : opts.flushThreshold ≤ l.contents.buffer.length
  · rw [sealAndCompact_of_full st opts hfull]
    split
    · exact compactBy_synced _ rfl
    · exact h
  · rwa [sealAndCompact_of_short st hfull]

/-- When a call returns, everything in the log is durable. -/
theorem exec_synced (cmd : Cmd Id Item F) (h : l.Synced) : (l.exec st opts cmd).Synced := by
  cases cmd with
  | add id item => exact sealAndCompact_synced rfl
  | extend items =>
      rw [exec, extend]
      split
      · exact h
      · rfl
  | delete id => rfl
  | checkpoint => rfl
  | compact => rfl
  | compactTiers => exact compactBy_synced _ h
  | forceMergeTo maxSegments =>
      rw [exec, forceMergeTo]
      split
      · rfl
      · exact compactBy_synced _ h
  | reclaimTombstones minLiveRatio => exact compactBy_synced _ h

end Ledger

/-! ## Commits -/

namespace Contents

variable {c : Contents Id Item Seg}

theorem isMerge_deedsBy {next : Contents Id Item Seg → Option (List Nat)} {fuel : Nat} :
    ∀ d ∈ c.deedsBy st next fuel, d.isMerge = true := by
  induction fuel generalizing c with
  | zero => exact fun d hd => absurd hd List.not_mem_nil
  | succ fuel ih =>
      rw [deedsBy]
      split
      · exact fun d hd => absurd hd List.not_mem_nil
      · exact List.forall_mem_cons.mpr ⟨rfl, ih⟩

omit [DecidableEq Id] in
theorem isMerge_fullDeeds : ∀ d ∈ c.fullDeeds, d.isMerge = true := by
  rw [fullDeeds]
  split
  · exact List.forall_mem_singleton.mpr rfl
  · exact fun d hd => absurd hd List.not_mem_nil

theorem isMerge_tiersDeeds [F64 F] {opts : Options F} :
    ∀ d ∈ c.tiersDeeds st opts, d.isMerge = true := by
  rw [tiersDeeds, tierDeeds_eq]
  exact isMerge_deedsBy

theorem isMerge_reclaimDeeds [F64 F] {minLiveRatio : F} :
    ∀ d ∈ c.reclaimDeeds st minLiveRatio, d.isMerge = true := by
  rw [reclaimDeeds]
  split
  · exact fun d hd => absurd hd List.not_mem_nil
  · exact fun d hd => absurd hd List.not_mem_nil
  · exact List.forall_mem_singleton.mpr rfl

theorem mergesBy_count (next : Contents Id Item Seg → Option (List Nat)) (fuel : Nat)
    (c : Contents Id Item Seg) :
    (c.mergesBy st next fuel).2 = (c.deedsBy st next fuel).countP Deed.isMerge := by
  rw [List.countP_eq_length.mpr isMerge_deedsBy]
  induction fuel generalizing c with
  | zero => rfl
  | succ fuel ih =>
      rw [mergesBy, deedsBy]
      cases next c with
      | none => rfl
      | some group => exact congrArg (· + 1) (ih _)

end Contents

/-- Calls that checkpoint whatever they find. -/
def Cmd.checkpoints : Cmd Id Item F → Bool
  | .checkpoint => true
  | .compact => true
  | .forceMergeTo maxSegments => decide (maxSegments ≤ 1)
  | _ => false

/-- A call checkpoints when it always does, or when it merges. -/
def Cmd.Commits [F64 F] (st : Store Id Item Seg) (opts : Options F) (c : Contents Id Item Seg)
    (cmd : Cmd Id Item F) : Prop :=
  cmd.checkpoints = true ∨ 0 < (cmd.deeds st opts c).countP Deed.isMerge

namespace Ledger

variable {l l₁ l' : Ledger Id Item Seg} {p p' : Prop} {ops ops' : List (Op Id Item)}

omit [DecidableEq Id] in
/-- Nothing was committed, and these operations were logged. -/
structure Uncommitted (ops : List (Op Id Item)) (l l' : Ledger Id Item Seg) : Prop where
  image : l'.image = l.image
  published : l'.published = l.published
  logged : l'.log.records = l.log.records ++ ops

variable (st) in
/-- With `p` there was one commit, after everything else, and without it there was
none. -/
structure CommitsLast (p : Prop) (ops : List (Op Id Item)) (l l' : Ledger Id Item Seg) :
    Prop where
  commit : p → ∃ l₁ : Ledger Id Item Seg, l₁.image = l.image ∧ l' = l₁.commit st
  rest : ¬ p → Uncommitted ops l l'

omit [DecidableEq Id] in
/-- With `p` there were commits, and the log holds operations issued since at most. -/
structure Commits (p : Prop) (ops : List (Op Id Item)) (l l' : Ledger Id Item Seg) : Prop where
  epoch : p → l.image.epoch < l'.image.epoch
  left : p → l'.log.records <:+ ops
  rest : ¬ p → Uncommitted ops l l'

omit [DecidableEq Id] in
theorem Uncommitted.refl (l : Ledger Id Item Seg) : Uncommitted [] l l :=
  ⟨rfl, rfl, (List.append_nil _).symm⟩

omit [DecidableEq Id] in
theorem Uncommitted.trans (h : Uncommitted ops l l₁) (h' : Uncommitted ops' l₁ l') :
    Uncommitted (ops ++ ops') l l' :=
  ⟨h'.image.trans h.image, h'.published.trans h.published, by
    rw [h'.logged, h.logged, List.append_assoc]⟩

namespace CommitsLast

theorem mono (h : CommitsLast st p ops l l') (hp : p ↔ p') : CommitsLast st p' ops l l' :=
  ⟨fun hp' => h.commit (hp.mpr hp'), fun hno => h.rest (hp.not.mpr hno)⟩

/-- After something that commits nothing. -/
theorem after (h : CommitsLast st p ops' l₁ l') (hl : Uncommitted ops l l₁) :
    CommitsLast st p (ops ++ ops') l l' where
  commit := fun hp =>
    let ⟨l₂, himage, heq⟩ := h.commit hp
    ⟨l₂, himage.trans hl.image, heq⟩
  rest := fun hno => hl.trans (h.rest hno)

theorem cases (h : CommitsLast st p ops l l') :
    Uncommitted ops l l' ∨ ∃ l₁ : Ledger Id Item Seg, l' = l₁.commit st := by
  by_cases hp : p
  · obtain ⟨l₁, -, heq⟩ := h.commit hp
    exact .inr ⟨l₁, heq⟩
  · exact .inl (h.rest hp)

theorem commits (h : CommitsLast st p ops l l') : Commits p ops l l' := by
  refine ⟨fun hp => ?_, fun hp => ?_, h.rest⟩
  · obtain ⟨l₁, himage, rfl⟩ := h.commit hp
    exact himage ▸ Nat.lt_succ_self _
  · obtain ⟨l₁, -, rfl⟩ := h.commit hp
    exact List.nil_suffix

end CommitsLast

omit [DecidableEq Id] in
theorem Commits.mono (h : Commits p ops l l') (hp : p ↔ p') : Commits p' ops l l' :=
  ⟨fun hp' => h.epoch (hp.mpr hp'), fun hp' => h.left (hp.mpr hp'),
    fun hno => h.rest (hp.not.mpr hno)⟩

omit [DecidableEq Id] in
/-- One after the other. -/
theorem Commits.append (h : Commits p ops l l₁) (h' : Commits p' ops' l₁ l') :
    Commits (p ∨ p') (ops ++ ops') l l' where
  epoch := by
    intro hor
    by_cases hp : p
    · refine (h.epoch hp).trans_le ?_
      by_cases hp' : p'
      · exact (h'.epoch hp').le
      · rw [(h'.rest hp').image]
    · exact (h.rest hp).image ▸ h'.epoch (hor.resolve_left hp)
  left := by
    intro hor
    by_cases hp' : p'
    · exact (h'.left hp').trans (List.suffix_append _ _)
    · rw [(h'.rest hp').logged]
      obtain ⟨more, hmore⟩ := h.left (hor.resolve_right hp')
      exact ⟨more, by rw [← hmore, List.append_assoc]⟩
  rest := fun hno => (h.rest fun hp => hno (.inl hp)).trans (h'.rest fun hp' => hno (.inr hp'))

theorem compactBy_commits (merges : Contents Id Item Seg → Contents Id Item Seg × Nat) :
    CommitsLast st (0 < (merges (l.contents.flushBuffer st)).2) [] l (l.compactBy st merges) := by
  rw [compactBy]
  split
  · rename_i hpos
    exact ⟨fun _ => ⟨l.mapContents fun _ => (merges (l.contents.flushBuffer st)).1, rfl, rfl⟩,
      fun hno => absurd hpos hno⟩
  · rename_i hzero
    exact ⟨fun hpos => absurd hpos hzero, fun _ => ⟨rfl, rfl, (List.append_nil _).symm⟩⟩

/-- The loop of a partial compaction. -/
theorem mergesBy_commits {merges : Contents Id Item Seg → Contents Id Item Seg × Nat}
    {next : Contents Id Item Seg → Option (List Nat)}
    (hmerges : ∀ c, merges c = c.mergesBy st next c.segments.length) :
    CommitsLast st (0 < ((l.contents.flushBuffer st).deedsBy st next
      (l.contents.flushBuffer st).segments.length).countP Deed.isMerge) [] l
      (l.compactBy st merges) := by
  refine (compactBy_commits merges).mono ?_
  rw [hmerges, Contents.mergesBy_count]

variable [F64 F] {opts : Options F}

theorem compactTiers_commits :
    CommitsLast st (0 < ((l.contents.flushBuffer st).tiersDeeds st opts).countP Deed.isMerge) []
      l (l.compactTiers st opts) := by
  rw [Contents.tiersDeeds, Contents.tierDeeds_eq]
  exact mergesBy_commits fun c => c.tierMerges_eq st _ _ _

theorem sealAndCompact_commits :
    CommitsLast st (0 < (l.contents.sealDeeds st opts).countP Deed.isMerge) [] l
      (l.sealAndCompact st opts) := by
  have hnone : ∀ {l' : Ledger Id Item Seg}, Uncommitted [] l l' →
      CommitsLast st (0 < ([] : List (Deed Id Item Seg)).countP Deed.isMerge) [] l l' :=
    fun h => ⟨fun hno => absurd hno (Nat.lt_irrefl 0), fun _ => h⟩
  rw [Contents.sealDeeds]
  by_cases hfull : opts.flushThreshold ≤ l.contents.buffer.length
  · rw [sealAndCompact_of_full st opts hfull, if_pos hfull]
    dsimp only
    rw [Contents.compactsNow]
    split
    · have hnothing : Uncommitted [] l (l.mapContents (fun c => c.flushBuffer st)).sync :=
        ⟨rfl, rfl, (List.append_nil _).symm⟩
      exact compactTiers_commits.after hnothing
    · exact hnone ⟨rfl, rfl, (List.append_nil _).symm⟩
  · rw [sealAndCompact_of_short st hfull, if_neg hfull]
    exact hnone (.refl l)

/-- A write, and what it ends with. -/
theorem write_commits {op : Op Id Item} (hl : Uncommitted [op] l l₁) :
    CommitsLast st (0 < (Deed.write l.contents op ::
      l₁.contents.sealDeeds st opts).countP Deed.isMerge) [op] l (l₁.sealAndCompact st opts) := by
  rw [List.countP_cons_of_neg (by simp [Deed.isMerge])]
  exact sealAndCompact_commits.after hl

theorem extendItems_commits (items : List (Id × Item)) (l : Ledger Id Item Seg) :
    Commits (0 < (l.contents.extendDeeds st opts items).countP Deed.isMerge)
      (items.map (fun e => .add e.1 e.2)) l (l.extendItems st opts items) := by
  induction items generalizing l with
  | nil => exact ⟨fun hno => absurd hno (Nat.lt_irrefl 0), fun hno => absurd hno (Nat.lt_irrefl 0),
      fun _ => .refl l⟩
  | cons e items ih =>
      have hlogged : Uncommitted [.add e.1 e.2] l
          ((l.append (.add e.1 e.2)).apply (.add e.1 e.2)) := ⟨rfl, rfl, rfl⟩
      have hrest := ih (((l.append (.add e.1 e.2)).apply (.add e.1 e.2)).sealAndCompact st opts)
      rw [sealAndCompact_contents] at hrest
      refine ((write_commits hlogged).commits.append hrest).mono ?_
      rw [Contents.extendDeeds, ← List.cons_append, List.countP_append, Nat.add_pos_iff_pos_or_pos]
      rfl

variable (st l opts) in
/-- Every call but `extend` commits last, or not at all. -/
theorem exec_commits {cmd : Cmd Id Item F} (hcmd : ∀ items, cmd ≠ .extend items) :
    CommitsLast st (cmd.Commits st opts l.contents) cmd.ops l (l.exec st opts cmd) := by
  have hlast : ∀ {cmd : Cmd Id Item F} {ops : List (Op Id Item)} {l' : Ledger Id Item Seg},
      cmd.checkpoints = false →
      CommitsLast st (0 < (cmd.deeds st opts l.contents).countP Deed.isMerge) ops l l' →
      CommitsLast st (cmd.Commits st opts l.contents) ops l l' :=
    fun hno h => h.mono (or_iff_right (by simp [hno])).symm
  cases cmd with
  | add id item =>
      have hlogged : Uncommitted [.add id item] l
          ((l.append (.add id item)).sync.apply (.add id item)) := ⟨rfl, rfl, rfl⟩
      exact hlast rfl (write_commits hlogged)
  | extend items => exact absurd rfl (hcmd items)
  | delete id =>
      exact hlast rfl ⟨fun hno => absurd hno (Nat.lt_irrefl 0), fun _ => ⟨rfl, rfl, rfl⟩⟩
  | checkpoint => exact ⟨fun _ => ⟨l, rfl, rfl⟩, fun hno => absurd (.inl rfl) hno⟩
  | compact =>
      exact ⟨fun _ => ⟨l.mapContents _, rfl, rfl⟩, fun hno => absurd (.inl rfl) hno⟩
  | compactTiers => exact hlast rfl compactTiers_commits
  | forceMergeTo maxSegments =>
      rw [exec, forceMergeTo]
      split
      · rename_i hle
        exact ⟨fun _ => ⟨l.mapContents _, rfl, rfl⟩,
          fun hno => absurd (.inl (decide_eq_true hle)) hno⟩
      · rename_i hle
        refine hlast (decide_eq_false hle) ?_
        rw [Cmd.deeds, if_neg hle, Contents.forceDeeds_eq]
        exact mergesBy_commits fun c => c.forceMerges_eq st _ _ _
  | reclaimTombstones minLiveRatio =>
      rw [exec, reclaimTombstones]
      refine hlast rfl ((compactBy_commits _).mono ?_)
      rw [Cmd.deeds, Contents.reclaimDeeds]
      cases (l.contents.flushBuffer st).reclaimTargets st minLiveRatio
          (l.contents.flushBuffer st).sealed.zipIdx with
      | none => exact Iff.rfl
      | some targets =>
          cases targets with
          | nil => exact Iff.rfl
          | cons target targets => exact iff_of_true Nat.one_pos Nat.one_pos

variable (st l opts) in
theorem exec_commits_within (cmd : Cmd Id Item F) :
    Commits (cmd.Commits st opts l.contents) cmd.ops l (l.exec st opts cmd) := by
  by_cases hcmd : ∀ items, cmd ≠ .extend items
  · exact (exec_commits st l opts hcmd).commits
  · obtain ⟨items, rfl⟩ := not_forall_not.mp hcmd
    have h : Commits ((Cmd.extend items).Commits st opts l.contents)
        (items.map fun e => .add e.1 e.2) l (l.extendItems st opts items) :=
      (extendItems_commits items l).mono (or_iff_right (by simp [Cmd.checkpoints])).symm
    rw [exec, extend]
    split
    · rename_i hnil
      rw [List.isEmpty_iff.mp hnil] at h ⊢
      exact h
    · exact ⟨h.epoch, h.left, fun hno => ⟨(h.rest hno).image, (h.rest hno).published,
        (h.rest hno).logged⟩⟩

end Ledger

end Segstore
