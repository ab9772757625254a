import Segstore.Disk.Garbage
import Segstore.Writer.Parts

/-!
# The memory during a call

What calls do to the writer's own fields, on any directory and under any fates:
which memory they leave, that a call that fails has published nothing, and that
a write that does not compact takes no segment away.
-/

namespace Segstore

variable {Id Item Seg F α : Type}

/-- Neither the view nor the epoch has changed. -/
structure Unpublished (s t : SegmentedStore Id Item Seg F) : Prop where
  published : t.published = s.published
  epoch : t.epoch = s.epoch

/-- The memory has not changed either. -/
structure OnlyFiles (s t : SegmentedStore Id Item Seg F) : Prop extends Unpublished s t where
  memory : t.toContents = s.toContents

instance : Std.Refl (Unpublished : SegmentedStore Id Item Seg F → _ → Prop) :=
  ⟨fun _ => ⟨rfl, rfl⟩⟩

instance : IsTrans (SegmentedStore Id Item Seg F) Unpublished :=
  ⟨fun _ _ _ h h' => ⟨h'.published.trans h.published, h'.epoch.trans h.epoch⟩⟩

instance : Std.Refl (OnlyFiles : SegmentedStore Id Item Seg F → _ → Prop) :=
  ⟨fun _ => ⟨⟨rfl, rfl⟩, rfl⟩⟩

instance : IsTrans (SegmentedStore Id Item Seg F) OnlyFiles :=
  ⟨fun _ _ _ h h' => ⟨IsTrans.trans _ _ _ h.toUnpublished h'.toUnpublished,
    h'.memory.trans h.memory⟩⟩

/-- Under the options `o`, which stay, no segment is taken away. -/
def Retains (o : Options F) (s t : SegmentedStore Id Item Seg F) : Prop :=
  s.opts = o → t.opts = o ∧ s.segmentIds ⊆ t.segmentIds

instance (o : Options F) : Std.Refl (Retains o : SegmentedStore Id Item Seg F → _ → Prop) :=
  ⟨fun _ ho => ⟨ho, List.Subset.refl _⟩⟩

instance (o : Options F) : IsTrans (SegmentedStore Id Item Seg F) (Retains o) := by
  refine ⟨fun s t u hst htu ho => ?_⟩
  obtain ⟨ho', hids⟩ := hst ho
  obtain ⟨ho'', hids'⟩ := htu ho'
  exact ⟨ho'', List.Subset.trans hids hids'⟩

/-- A write that starts no compaction under the options. -/
def Cmd.Quiet (o : Options F) : Cmd Id Item F → Prop
  | .add _ _ => o.autoCompact = false
  | .extend _ => o.autoCompact = false
  | .delete _ => True
  | _ => False

theorem Respects.unpublished {p : StoreM Id Item Seg F α} (h : Respects OnlyFiles p) :
    Respects Unpublished p :=
  fun s => (h s).mono fun _ _ ht => ht.toUnpublished

namespace SegmentedStore

/-! ## Files -/

theorem onDir_onlyFiles (p : DirM Id Item Seg α) : Respects OnlyFiles (onDir (F := F) p) :=
  fun _ => ⟨⟨rfl, rfl⟩, rfl⟩

theorem onWal_onlyFiles (call : Call) (p : String → DirM Id Item Seg Unit) :
    Respects OnlyFiles (onWal (F := F) call p) :=
  onWal_respects fun _ _ _ => ⟨⟨rfl, rfl⟩, rfl⟩

theorem onContents_unpublished (f : Contents Id Item Seg → Contents Id Item Seg) :
    Respects Unpublished (onContents (F := F) f) :=
  .update fun _ => ⟨rfl, rfl⟩

theorem persistSegment_onlyFiles (id : Nat) (seg : Seg) :
    Respects OnlyFiles (persistSegment id seg : StoreM Id Item Seg F Unit) :=
  .bind (.mapErr (onDir_onlyFiles _)) fun _ => .update fun _ => ⟨⟨rfl, rfl⟩, rfl⟩

theorem persistAll_onlyFiles (todo : List (Nat × Seg)) :
    Respects OnlyFiles (persistAll todo : StoreM Id Item Seg F Unit) := by
  induction todo with
  | nil => exact .pure ()
  | cons p todo ih => exact .bind (persistSegment_onlyFiles p.1 p.2) fun _ => ih

theorem gcOrphanSegments_onlyFiles (keep : List Nat) (garbage : List String) :
    Respects OnlyFiles (gcOrphanSegments keep garbage : StoreM Id Item Seg F Unit) :=
  .bind (.update fun _ => ⟨⟨rfl, rfl⟩, rfl⟩) fun _ => onDir_onlyFiles _

theorem gcOrphanSegments_noError (keep : List Nat) (garbage : List String)
    (s : SegmentedStore Id Item Seg F) :
    Ends (gcOrphanSegments keep garbage) s (fun r _ => ∀ e, r ≠ .err e) := by
  rw [gcOrphanSegments, Ends.update_bind_iff]
  exact Ends.zoom ((Directory.collectGarbage_deletes _ _ _).mono fun _ _ h => h.2.1)

/-- The manifest is written from the memory without the marks of segments that are
gone. -/
theorem writeManifest_memory (s : SegmentedStore Id Item Seg F) :
    Ends writeManifest s (fun _ t => Unpublished s t ∧
      t.toContents = s.toContents.retainSuperseded) := by
  rw [writeManifest, onContents, Ends.update_bind_iff, Ends.get_bind_iff]
  refine Ends.attempt_bind (onDir_onlyFiles _ _) ?_ ?_ ?_
  · exact fun _ t ht => ⟨⟨ht.published, ht.epoch⟩, ht.memory⟩
  · exact fun e t ht => ⟨⟨ht.published, ht.epoch⟩, ht.memory⟩
  · exact fun t ht => ⟨⟨ht.published, ht.epoch⟩, ht.memory⟩

/-! ## Checkpoints -/

variable [DecidableEq Id] (st : Store Id Item Seg)

/-- A checkpoint seals the buffer and drops marks; when it fails, it has published
nothing. -/
theorem checkpoint_memory (s : SegmentedStore Id Item Seg F) :
    Ends (checkpoint st) s (fun r t => (∀ e, r = .err e → Unpublished s t) ∧
      (r = .ok () → t.toContents = (s.toContents.flushBuffer st).retainSuperseded) ∧
      (t.toContents = s.toContents ∨ t.toContents = s.toContents.flushBuffer st ∨
        t.toContents = (s.toContents.flushBuffer st).retainSuperseded)) := by
  rw [checkpoint]
  refine Ends.bind (R := fun r t => t = s ∧ r ≠ .crash) ?_ ?_ ?_ ?_
  · rw [checkPoisoned, Ends.read_bind_iff]
    split
    · exact Ends.fail_iff.mpr ⟨rfl, by simp⟩
    · exact Ends.pure_iff.mpr ⟨rfl, by simp⟩
  case refine_3 =>
    rintro e t ⟨rfl, -⟩
    exact ⟨fun _ _ => ⟨rfl, rfl⟩, by simp, .inl rfl⟩
  case refine_4 => exact fun t ht => absurd rfl ht.2
  rintro ⟨⟩ t ⟨rfl, -⟩
  rw [onContents, Ends.update_bind_iff, Ends.get_bind_iff]
  refine Ends.bind (persistAll_onlyFiles _ _) ?_ ?_ ?_
  case refine_2 =>
    exact fun e u hu => ⟨fun _ _ => ⟨hu.published, hu.epoch⟩, by simp, .inr (.inl hu.memory)⟩
  case refine_3 =>
    exact fun u hu => ⟨by simp, by simp, .inr (.inl hu.memory)⟩
  rintro ⟨⟩ u hu
  have hretain : ∀ {v : SegmentedStore Id Item Seg F},
      v.toContents = u.toContents.retainSuperseded →
        v.toContents = (t.toContents.flushBuffer st).retainSuperseded := fun hv => by
    rw [hv, hu.memory]
  refine Ends.bind (writeManifest_memory u) ?_ ?_ ?_
  case refine_2 =>
    exact fun e v hv => ⟨fun _ _ => ⟨hv.1.published.trans hu.published,
      hv.1.epoch.trans hu.epoch⟩, by simp, .inr (.inr (hretain hv.2))⟩
  case refine_3 =>
    exact fun v hv => ⟨by simp, by simp, .inr (.inr (hretain hv.2))⟩
  rintro ⟨⟩ v hv
  rw [rotateWal, Ends.update_bind_iff]
  refine Ends.bind ((gcOrphanSegments_onlyFiles _ _ _).and
    (gcOrphanSegments_noError _ _ _)) ?_ ?_ ?_
  · rintro ⟨⟩ w ⟨hw, -⟩
    have hmem := hretain (hw.memory.trans hv.2)
    rw [republish, Ends.update_iff]
    exact ⟨by simp, fun _ => hmem, .inr (.inr hmem)⟩
  · exact fun e w hw => absurd rfl (hw.2 e)
  · exact fun w hw => ⟨by simp, by simp, .inr (.inr (hretain (hw.1.memory.trans hv.2)))⟩

theorem checkpoint_onError : RespectsOnError Unpublished (checkpoint st : StoreM _ _ _ F _) :=
  fun s => (checkpoint_memory st s).mono fun _ _ h => h.1

omit [DecidableEq Id] in
theorem withSegmentsAfter_noError (stats : CompactionStats)
    (s : SegmentedStore Id Item Seg F) :
    Ends (withSegmentsAfter stats) s (fun r _ => ∀ e, r ≠ .err e) := by
  rw [withSegmentsAfter, Ends.get_bind_iff]
  exact Ends.pure_iff.mpr (by simp)

/-! ## Merges -/

/-- `merge_group` replaces the group when it returns; else an id is lost at most. -/
theorem mergeGroup_memory (indices : List Nat) (s : SegmentedStore Id Item Seg F) :
    Ends (mergeGroup st indices) s (fun r t => Unpublished s t ∧
      (∀ n, r = .ok n → n = st.segmentLen (s.mergedSegment st indices) ∧
        t.toContents = s.toContents.merge st indices) ∧
      ((∀ n, r ≠ .ok n) → t.toContents = s.toContents.allocId)) := by
  rw [mergeGroup, Ends.get_bind_iff]
  refine Ends.bind (R := fun r t => Unpublished s t ∧
    (r = .ok () → t.toContents = s.toContents.merge st indices) ∧
    (r ≠ .ok () → t.toContents = s.toContents.allocId)) ?_ ?_ ?_ ?_
  · rw [replaceGroup, Ends.get_bind_iff]
    split
    · rename_i hlen
      rw [onContents, Ends.update_bind_iff]
      refine Ends.bind (persistSegment_onlyFiles _ _ _) ?_ ?_ ?_
      · rintro ⟨⟩ t ht
        have hmem : t.toContents = s.toContents.allocId := ht.memory
        rw [onContents, Ends.update_iff, Contents.merge, if_pos hlen, ← hmem]
        exact ⟨⟨ht.published, ht.epoch⟩, fun _ => rfl, fun hr => absurd rfl hr⟩
      · exact fun e t ht => ⟨⟨ht.published, ht.epoch⟩, by simp, fun _ => ht.memory⟩
      · exact fun t ht => ⟨⟨ht.published, ht.epoch⟩, by simp, fun _ => ht.memory⟩
    · rename_i hlen
      rw [onContents, Ends.update_iff, Contents.merge, if_neg hlen]
      exact ⟨⟨rfl, rfl⟩, fun _ => rfl, fun hr => absurd rfl hr⟩
  · rintro ⟨⟩ t ⟨hunpub, hok, -⟩
    refine Ends.pure_iff.mpr ⟨hunpub, ?_, fun hr => absurd rfl (hr _)⟩
    rintro n ⟨⟩
    exact ⟨rfl, hok rfl⟩
  · rintro e t ⟨hunpub, -, herr⟩
    exact ⟨hunpub, by simp, fun _ => herr (by simp)⟩
  · rintro t ⟨hunpub, -, herr⟩
    exact ⟨hunpub, by simp, fun _ => herr (by simp)⟩

omit [DecidableEq Id] in
theorem mergewise_unpublished :
    Mergewise (fun {_} (p : StoreM Id Item Seg F _) => Respects Unpublished p) where
  toCompositional := Respects.compositional _
  contents := onContents_unpublished
  persist := fun id seg => (persistSegment_onlyFiles id seg).unpublished

/-! ## Compactions that fail -/

theorem compact_onError : RespectsOnError Unpublished (compact st : StoreM _ _ _ F _) :=
  .later (mergewise_unpublished.compactMerging st) fun _ =>
    (checkpoint_onError st).bind fun _ => withSegmentsAfter_noError _

theorem finishCompaction_onError (stats : CompactionStats) :
    RespectsOnError Unpublished (finishCompaction st stats : StoreM _ _ _ F _) := by
  rw [finishCompaction]
  split
  · exact (checkpoint_onError st).bind fun _ => withSegmentsAfter_noError _
  · exact .of_noError (withSegmentsAfter_noError _)

theorem compactBy_onError (next : Options F → Contents Id Item Seg → Option (List Nat)) :
    RespectsOnError Unpublished (compactBy st next : StoreM _ _ _ F _) :=
  .later (mergewise_unpublished.mergingBy st next) fun _ => finishCompaction_onError st _

theorem forceMergeTo_onError (maxSegments : Nat) :
    RespectsOnError Unpublished (forceMergeTo st maxSegments : StoreM _ _ _ F _) := by
  rw [forceMergeTo_eq]
  split
  · exact compact_onError st
  · exact compactBy_onError st _

variable [F64 F]

theorem compactTiers_onError :
    RespectsOnError Unpublished (compactTiers st : StoreM _ _ _ F _) := by
  rw [compactTiers_eq]
  exact compactBy_onError st _

theorem reclaimTombstones_onError (minLiveRatio : F) :
    RespectsOnError Unpublished (reclaimTombstones st minLiveRatio : StoreM _ _ _ F _) :=
  .later (mergewise_unpublished.reclaimMerging st minLiveRatio) fun _ =>
    finishCompaction_onError st _

/-! ## Writes that do not compact -/

omit [F64 F] in
theorem flushBuffer_retains (o : Options F) :
    Respects (Retains o) (onContents (F := F) (Contents.flushBuffer st)) := by
  refine .update fun s ho => ⟨ho, ?_⟩
  by_cases hempty : s.buffer = []
  · rw [Contents.flushBuffer_of_empty s.toContents st hempty]
    exact List.Subset.refl _
  · rw [Contents.flushBuffer_segmentIds st hempty]
    exact List.subset_append_left _ _

/-- Without automatic compaction the end of a write seals at most. -/
theorem sealAndCompact_retains {o : Options F} (hauto : o.autoCompact = false)
    (beforeCompact : StoreM Id Item Seg F Unit) :
    Respects (Retains o) (sealAndCompact st beforeCompact) := by
  intro s
  rw [sealAndCompact, Ends.get_bind_iff]
  split
  · refine Ends.bind (flushBuffer_retains st o s) ?_ (fun _ _ ht => ht) fun _ ht => ht
    rintro ⟨⟩ t ht
    rw [Ends.get_bind_iff]
    split
    · rename_i hdue
      intro ho
      rw [(ht ho).1, hauto, Bool.false_and] at hdue
      cases hdue
    · exact Ends.pure_iff.mpr ht
  · exact Ends.pure_iff.mpr (Std.Refl.refl s)

omit [F64 F] in
/-- What every write does first. -/
theorem apply_retains (o : Options F) (op : Op Id Item) :
    Respects (Retains o) (onContents (F := F) fun c : Contents Id Item Seg => c.apply op) :=
  .update fun s ho => ⟨ho, by rw [Contents.apply_segmentIds]; exact List.Subset.refl _⟩

omit [DecidableEq Id] [F64 F] in
theorem appendWal_retains (o : Options F) (op : Op Id Item) :
    Respects (Retains o) (appendWal op : StoreM Id Item Seg F Unit) :=
  onWal_respects fun _ _ _ ho => ⟨ho, List.Subset.refl _⟩

omit [DecidableEq Id] [F64 F] in
theorem syncWal_retains (o : Options F) :
    Respects (Retains o) (syncWal : StoreM Id Item Seg F Unit) :=
  onWal_respects fun _ _ _ ho => ⟨ho, List.Subset.refl _⟩

theorem extendItems_retains {o : Options F} (hauto : o.autoCompact = false)
    (items : List (Id × Item)) : Respects (Retains o) (extendItems st items) := by
  induction items with
  | nil => exact .pure ()
  | cons e items ih =>
      refine .bind ?_ fun _ => ih
      exact .bind (appendWal_retains o _) fun _ => .bind (apply_retains o _) fun _ =>
        sealAndCompact_retains st hauto _

/-- A write that starts no compaction keeps every segment. -/
theorem exec_retains {o : Options F} {cmd : Cmd Id Item F} (hcmd : cmd.Quiet o) :
    Respects (Retains o) (cmd.exec st) := by
  cases cmd with
  | add id item =>
      exact .bind checkPoisoned_respects fun _ => .bind (appendWal_retains o _) fun _ =>
        .bind (syncWal_retains o) fun _ => .bind (apply_retains o _) fun _ =>
          sealAndCompact_retains st hcmd _
  | extend items =>
      refine .bind checkPoisoned_respects fun _ =>
        .bind (extendItems_retains st hcmd items) fun _ => ?_
      split
      · exact .pure ()
      · exact syncWal_retains o
  | delete id =>
      exact .bind checkPoisoned_respects fun _ => .bind (appendWal_retains o _) fun _ =>
        .bind (syncWal_retains o) fun _ => apply_retains o _
  | checkpoint => cases hcmd
  | compact => cases hcmd
  | compactTiers => cases hcmd
  | forceMergeTo maxSegments => cases hcmd
  | reclaimTombstones minLiveRatio => cases hcmd

end SegmentedStore

end Segstore
