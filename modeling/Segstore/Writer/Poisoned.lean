import Segstore.Writer.Housekeeping

/-!
# Poisoned writers

A poisoned writer refuses every write and every checkpoint.  What is left to its
compactions is to merge in memory and to write files of segments.
-/

namespace Segstore

variable {Id Item Seg F α : Type}

namespace SegmentedStore

/-- From one moment of a poisoned writer to a later one only the memory has changed,
and files of segments. -/
structure Frozen (s t : SegmentedStore Id Item Seg F) : Prop where
  poisoned : t.poisoned = true
  epoch : t.epoch = s.epoch
  published : t.published = s.published
  files : ∀ name, familyOf name ≠ some 's' →
    t.dir.files.lookup name = s.dir.files.lookup name

/-- Once poisoned, a writer is frozen. -/
def Freezes (s t : SegmentedStore Id Item Seg F) : Prop :=
  s.poisoned = true → Frozen s t

theorem Frozen.refl {s : SegmentedStore Id Item Seg F} (h : s.poisoned = true) : Frozen s s :=
  ⟨h, rfl, rfl, fun _ _ => rfl⟩

theorem Frozen.trans {s t u : SegmentedStore Id Item Seg F} (h : Frozen s t) (h' : Frozen t u) :
    Frozen s u where
  poisoned := h'.poisoned
  epoch := h'.epoch.trans h.epoch
  published := h'.published.trans h.published
  files := fun name hname => (h'.files name hname).trans (h.files name hname)

instance : Std.Refl (Freezes : SegmentedStore Id Item Seg F → _ → Prop) :=
  ⟨fun _ => .refl⟩

instance : IsTrans (SegmentedStore Id Item Seg F) Freezes :=
  ⟨fun _ _ _ h h' hpoisoned => (h hpoisoned).trans (h' (h hpoisoned).poisoned)⟩

/-- What begins with the check for poison does not get past it. -/
theorem refuses {s : SegmentedStore Id Item Seg F} (h : s.poisoned = true)
    (rest : Unit → StoreM Id Item Seg F α) :
    (checkPoisoned >>= rest) s = (.err poisonedError, s) := by
  refine Eff.bind_eq_err.mpr (.inl ?_)
  show (if s.poisoned then Eff.fail poisonedError else pure () : StoreM Id Item Seg F Unit) s = _
  rw [if_pos h]
  rfl

theorem checked_freezes (rest : Unit → StoreM Id Item Seg F α) :
    Respects Freezes (checkPoisoned >>= rest) := by
  intro s hpoisoned
  rw [refuses hpoisoned rest]
  exact .refl hpoisoned

theorem onContents_freezes (f : Contents Id Item Seg → Contents Id Item Seg) :
    Respects Freezes (onContents (F := F) f) :=
  .update fun _ hpoisoned => ⟨hpoisoned, rfl, rfl, fun _ _ => rfl⟩

theorem persistSegment_freezes (id : Nat) (seg : Seg) :
    Respects Freezes (persistSegment id seg : StoreM Id Item Seg F Unit) := by
  have hwrite : Respects Freezes (onDir (F := F) (Directory.writeCheckpoint (segPath id) 0
      (.segment seg : Payload Id Seg)) : StoreM Id Item Seg F Unit) := by
    intro s
    refine Ends.zoom ((Directory.writeCheckpoint_agreeOff (segPath id) 0 (.segment seg)
      s.dir).mono ?_)
    rintro r _ ⟨files, rfl, hagree⟩ hpoisoned
    refine ⟨hpoisoned, rfl, rfl, fun name hname => hagree.familyOf fun n hn => ?_⟩
    rcases List.mem_cons.mp hn with rfl | hn
    · simpa [eq_comm] using hname
    · rw [List.mem_singleton.mp hn]
      simpa [eq_comm] using hname
  exact hwrite.mapErr.bind fun _ =>
    .update fun _ hpoisoned => ⟨hpoisoned, rfl, rfl, fun _ _ => rfl⟩

variable [DecidableEq Id] (st : Store Id Item Seg)

theorem compactwise_freezes :
    Compactwise st (fun {_} p => Respects (Freezes : SegmentedStore Id Item Seg F → _ → Prop) p)
    where
  toCompositional := Respects.compositional _
  contents := onContents_freezes
  persist := persistSegment_freezes
  checkpoint := checked_freezes _

variable [F64 F]

/-- No call thaws a writer. -/
theorem exec_freezes (cmd : Cmd Id Item F) : Respects Freezes (cmd.exec st) := by
  have h := compactwise_freezes (F := F) st
  cases cmd with
  | add id item => exact checked_freezes _
  | extend items => exact checked_freezes _
  | delete id => exact checked_freezes _
  | checkpoint => exact h.checkpoint
  | compact => exact h.bind h.compact fun _ => h.pure _
  | compactTiers => exact h.bind h.compactTiers fun _ => h.pure _
  | forceMergeTo maxSegments => exact h.bind (h.forceMergeTo maxSegments) fun _ => h.pure _
  | reclaimTombstones minLiveRatio =>
      exact h.bind (h.reclaimTombstones minLiveRatio) fun _ => h.pure _

/-- No write returns. -/
theorem exec_refuses {s : SegmentedStore Id Item Seg F} (h : s.poisoned = true)
    {cmd : Cmd Id Item F} (hcmd : cmd.ops ≠ []) :
    cmd.exec st s = (.err poisonedError, s) := by
  cases cmd with
  | add id item => exact refuses h _
  | extend items => exact refuses h _
  | delete id => exact refuses h _
  | checkpoint => exact absurd rfl hcmd
  | compact => exact absurd rfl hcmd
  | compactTiers => exact absurd rfl hcmd
  | forceMergeTo maxSegments => exact absurd rfl hcmd
  | reclaimTombstones minLiveRatio => exact absurd rfl hcmd

end SegmentedStore

end Segstore
