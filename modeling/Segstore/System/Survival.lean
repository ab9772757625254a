import Segstore.System.Carried

/-!
# What survives faults

For segments that are lists of entries.  Memory and disk each hold a
subsequence of the issued operations that contains all acknowledged ones, and
memory always has the representation of the map these operations make.
-/

namespace Segstore

variable {Id Item Seg F : Type} [DecidableEq Id]

/-- Nothing is asked of an operation that is not asked of it in the other list. -/
abbrev Weaker (certain issued : List (Op Id Item × Bool)) : Prop :=
  List.Forall₂ (fun p q => p.1 = q.1 ∧ (q.2 = true → p.2 = true)) certain issued

omit [DecidableEq Id] in
theorem Weaker.refl (issued : List (Op Id Item × Bool)) : Weaker issued issued :=
  List.forall₂_same.mpr fun _ _ => ⟨rfl, id⟩

omit [DecidableEq Id] in
/-- While a call runs, nothing is asked of the disk yet. -/
theorem Weaker.append {certain issued : List (Op Id Item × Bool)} (h : Weaker certain issued)
    (ops : List (Op Id Item)) (acked : Bool) :
    Weaker (certain ++ flagged acked ops) (issued ++ flagged false ops) := by
  refine List.rel_append h ?_
  rw [flagged, flagged, List.forall₂_map_left_iff, List.forall₂_map_right_iff]
  exact List.forall₂_same.mpr fun _ _ => ⟨rfl, by simp⟩

/-! ## Invariants that tell what is certain -/

namespace Ledger

variable {st : Store Id Item Seg}

variable (st) in
/-- An invariant with what is certain, and what has been issued, in the course of
a call.  It gets through each step a call consists of. -/
structure Steady
    (P : List (Op Id Item × Bool) → List (Op Id Item × Bool) → Ledger Id Item Seg → Prop) :
    Prop where
  move : ∀ {certain issued l l'}, P certain issued l → Weaker certain issued → Move st l l' →
    P certain issued l'
  sync : ∀ {certain issued issued' l}, P certain issued l → Weaker certain issued' →
    P certain issued' l.sync
  lost : ∀ {certain issued l} ops, P certain issued l →
    P (certain ++ flagged false ops) (issued ++ flagged false ops) l
  append : ∀ {certain issued l} op, P certain issued l → Weaker certain issued →
    P (certain ++ [(op, false)]) (issued ++ [(op, false)]) (l.append op)
  apply : ∀ {certain issued l} op acked, P certain issued l → Weaker certain issued →
    P (certain ++ [(op, acked)]) (issued ++ [(op, false)]) ((l.append op).apply op)

namespace Steady

variable {P : List (Op Id Item × Bool) → List (Op Id Item × Bool) → Ledger Id Item Seg → Prop}
variable {certain issued : List (Op Id Item × Bool)} {l l' : Ledger Id Item Seg}

theorem moves (h : Steady st P) (hl : P certain issued l) (hweaker : Weaker certain issued)
    (hmoves : Moves st l l') : P certain issued l' := by
  induction hmoves with
  | refl => exact hl
  | tail _ hmove ih => exact h.move ih hweaker hmove

/-- A batch whose operations were all logged and applied. -/
theorem logged (h : Steady st P) {ops : List (Op Id Item)} (acked : Bool)
    (hlogged : Logged st l ops l') :
    ∀ {certain issued}, P certain issued l → Weaker certain issued →
      P (certain ++ flagged acked ops) (issued ++ flagged false ops) l' := by
  induction hlogged with
  | done => exact fun hl _ => by simpa using hl
  | @step l l₁ l' op ops hmoves _ ih =>
      intro certain issued hl hweaker
      have hweaker' := hweaker.append [op] acked
      have h₁ := h.moves (h.apply op acked hl hweaker) hweaker' hmoves
      simpa using ih h₁ hweaker'

/-- A call that did not return. -/
theorem issue (h : Steady st P) {ops : List (Op Id Item)} (hl : P issued issued l)
    (hissued : Issued st l ops l') :
    P (issued ++ flagged false ops) (issued ++ flagged false ops) l' := by
  induction hissued generalizing issued with
  | none hmoves => exact h.lost _ (h.moves hl (.refl _) hmoves)
  | @logged l l' op ops hmoves =>
      have h₁ := h.moves (h.append op hl (.refl _)) (.refl _) hmoves
      simpa using h.lost ops h₁
  | @step l l₁ l' op ops hmoves _ ih =>
      have h₁ := h.moves (h.apply op false hl (.refl _)) (.refl _) hmoves
      simpa using ih h₁

/-- A call that returned. -/
theorem acknowledge (h : Steady st P) {ops : List (Op Id Item)} (hl : P issued issued l)
    (hacked : Acked st l ops l') :
    P (issued ++ flagged true ops) (issued ++ flagged true ops) l' := by
  rcases hacked with ⟨rfl, hmoves⟩ | ⟨l₁, hlogged, hmoves⟩
  · simpa using h.moves hl (.refl _) hmoves
  · have h₁ := h.logged true hlogged hl (.refl _)
    exact h.moves (h.sync h₁ (.refl _)) (.refl _) hmoves

end Steady

end Ledger

/-! ## Subsequences of the issued operations -/

/-- The image and any log that a new process may find make a map of the issued
operations. -/
structure Recoverable (issued : List (Op Id Item × Bool))
    (im : Image Id (List (Id × Item))) (log : RecordLog Id Item) (base : List (Op Id Item)) :
    Prop where
  boots : ∃ boot, im.boot (defaultStore Id Item) im.segments = .ok boot ∧
    boot.Stores (history (fun _ => none) base)
  kept : ∀ n, log.synced ≤ n → Kept issued (base ++ log.records.take n)

/-- Memory and log hold what is certain, the disk what has been issued. -/
structure Survives (certain issued : List (Op Id Item × Bool))
    (l : Ledger Id Item (List (Id × Item))) : Prop where
  memory : ∃ ops, Kept certain ops ∧ l.contents.Stores (history (fun _ => none) ops)
  disk : ∃ base, Recoverable issued l.image l.log base ∧ Kept certain (base ++ l.log.records)

/-- Memory and log carry what is certain, and a new process recovers what has been
issued. -/
theorem survives_iff {certain issued : List (Op Id Item × Bool)}
    {l : Ledger Id Item (List (Id × Item))} :
    Survives certain issued l ↔ Carries (Kept certain) (Kept issued) l := by
  constructor
  · rintro ⟨hmemory, base, ⟨hboots, hkept⟩, hlog⟩
    exact ⟨hmemory, base, ⟨hboots, hkept⟩, hlog⟩
  · rintro ⟨hmemory, base, ⟨hboots, hfound⟩, hlog⟩
    exact ⟨hmemory, base, ⟨hboots, hfound⟩, hlog⟩

namespace Survives

variable {certain issued : List (Op Id Item × Bool)} {l l' : Ledger Id Item (List (Id × Item))}

theorem move (h : Survives certain issued l) (hweaker : Weaker certain issued)
    (hmove : Ledger.Move (defaultStore Id Item) l l') : Survives certain issued l' :=
  survives_iff.mpr ((survives_iff.mp h).move (fun hkept => hkept.weaken hweaker) hmove)

/-- Once the log is synced, the disk holds what the log holds. -/
theorem sync {issued' : List (Op Id Item × Bool)} (h : Survives certain issued l)
    (hweaker : Weaker certain issued') : Survives certain issued' l.sync :=
  survives_iff.mpr ((survives_iff.mp h).sync fun hkept => hkept.weaken hweaker)

/-- Operations that never reached the log. -/
theorem lost (h : Survives certain issued l) (ops : List (Op Id Item)) :
    Survives (certain ++ flagged false ops) (issued ++ flagged false ops) l :=
  survives_iff.mpr ((survives_iff.mp h).imp (fun hkept => hkept.append_lost ops)
    fun hkept => hkept.append_lost ops)

/-- An operation that is logged, but not applied. -/
theorem append (h : Survives certain issued l) (hweaker : Weaker certain issued)
    (op : Op Id Item) :
    Survives (certain ++ [(op, false)]) (issued ++ [(op, false)]) (l.append op) :=
  survives_iff.mpr ((survives_iff.mp h).append (fun hkept => hkept.concat_lose op)
    (fun hkept => hkept.concat_lose op)
    fun hkept => ⟨hkept.concat_keep op false, (hkept.weaken hweaker).concat_keep op false⟩)

/-- An operation that is logged and applied. -/
theorem apply (h : Survives certain issued l) (hweaker : Weaker certain issued)
    (op : Op Id Item) (acked : Bool) :
    Survives (certain ++ [(op, acked)]) (issued ++ [(op, false)]) ((l.append op).apply op) :=
  survives_iff.mpr ((survives_iff.mp h).apply (fun hkept => hkept.concat_lose op)
    fun hkept => ⟨hkept.concat_keep op acked, (hkept.weaken hweaker).concat_keep op false⟩)

/-- What survives gets through each step of a call. -/
theorem steady : Ledger.Steady (defaultStore Id Item) Survives where
  move := Survives.move
  sync := Survives.sync
  lost := fun ops h => h.lost ops
  append := fun op h hweaker => h.append hweaker op
  apply := fun op acked h hweaker => h.apply hweaker op acked

end Survives

namespace Recoverable

variable {issued : List (Op Id Item × Bool)} {im : Image Id (List (Id × Item))}
variable {log : RecordLog Id Item} {base : List (Op Id Item)}

theorem recovers (h : Recoverable issued im log base) : Recovers (Kept issued) im log base :=
  ⟨h.boots, h.kept⟩

/-- A new process finds a shorter log. -/
theorem settle (h : Recoverable issued im log base) (keep : Nat) :
    Recoverable issued im (log.settled keep) base :=
  ⟨h.boots, (h.recovers.settle keep).found⟩

/-- Replay brings back what the log holds. -/
theorem start (h : Recoverable issued im log base)
    {boot : Contents Id Item (List (Id × Item))}
    (hboot : im.boot (defaultStore Id Item) im.segments = .ok boot) (flushThreshold keep : Nat) :
    Survives issued issued {
      contents := boot.replay (defaultStore Id Item) flushThreshold (log.settled keep).records
      image := im
      log := log.settled keep
      published := boot.toPubState } :=
  survives_iff.mpr (h.recovers.start hboot flushThreshold keep)

end Recoverable

/-- What survives is an invariant of every run. -/
theorem resilient_survives :
    Resilient (defaultStore Id Item) (fun issued l => Survives issued issued l)
      (fun issued im log => ∃ base, Recoverable issued im log base) where
  issue := Survives.steady.issue
  acknowledge := Survives.steady.acknowledge
  stop := fun h => h.disk.imp fun _ h => h.1
  settle := fun keep h => h.imp fun _ h => h.settle keep
  start := by
    rintro issued im log boot flushThreshold keep ⟨base, h⟩ hboot
    exact h.start hboot flushThreshold keep

end Segstore
