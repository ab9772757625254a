import Mathlib.Data.List.Induction
import Segstore.System.LiveMap
import Segstore.System.Lasting
import Segstore.Writer.Reload

/-!
# Runs of a store that does not list ids

Over runs without faults from an empty directory: every id whose last operation
was an add has a live copy of what was added, and no copy of any other id is
live, whatever was merged in between and whatever the segments are.
-/

namespace Segstore

variable {Id Item Seg F : Type} [DecidableEq Id]

/-! ## The last operation on an id -/

/-- The last of the operations that is about the id. -/
def lastOp (ops : List (Op Id Item)) (id : Id) : Option (Op Id Item) :=
  (ops.filter (fun op => decide (op.id = id))).getLast?

theorem lastOp_concat (ops : List (Op Id Item)) (op : Op Id Item) (id : Id) :
    lastOp (ops ++ [op]) id = if op.id = id then some op else lastOp ops id := by
  rw [lastOp, lastOp, List.filter_append]
  split
  · rename_i h
    simp [h]
  · rename_i h
    simp [h]

/-- The map of a history holds what the last operation on the id says. -/
theorem history_eq_lastOp (ops : List (Op Id Item)) (id : Id) :
    history nothing ops id = (lastOp ops id).bind fun op => op.write.value := by
  induction ops using List.reverseRecOn with
  | nil => rfl
  | append_singleton ops op ih =>
      rw [history_concat, lastOp_concat]
      by_cases h : op.id = id
      · rw [if_pos h, Write.run_apply]
        cases op with
        | add j item => exact if_pos h.symm
        | delete j => exact if_pos h.symm
      · rw [if_neg h, Op.run_of_ne (Ne.symm h), ih]

theorem lastOp_mem {ops : List (Op Id Item)} {id : Id} {op : Op Id Item}
    (h : lastOp ops id = some op) : op ∈ ops ∧ op.id = id := by
  obtain ⟨hmem, hid⟩ := List.mem_filter.mp (List.mem_of_getLast? h)
  exact ⟨hmem, of_decide_eq_true hid⟩

/-- An id that was never added or was deleted last is not in the map. -/
theorem history_eq_none {ops : List (Op Id Item)} {id : Id}
    (h : (∀ item, Op.add id item ∉ ops) ∨ lastOp ops id = some (.delete id)) :
    history nothing ops id = none := by
  rw [history_eq_lastOp]
  rcases h with hnever | hlast
  · cases hlast : lastOp ops id with
    | none => rfl
    | some op =>
        obtain ⟨hmem, rfl⟩ := lastOp_mem hlast
        cases op with
        | add id item => exact absurd hmem (hnever item)
        | delete id => rfl
  · rw [hlast]
    rfl

/-! ## The invariant -/

variable (st : Store Id Item Seg) (entries : Seg → List (Id × Item))

/-- The memory covers the map, and the image boots to a memory that covers what
was issued before the live log. -/
structure Covered (issued : List (Op Id Item)) (l : Ledger Id Item Seg) : Prop where
  covers : l.contents.Covers entries (history nothing issued)
  committed : ∃ base boot, issued = base ++ l.log.records ∧
    l.image.boot st l.image.segments = .ok boot ∧ boot.Covers entries (history nothing base)

variable {st entries}

namespace Contents.Covers

variable {c : Contents Id Item Seg} {m : Id → Option Item}

/-- A committed memory boots to one that covers the same map. -/
theorem reload (h : c.Covers entries m) (hst : st.Unlisted entries) (hbuffer : c.buffer = [])
    (epoch : Nat) :
    ∃ boot, (c.image epoch).boot st c.segments = .ok boot ∧ boot.Covers entries m := by
  obtain ⟨boot, hboot, hownerless, hsegments, hids, htombs, hempty, -⟩ :=
    h.ownerless.reload hst.itemIds epoch
  have hsealed : boot.sealed = c.sealed := by
    rw [PubState.sealed, PubState.sealed, hsegments, hids]
  refine ⟨boot, hboot, hownerless, ?_, ?_, ?_, ?_⟩
  · rw [hempty]
    exact fun _ _ hmem => absurd hmem List.not_mem_nil
  · rw [htombs]
    exact h.deleted
  · rw [hsealed, hempty, ← hbuffer]
    exact h.value
  · rw [hsealed, htombs]
    exact h.absent

end Contents.Covers

namespace Covered

variable {issued : List (Op Id Item)} {l : Ledger Id Item Seg}

theorem commit (hst : st.Unlisted entries)
    (h : l.contents.Covers entries (history nothing issued)) :
    Covered st entries issued (l.commit st) := by
  have hcovers := (h.flushBuffer hst).retainSuperseded
  obtain ⟨boot, hboot, hbooted⟩ := hcovers.reload hst (Contents.flushBuffer_buffer _ st)
    (l.image.epoch + 1)
  exact ⟨hcovers, issued, boot, (List.append_nil _).symm, hboot, hbooted⟩

theorem step (hst : st.Unlisted entries) {A : Deed Id Item Seg → Prop} {flushThreshold : Nat}
    (h : Covered st entries issued l) {ops : List (Op Id Item)} {l' : Ledger Id Item Seg}
    (hstep : Step st A flushThreshold l ops l') : Covered st entries (issued ++ ops) l' := by
  cases hstep with
  | @write op _ =>
      obtain ⟨base, boot, hbase, hboot⟩ := h.committed
      refine ⟨?_, base, boot, ?_, hboot⟩
      · rw [history_concat]
        exact (h.covers.apply op).sealFull hst flushThreshold
      · rw [hbase, List.append_assoc]
        rfl
  | sync =>
      rw [List.append_nil]
      exact ⟨h.covers, h.committed⟩
  | sealRest =>
      rw [List.append_nil]
      exact ⟨h.covers.flushBuffer hst, h.committed⟩
  | commit hmerged =>
      rw [List.append_nil]
      exact commit hst (hmerged.induction (I := fun c => c.Covers entries (history nothing issued))
        (fun hc _ _ => hc.merge hst _) (h.covers.flushBuffer hst))
  | compact =>
      rw [List.append_nil]
      exact commit hst ((h.covers.flushBuffer hst).compacted hst)

theorem reopen (hst : st.Unlisted entries) (h : Covered st entries issued l)
    (flushThreshold : Nat) :
    ∃ boot, l.image.boot st l.image.segments = .ok boot ∧
      Covered st entries issued {
        contents := boot.replay st flushThreshold l.log.records
        image := l.image
        log := l.log
        published := boot.toPubState } := by
  obtain ⟨base, boot, hbase, hboot, hcovers⟩ := h.committed
  refine ⟨boot, hboot, ?_, base, boot, hbase, hboot, hcovers⟩
  rw [hbase, history_append]
  exact hcovers.replay hst flushThreshold l.log.records

theorem lasting [F64 F] (hst : st.Unlisted entries) (A : Deed Id Item Seg → Prop)
    (O : Options F → Prop) : Lasting st A O (Covered st entries) :=
  ⟨fun _ h hstep => h.step hst hstep, fun _ h => h.reopen hst _⟩

end Covered

theorem covered_empty : Covered st entries [] (emptyLedger : Ledger Id Item Seg) := by
  have hcovers : (emptyLedger : Ledger Id Item Seg).contents.Covers entries nothing := by
    refine ⟨⟨⟨rfl, .nil, ?_⟩, ⟨.nil, ?_, ?_⟩, fun seg id => not_marked_empty seg id,
      fun _ => rfl, fun hne => absurd rfl hne⟩, ?_, ?_, fun _ _ hvalue => ?_,
      fun _ _ => .inr fun _ hp => absurd hp List.not_mem_nil⟩
    · exact fun k hk => absurd hk List.not_mem_nil
    · exact fun id => Iff.rfl
    · exact fun id hid => absurd hid List.not_mem_nil
    · exact fun id item hmem => absurd hmem List.not_mem_nil
    · exact fun id hid => absurd hid List.not_mem_nil
    · cases hvalue
  exact ⟨hcovers, [], emptyLedger.contents, rfl, rfl, hcovers⟩

/-! ## Newest values -/

variable [F64 F]

/-- A store that does not list ids loses no newest value and shows no deleted id. -/
theorem unlisted_newest_live (hst : st.Unlisted entries) (fileBacked : Bool) (opts : Options F)
    (keep : Nat) (events : List (Event Id Item F))
    (hevents : ∀ e ∈ Event.reopen opts keep [] :: events, e.Faultless fileBacked) :
    ∃ s, (Proc.run st (.closed (.empty fileBacked)) [] (.reopen opts keep [] :: events)).1 =
        .running s ∧
      (s.buffer.map Prod.fst).Nodup ∧
      (∀ id item, lastOp (events.flatMap Event.ops) id = some (.add id item) →
        s.HasLive entries id item) ∧
      ∀ id, (∀ item, Op.add id item ∉ events.flatMap Event.ops) ∨
          lastOp (events.flatMap Event.ops) id = some (.delete id) →
        ∀ item, ¬ s.HasLive entries id item := by
  obtain ⟨s, im, hrun, -, hI⟩ := (Covered.lasting hst (fun _ => True) (fun _ => True)).run_opened
    (l := emptyLedger) (coherent_empty fileBacked) rfl rfl rfl covered_empty hevents
    (fun e _ => by cases e <;> trivial) (Proc.heeds_true _ _ _)
  refine ⟨s, congrArg Prod.fst hrun, hI.covers.ownerless.buffered.nodup,
    fun id item hlast => ?_, fun id hgone item => ?_⟩
  · refine hI.covers.hasLive ?_
    rw [history_eq_lastOp, hlast]
    rfl
  · exact hI.covers.not_hasLive (history_eq_none hgone) item

/-- A value is replaced after its first copy was sealed, another id is deleted,
and everything is compacted. -/
theorem unlisted_newest_live_compacted :
    ∃ s, (Proc.run (untrackedStore Nat Nat fun _ _ => none)
        (.closed (.empty false)) []
        [.reopen (.new (F := Rat) 2) 0 [], .call (.add 1 5) [], .call (.add 2 6) [],
          .call (.add 1 7) [], .call (.delete 2) [], .call .compact []]).1 = .running s ∧
      s.HasLive id 1 7 ∧ ∀ item, ¬ s.HasLive id 2 item := by
  obtain ⟨s, hrun, -, hlive, hgone⟩ := unlisted_newest_live
    (untrackedStore_unlisted fun _ _ => none) false (.new (F := Rat) 2) 0
    [.call (.add 1 5) [], .call (.add 2 6) [], .call (.add 1 7) [], .call (.delete 2) [],
      .call .compact []] (by simp [Event.Faultless, Options.new])
  exact ⟨s, hrun, hlive 1 7 rfl, hgone 2 (.inr rfl)⟩

end Segstore
