import Segstore.System.Runs
import Segstore.Writer.Reload

/-!
# What memory and disk carry

For segments that are lists of entries.  Memory and log carry operations of which
one property is certain; of what a new process may find, another is.  Each step of
a call keeps both.
-/

namespace Segstore

variable {Id Item : Type} [DecidableEq Id]

/-- The image and any log that a new process may find make a map of operations with
this property. -/
structure Recovers (issued : List (Op Id Item) → Prop)
    (im : Image Id (List (Id × Item))) (log : RecordLog Id Item) (base : List (Op Id Item)) :
    Prop where
  boots : ∃ boot, im.boot (defaultStore Id Item) im.segments = .ok boot ∧
    boot.Stores (history (fun _ => none) base)
  found : ∀ n, log.synced ≤ n → issued (base ++ log.records.take n)

/-- Memory and log make a map of what is certain, the disk of what has been issued. -/
structure Carries (certain issued : List (Op Id Item) → Prop)
    (l : Ledger Id Item (List (Id × Item))) : Prop where
  memory : ∃ ops, certain ops ∧ l.contents.Stores (history (fun _ => none) ops)
  disk : ∃ base, Recovers issued l.image l.log base ∧ certain (base ++ l.log.records)

namespace Recovers

variable {issued : List (Op Id Item) → Prop} {im : Image Id (List (Id × Item))}
variable {log : RecordLog Id Item} {base : List (Op Id Item)}

theorem imp {issued' : List (Op Id Item) → Prop} (h : Recovers issued im log base)
    (hissued : ∀ {ops}, issued ops → issued' ops) : Recovers issued' im log base :=
  ⟨h.boots, fun n hn => hissued (h.found n hn)⟩

/-- A record that a new process may or may not find. -/
theorem append {issued' : List (Op Id Item) → Prop} (h : Recovers issued im log base)
    (hissued : ∀ {ops}, issued ops → issued' ops) {op : Op Id Item}
    (hlast : issued' (base ++ log.records ++ [op])) :
    Recovers issued' im (log.append op) base := by
  refine ⟨h.boots, fun n hn => ?_⟩
  show issued' (base ++ (log.records ++ [op]).take n)
  by_cases hlen : n ≤ log.records.length
  · rw [List.take_append_of_le_length hlen]
    exact hissued (h.found n hn)
  · rw [List.take_of_length_le (by simp; omega), ← List.append_assoc]
    exact hlast

/-- A new process finds a shorter log. -/
theorem settle (h : Recovers issued im log base) (keep : Nat) :
    Recovers issued im (log.settled keep) base := by
  refine ⟨h.boots, fun n hn => ?_⟩
  show issued (base ++ (log.records.take (max log.synced keep)).take n)
  rw [List.take_take]
  exact h.found _ (Nat.le_min.mpr ⟨hn, Nat.le_max_left _ _⟩)

end Recovers

namespace Carries

variable {certain issued certain' issued' : List (Op Id Item) → Prop}
variable {l l' : Ledger Id Item (List (Id × Item))}

theorem imp (h : Carries certain issued l) (hcertain : ∀ {ops}, certain ops → certain' ops)
    (hissued : ∀ {ops}, issued ops → issued' ops) : Carries certain' issued' l := by
  obtain ⟨ops, hops, hstores⟩ := h.memory
  obtain ⟨base, hrec, hlog⟩ := h.disk
  exact ⟨⟨ops, hcertain hops, hstores⟩, base, hrec.imp hissued, hcertain hlog⟩

/-- Memory may be exchanged for one that stores the same. -/
theorem withContents (h : Carries certain issued l) (himage : l'.image = l.image)
    (hlog : l'.log = l.log) (hcontents : ∀ {m}, l.contents.Stores m → l'.contents.Stores m) :
    Carries certain issued l' := by
  obtain ⟨ops, hops, hstores⟩ := h.memory
  refine ⟨⟨ops, hops, hcontents hstores⟩, ?_⟩
  rw [himage, hlog]
  exact h.disk

/-! ## Moves -/

/-- The memory may change in any way that keeps the map. -/
theorem mapContents (h : Carries certain issued l)
    {f : Contents Id Item (List (Id × Item)) → Contents Id Item (List (Id × Item))}
    (hf : ∀ {m}, l.contents.Stores m → (f l.contents).Stores m) :
    Carries certain issued (l.mapContents f) :=
  h.withContents rfl rfl hf

/-- Once the log is synced, the disk holds what the log holds. -/
theorem sync (h : Carries certain issued l) (hissued : ∀ {ops}, certain ops → issued' ops) :
    Carries certain issued' l.sync := by
  obtain ⟨base, hrec, hlog⟩ := h.disk
  refine ⟨h.memory, base, ⟨hrec.boots, fun n hn => ?_⟩, hlog⟩
  have hall : l.log.records.take n = l.log.records := List.take_of_length_le hn
  exact hall.symm ▸ hissued hlog

/-- A checkpoint makes the disk hold what memory holds. -/
theorem commit (h : Carries certain issued l) (hissued : ∀ {ops}, certain ops → issued ops)
    (hbuffer : l.contents.buffer = []) (epoch : Nat) :
    Carries certain issued { l with image := l.contents.image epoch, log := .empty } := by
  obtain ⟨ops, hops, hstores⟩ := h.memory
  obtain ⟨boot, hboot, hsame⟩ := hstores.tracked.reload hbuffer epoch
  have hempty : ∀ n, ops ++ (RecordLog.empty : RecordLog Id Item).records.take n = ops := by
    simp [RecordLog.empty]
  refine ⟨⟨ops, hops, hstores⟩, ops, ⟨⟨boot, hboot, hsame.stores hstores⟩, fun n _ => ?_⟩, ?_⟩
  · rw [hempty]
    exact hissued hops
  · show certain (ops ++ [])
    rwa [List.append_nil]

theorem move (h : Carries certain issued l) (hissued : ∀ {ops}, certain ops → issued ops)
    (hmove : Ledger.Move (defaultStore Id Item) l l') : Carries certain issued l' := by
  cases hmove with
  | flush => exact h.mapContents fun hs => hs.flushBuffer
  | alloc => exact h.mapContents fun hs => hs.allocId
  | merge indices hpos => exact h.mapContents fun hs => hs.merge hpos.1
  | compacted hbuffer => exact h.mapContents fun hs => hs.compacted
  | prune => exact h.mapContents fun hs => hs.retainSuperseded
  | sync => exact h.sync hissued
  | commit hbuffer => exact h.commit hissued hbuffer _
  | publish => exact ⟨h.memory, h.disk⟩

/-! ## Operations -/

/-- An operation that is logged, but not applied. -/
theorem append (h : Carries certain issued l) {op : Op Id Item}
    (hlost : ∀ {ops}, certain ops → certain' ops) (hissued : ∀ {ops}, issued ops → issued' ops)
    (hkept : ∀ {ops}, certain ops → certain' (ops ++ [op]) ∧ issued' (ops ++ [op])) :
    Carries certain' issued' (l.append op) := by
  obtain ⟨ops, hops, hstores⟩ := h.memory
  obtain ⟨base, hrec, hlog⟩ := h.disk
  refine ⟨⟨ops, hlost hops, hstores⟩, base, hrec.append hissued (hkept hlog).2, ?_⟩
  show certain' (base ++ (l.log.records ++ [op]))
  rw [← List.append_assoc]
  exact (hkept hlog).1

/-- An operation that is logged and applied. -/
theorem apply (h : Carries certain issued l) {op : Op Id Item}
    (hissued : ∀ {ops}, issued ops → issued' ops)
    (hkept : ∀ {ops}, certain ops → certain' (ops ++ [op]) ∧ issued' (ops ++ [op])) :
    Carries certain' issued' ((l.append op).apply op) := by
  obtain ⟨ops, hops, hstores⟩ := h.memory
  obtain ⟨base, hrec, hlog⟩ := h.disk
  refine ⟨⟨ops ++ [op], (hkept hops).1, ?_⟩, base, hrec.append hissued (hkept hlog).2, ?_⟩
  · rw [history_concat]
    exact hstores.apply op
  · show certain' (base ++ (l.log.records ++ [op]))
    rw [← List.append_assoc]
    exact (hkept hlog).1

end Carries

/-- Replay brings back what the log holds. -/
theorem Recovers.start {issued : List (Op Id Item) → Prop} {im : Image Id (List (Id × Item))}
    {log : RecordLog Id Item} {base : List (Op Id Item)} (h : Recovers issued im log base)
    {boot : Contents Id Item (List (Id × Item))}
    (hboot : im.boot (defaultStore Id Item) im.segments = .ok boot) (flushThreshold keep : Nat) :
    Carries issued issued {
      contents := boot.replay (defaultStore Id Item) flushThreshold (log.settled keep).records
      image := im
      log := log.settled keep
      published := boot.toPubState } := by
  obtain ⟨boot', hboot', hstores⟩ := h.boots
  rw [hboot] at hboot'
  cases hboot'
  have hfound : issued (base ++ (log.settled keep).records) := h.found _ (Nat.le_max_left _ _)
  refine ⟨⟨_, hfound, ?_⟩, base, h.settle keep, hfound⟩
  rw [history_append]
  exact hstores.replay flushThreshold _

end Segstore
