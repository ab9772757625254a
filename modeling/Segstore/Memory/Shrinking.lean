import Segstore.Writer.Ledger
import Segstore.Memory.Sealing

/-!
# Live ids only get fewer

What is live in a segment was live in it before, as long as the segment is
there: a write kills copies, a seal and a merge leave the other segments alone,
and a full compaction forgets tombstones and marks only where nothing is dead.
Every move of a writer keeps this, and so does every call.
-/

namespace Segstore

variable {Id Item : Type} [DecidableEq Id]

namespace Contents

/-- Of the segments whose ids were allocated in `c`, none has in `c'` a live
copy that it did not have in `c`. -/
structure Shrinks (c c' : Contents Id Item (List (Id × Item))) : Prop where
  grows : c.Grows c'
  live : ∀ {k : Nat} {id : Id}, k < c.nextSegId → c'.Lists k id → c'.isLiveIn k id = true →
    c.isLiveIn k id = true

variable {c : Contents Id Item (List (Id × Item))} {m : Id → Option Item}

omit [DecidableEq Id] in
/-- An old segment lists what it listed. -/
theorem Grows.lists {c' : Contents Id Item (List (Id × Item))} (h : c.Grows c') {k : Nat}
    (hk : k < c.nextSegId) {id : Id} (hlists : c'.Lists k id) : c.Lists k id := by
  obtain ⟨entries, hp, hid⟩ := hlists
  rcases h.mem_sealed _ hp with hp | hnew
  · exact ⟨entries, hp, hid⟩
  · exact absurd hk (Nat.not_lt.mpr hnew)

namespace Shrinks

theorem refl (c : Contents Id Item (List (Id × Item))) : c.Shrinks c :=
  ⟨.refl c, fun _ _ hlive => hlive⟩

theorem trans {c₁ c₂ c₃ : Contents Id Item (List (Id × Item))} (h₁ : c₁.Shrinks c₂)
    (h₂ : c₂.Shrinks c₃) : c₁.Shrinks c₃ := by
  refine ⟨h₁.grows.trans h₂.grows, fun hk hlists hlive => ?_⟩
  have hk₂ := Nat.lt_of_lt_of_le hk h₁.grows.next_le
  exact h₁.live hk (h₂.grows.lists hk₂ hlists) (h₂.live hk₂ hlists hlive)

/-- A write kills copies of its id and leaves the others. -/
theorem apply (h : c.Stores m) (op : Op Id Item) : c.Shrinks (c.apply op) := by
  refine ⟨.apply op, fun {k id} hk hlists hlive => ?_⟩
  by_cases hid : id = op.id
  · subst hid
    rw [h.tracked.apply_isLiveIn_self (h.tidy.not_exhumes op)
      ((apply_lists op k op.id).mp hlists)] at hlive
    cases hlive
  · rwa [apply_isLiveIn_ne op k hid] at hlive

theorem flushBuffer (h : c.Stores m) : c.Shrinks (c.flushBuffer (defaultStore Id Item)) := by
  refine ⟨.flushBuffer _ h.tracked.shape, fun {k id} _ _ hlive => ?_⟩
  rwa [isLiveIn_flushBuffer] at hlive

theorem allocId (c : Contents Id Item (List (Id × Item))) : c.Shrinks c.allocId :=
  ⟨.allocId, fun _ _ hlive => hlive⟩

theorem retainSuperseded (h : c.Stores m) : c.Shrinks c.retainSuperseded := by
  refine ⟨.retainSuperseded, fun {k id} _ _ hlive => ?_⟩
  rwa [h.tracked.isLiveIn_retain] at hlive

/-- A merge takes whole segments away, and its result is new. -/
theorem merge (h : c.Stores m) (indices : List Nat) :
    c.Shrinks (c.merge (defaultStore Id Item) indices) := by
  refine ⟨.merge _ h.tracked.shape indices, fun {k id} hk hlists hlive => ?_⟩
  rcases (lists_merge h.tracked.shape indices k id).mp hlists with ⟨hg, -⟩ | ⟨rfl, -⟩
  · rwa [isLiveIn_merge_of_not_mem hg] at hlive
  · exact absurd hk (Nat.lt_irrefl _)

/-- A full compaction leaves no old segment, or one in which nothing was dead. -/
theorem compacted (h : c.Stores m) : c.Shrinks (c.compacted (defaultStore Id Item)) := by
  rw [Contents.compacted]
  split
  · refine ⟨(Grows.merge _ h.tracked.shape _).trans .purge, fun {k id} hk hlists _ => ?_⟩
    rcases (lists_merge h.tracked.shape _ k id).mp hlists with ⟨hg, hold⟩ | ⟨rfl, -⟩
    · exact absurd ((groupIds_range h.tracked.shape).symm ▸ hold.mem_segmentIds) hg
    · exact absurd hk (Nat.lt_irrefl _)
  · rename_i hneeds
    exact ⟨.purge, fun _ hlists _ => isLiveIn_of_not_needsCompact hneeds hlists⟩

end Shrinks

end Contents

namespace Ledger

/-- From `c` on live ids only got fewer. -/
def Shrunk (c : Contents Id Item (List (Id × Item)))
    (l : Ledger Id Item (List (Id × Item))) : Prop :=
  (∃ m, l.contents.Stores m) ∧ c.Shrinks l.contents

/-- Every move and every write keep it so. -/
theorem closed_shrunk (c : Contents Id Item (List (Id × Item))) :
    Closed (defaultStore Id Item) (Shrunk c) where
  move := by
    rintro l l' ⟨⟨m, hstores⟩, hshrinks⟩ hmove
    cases hmove with
    | flush => exact ⟨⟨m, hstores.flushBuffer⟩, hshrinks.trans (.flushBuffer hstores)⟩
    | alloc => exact ⟨⟨m, hstores.allocId⟩, hshrinks.trans (.allocId _)⟩
    | merge indices hpos =>
        exact ⟨⟨m, hstores.merge hpos.1⟩, hshrinks.trans (.merge hstores indices)⟩
    | compacted hbuffer => exact ⟨⟨m, hstores.compacted⟩, hshrinks.trans (.compacted hstores)⟩
    | prune =>
        exact ⟨⟨m, hstores.retainSuperseded⟩, hshrinks.trans (.retainSuperseded hstores)⟩
    | sync => exact ⟨⟨m, hstores⟩, hshrinks⟩
    | commit hbuffer => exact ⟨⟨m, hstores⟩, hshrinks⟩
    | publish => exact ⟨⟨m, hstores⟩, hshrinks⟩
  append := fun op h => h
  apply := by
    rintro l op ⟨⟨m, hstores⟩, hshrinks⟩
    exact ⟨⟨_, hstores.apply op⟩, hshrinks.trans (.apply hstores op)⟩

end Ledger

end Segstore
