import Segstore.Memory.Unlisted

/-!
# Without ownership

A writer whose store does not list ids leaves every older copy of an id where
it is.  `Recent` says that the newest segment that lists an id still carries
its value, which is all that a later open has to go by.  Writes and seals keep
that; a merge keeps it when it is in order, since its result becomes the newest
segment.
-/

namespace Segstore

variable {Id Item : Type}

namespace Contents

/-- The newest segment that lists the id. -/
structure Newest (c : Contents Id Item (List (Id × Item))) (id : Id) (seg : Nat)
    (entries : List (Id × Item)) : Prop where
  mem : (seg, entries) ∈ c.sealed
  lists : id ∈ entries.map Prod.fst
  max : ∀ seg', c.Lists seg' id → seg' ≤ seg

/-- A merge that takes in a copy of an id that is not deleted takes in the newest
one. -/
def MergesInOrder (c : Contents Id Item (List (Id × Item))) (indices : List Nat) : Prop :=
  ∀ id ∉ c.tombstones, ∀ g ∈ c.groupIds indices, c.Lists g id →
    ∀ seg entries, c.Newest id seg entries → seg ∈ c.groupIds indices

section Deciding

variable [DecidableEq Id] [DecidableEq Item]

instance (c : Contents Id Item (List (Id × Item))) (id : Id) (p : Nat × List (Id × Item)) :
    Decidable (c.Newest id p.1 p.2) :=
  decidable_of_iff (p ∈ c.sealed ∧ id ∈ p.2.map Prod.fst ∧
      ∀ q ∈ c.sealed, id ∈ q.2.map Prod.fst → q.1 ≤ p.1)
    ⟨fun ⟨hp, hid, hmax⟩ => ⟨hp, hid, fun _ ⟨entries, hq, hidq⟩ => hmax (_, entries) hq hidq⟩,
      fun h => ⟨h.mem, h.lists, fun q hq hid => h.max q.1 ⟨q.2, hq, hid⟩⟩⟩

instance (c : Contents Id Item (List (Id × Item))) (indices : List Nat) :
    Decidable (c.MergesInOrder indices) :=
  decidable_of_iff (∀ p ∈ c.sealed, p.1 ∉ c.groupIds indices ∨ ∀ id ∈ p.2.map Prod.fst,
      id ∈ c.tombstones ∨ ∀ q ∈ c.sealed, ¬ c.Newest id q.1 q.2 ∨
        q.1 ∈ c.groupIds indices) <| by
    simp only [or_iff_not_imp_left, not_not]
    constructor
    · rintro h id hlive g hg ⟨entries, hp, hid⟩ seg entries' hnewest
      exact h (g, entries) hp hg id hid hlive (seg, entries') hnewest.mem hnewest
    · intro h p hp hg id hid hlive q _ hnewest
      exact h id hlive p.1 hg ⟨p.2, hp, hid⟩ q.1 q.2 hnewest

end Deciding

/-- The newest segment that lists an id carries its value. -/
structure Recent [DecidableEq Id] (c : Contents Id Item (List (Id × Item)))
    (m : Id → Option Item) : Prop where
  shape : c.Shape
  buffered : c.Buffered
  unmarked : ∀ seg id, ¬ Marked c.superseded seg id
  unowned : ∀ id, c.liveSegmentOf id = none
  unknown : c.segments ≠ [] → c.owners = none
  bufferValue : ∀ id item, (id, item) ∈ c.buffer → m id = some item
  sealedValue : ∀ id ∉ c.bufferIds, id ∉ c.tombstones → ∀ seg entries,
    c.Newest id seg entries → ∃ item, m id = some item ∧ (id, item) ∈ entries
  absent : ∀ id ∉ c.bufferIds, (id ∈ c.tombstones ∨ ∀ seg, ¬ c.Lists seg id) → m id = none

variable {c : Contents Id Item (List (Id × Item))}

/-- A listed id has a newest segment. -/
theorem Shape.newest (hc : c.Shape) {seg : Nat} {id : Id} (h : c.Lists seg id) :
    ∃ seg' entries, c.Newest id seg' entries := by
  classical
  have hlt : ∀ k, c.Lists k id → k ≤ c.nextSegId := fun k hk =>
    Nat.le_of_lt (hc.below k hk.mem_segmentIds)
  have hspec : c.Lists (Nat.findGreatest (fun k => c.Lists k id) c.nextSegId) id :=
    Nat.findGreatest_spec (P := fun k => c.Lists k id) (hlt seg h) h
  obtain ⟨entries, hp, hid⟩ := hspec
  exact ⟨_, entries, hp, hid, fun k hk => Nat.le_findGreatest (hlt k hk) hk⟩

theorem newest_congr {c' : Contents Id Item (List (Id × Item))} (h : c'.sealed = c.sealed)
    {id : Id} {seg : Nat} {entries : List (Id × Item)} :
    c'.Newest id seg entries ↔ c.Newest id seg entries := by
  constructor
  · exact fun hn => ⟨h ▸ hn.mem, hn.lists, fun k hk => hn.max k ((lists_congr h k id).mpr hk)⟩
  · exact fun hn => ⟨h ▸ hn.mem, hn.lists, fun k hk => hn.max k ((lists_congr h k id).mp hk)⟩

variable [DecidableEq Id] {m : Id → Option Item}
variable {liveLen : List (Id × Item) → (Id → Bool) → Option Nat}

variable (liveLen) in
/-- A merge seals the same whether ids are listed or not. -/
theorem merge_sealed_untracked (hc : c.Shape) (indices : List Nat) :
    (c.merge (untrackedStore Id Item liveLen) indices).sealed =
      (c.merge (defaultStore Id Item) indices).sealed := by
  rw [merge_sealed _ hc, merge_sealed _ hc]
  rfl

variable (liveLen) in
theorem lists_merge_untracked (hc : c.Shape) (indices : List Nat) (seg : Nat) (id : Id) :
    (c.merge (untrackedStore Id Item liveLen) indices).Lists seg id ↔
      seg ∉ c.groupIds indices ∧ c.Lists seg id ∨ seg = c.nextSegId ∧
        id ∈ (c.mergedSegment (defaultStore Id Item) indices).map Prod.fst :=
  (lists_congr (merge_sealed_untracked liveLen hc indices) seg id).trans
    (lists_merge hc indices seg id)

namespace Recent

theorem ownerless (h : c.Recent m) : c.Ownerless :=
  ⟨h.shape, h.buffered, h.unmarked, h.unowned, h.unknown⟩

/-- A write puts the value into the buffer, or takes it out of the map. -/
theorem apply (h : c.Recent m) (op : Op Id Item) : (c.apply op).Recent (op.write.run m) where
  shape := (h.ownerless.apply op).shape
  buffered := (h.ownerless.apply op).buffered
  unmarked := (h.ownerless.apply op).unmarked
  unowned := (h.ownerless.apply op).unowned
  unknown := (h.ownerless.apply op).unknown
  bufferValue := by
    intro id item hmem
    rcases (h.buffered.mem_apply op id item).mp hmem with ⟨hne, hmem⟩ | rfl
    · rw [Op.run_of_ne hne]
      exact h.bufferValue id item hmem
    · exact (Write.run_apply _ _ _).trans (if_pos rfl)
  sealedValue := by
    intro id hid htomb seg entries hnewest
    have hne : id ≠ op.id := by
      rintro rfl
      cases op with
      | add id item => exact hid ((mem_apply_add_bufferIds id item id).mpr (.inl rfl))
      | delete id =>
          rw [apply_delete_tombstones, Op.id_delete, List.mem_insert_iff] at htomb
          exact htomb (.inl rfl)
    rw [Op.run_of_ne hne]
    exact h.sealedValue id ((mem_apply_bufferIds_ne hne).not.mp hid)
      ((mem_apply_tombstones op hne).not.mp htomb) seg entries
      ((newest_congr (apply_sealed c op)).mp hnewest)
  absent := by
    intro id hid hgone
    by_cases hne : id = op.id
    · subst hne
      cases op with
      | add id item => exact absurd ((mem_apply_add_bufferIds id item id).mpr (.inl rfl)) hid
      | delete id => exact (Write.run_apply _ _ _).trans (if_pos rfl)
    · rw [Op.run_of_ne hne]
      rw [mem_apply_tombstones op hne] at hgone
      simp only [apply_lists] at hgone
      exact h.absent id ((mem_apply_bufferIds_ne hne).not.mp hid) hgone

/-! ## Seals -/

/-- A sealed buffer is the newest segment. -/
theorem flushBuffer (h : c.Recent m) :
    (c.flushBuffer (untrackedStore Id Item liveLen)).Recent m := by
  by_cases hbuffer : c.buffer = []
  · rwa [flushBuffer_of_empty _ _ hbuffer]
  have hsealed : (c.flushBuffer (untrackedStore Id Item liveLen)).sealed =
      c.sealed ++ [(c.nextSegId, c.buffer)] := flushBuffer_sealed _ h.shape hbuffer
  have hlists : ∀ seg id, (c.flushBuffer (untrackedStore Id Item liveLen)).Lists seg id ↔
      c.Lists seg id ∨ seg = c.nextSegId ∧ id ∈ c.bufferIds := by
    intro seg id
    rw [h.buffered.ids, ← lists_flushBuffer h.shape hbuffer]
    have hdefault := flushBuffer_sealed (defaultStore Id Item) h.shape hbuffer
    exact lists_congr (hsealed.trans hdefault.symm) seg id
  have hitemIds : ∀ seg, (untrackedStore Id Item liveLen).itemIds seg = none := fun _ => rfl
  have hownerless := h.ownerless.flushBuffer hitemIds
  rw [h.ownerless.flushBuffer_eq hitemIds hbuffer] at hsealed hlists hownerless ⊢
  refine ⟨hownerless.shape, hownerless.buffered, hownerless.unmarked, hownerless.unowned,
    hownerless.unknown, by simp, fun id _ htomb seg entries hnewest => ?_, fun id _ hgone => ?_⟩
  · have hmem := hnewest.mem
    rw [hsealed, List.mem_append, List.mem_singleton] at hmem
    rcases hmem with hmem | hmem
    · -- an older segment is the newest one only if the buffer did not list the id
      have hlt := h.shape.below seg (fst_mem_of_mem_sealed hmem)
      have hid : id ∉ c.bufferIds := fun hid =>
        Nat.not_le_of_lt hlt (hnewest.max _ ((hlists _ id).mpr (.inr ⟨rfl, hid⟩)))
      exact h.sealedValue id hid htomb seg entries ⟨hmem, hnewest.lists, fun k hk =>
        hnewest.max k ((hlists k id).mpr (.inl hk))⟩
    · cases hmem
      obtain ⟨⟨j, item⟩, hmem, rfl⟩ := List.mem_map.mp hnewest.lists
      exact ⟨item, h.bufferValue j item hmem, hmem⟩
  · refine h.absent id (fun hid => ?_) (hgone.imp_right fun hno seg hlist =>
      hno seg ((hlists seg id).mpr (.inl hlist)))
    rcases hgone with htomb | hno
    · exact h.buffered.untombstoned id hid htomb
    · exact hno _ ((hlists _ id).mpr (.inr ⟨rfl, hid⟩))

theorem sealFull (h : c.Recent m) (flushThreshold : Nat) :
    (c.sealFull (untrackedStore Id Item liveLen) flushThreshold).Recent m := by
  rw [Contents.sealFull]
  split
  · exact h.flushBuffer
  · exact h

/-! ## Merges -/

/-- A merge in order takes the newest copy along. -/
theorem merge (h : c.Recent m) {indices : List Nat} (horder : c.MergesInOrder indices) :
    (c.merge (untrackedStore Id Item liveLen) indices).Recent m := by
  have hsealed := merge_sealed_untracked liveLen h.shape indices
  have hlists := lists_merge_untracked liveLen h.shape indices
  have hmerged : ∀ id ∉ c.tombstones, ∀ g ∈ c.groupIds indices, c.Lists g id →
      id ∈ (c.mergedSegment (defaultStore Id Item) indices).map Prod.fst :=
    fun id htomb g hg hlist => (mem_mergedSegment_ids h.shape).mpr
      ⟨g, hg, hlist, (h.ownerless.isLiveIn_iff g id).mpr htomb⟩
  have hownerless : (c.merge (untrackedStore Id Item liveLen) indices).Ownerless :=
    h.ownerless.merge (fun _ => rfl) indices
  refine ⟨hownerless.shape, hownerless.buffered, hownerless.unmarked, hownerless.unowned,
    hownerless.unknown, ?_, ?_, ?_⟩
  · rw [merge_buffer]
    exact h.bufferValue
  · rw [merge_bufferIds, merge_tombstones]
    intro id hid htomb seg entries hnewest
    have hmem := hnewest.mem
    rw [hsealed, merge_sealed _ h.shape, List.mem_append, mem_drop_sealed h.shape] at hmem
    rcases hmem with ⟨hmem, hg⟩ | hmem
    · -- what stays is the newest one only if the group did not list the id
      have hlt := h.shape.below seg (fst_mem_of_mem_sealed hmem)
      refine h.sealedValue id hid htomb seg entries ⟨hmem, hnewest.lists, fun k hk => ?_⟩
      by_cases hkg : k ∈ c.groupIds indices
      · exact absurd (hnewest.max _ ((hlists _ id).mpr (.inr ⟨rfl, hmerged id htomb k hkg hk⟩)))
          (Nat.not_le_of_lt hlt)
      · exact hnewest.max k ((hlists k id).mpr (.inl ⟨hkg, hk⟩))
    · split at hmem
      · cases List.mem_singleton.mp hmem
        obtain ⟨g, hg, hlist, -⟩ := (mem_mergedSegment_ids h.shape).mp hnewest.lists
        obtain ⟨seg₀, entries₀, hnewest₀⟩ := h.shape.newest hlist
        obtain ⟨item, hvalue, hitem⟩ := h.sealedValue id hid htomb seg₀ entries₀ hnewest₀
        exact ⟨item, hvalue, (mem_mergedSegment h.shape).mpr ⟨seg₀,
          horder id htomb g hg hlist seg₀ entries₀ hnewest₀, entries₀, hnewest₀.mem, hitem,
          (h.ownerless.isLiveIn_iff seg₀ id).mpr htomb⟩⟩
      · cases hmem
  · rw [merge_bufferIds, merge_tombstones]
    intro id hid hgone
    refine h.absent id hid ?_
    by_cases htomb : id ∈ c.tombstones
    · exact .inl htomb
    · refine .inr fun seg hlist => ?_
      by_cases hg : seg ∈ c.groupIds indices
      · exact hgone.resolve_left htomb _
          ((hlists _ id).mpr (.inr ⟨rfl, hmerged id htomb seg hg hlist⟩))
      · exact hgone.resolve_left htomb _ ((hlists seg id).mpr (.inl ⟨hg, hlist⟩))

/-- Forgetting the tombstones of ids that no segment lists. -/
theorem purge (h : c.Recent m) (hclear : ∀ id ∈ c.tombstones, ∀ seg, ¬ c.Lists seg id) :
    c.purge.Recent m where
  shape := h.ownerless.purge.shape
  buffered := h.ownerless.purge.buffered
  unmarked := h.ownerless.purge.unmarked
  unowned := h.unowned
  unknown := h.unknown
  bufferValue := h.bufferValue
  sealedValue := fun id hid _ seg entries hnewest =>
    h.sealedValue id hid (fun htomb => hclear id htomb seg ⟨entries, hnewest.mem, hnewest.lists⟩)
      seg entries ⟨hnewest.mem, hnewest.lists, hnewest.max⟩
  absent := fun id hid hgone => h.absent id hid (.inr (hgone.resolve_left List.not_mem_nil))

/-- The merge of everything is in order, and lists no deleted id. -/
theorem compacted (h : c.Recent m) : (c.compacted (untrackedStore Id Item liveLen)).Recent m := by
  rw [Contents.compacted]
  split
  · have horder : c.MergesInOrder (List.range c.segments.length) := by
      intro id _ g _ _ seg entries hnewest
      rw [groupIds_range h.shape]
      exact fst_mem_of_mem_sealed hnewest.mem
    refine (h.merge horder).purge fun id htomb seg hlist => ?_
    rw [merge_tombstones] at htomb
    rcases (lists_merge_untracked liveLen h.shape _ seg id).mp hlist with ⟨hg, hlist⟩ | ⟨-, hmem⟩
    · exact hg ((groupIds_range h.shape).symm ▸ hlist.mem_segmentIds)
    · obtain ⟨g, -, -, hlive⟩ := (mem_mergedSegment_ids h.shape).mp hmem
      exact (h.ownerless.isLiveIn_iff g id).mp hlive htomb
  · rename_i hneeds
    refine h.purge fun id htomb seg hlist => ?_
    rw [(clean_of_not_needsCompact hneeds hlist).1] at htomb
    exact List.not_mem_nil htomb

theorem retainSuperseded (h : c.Recent m) : c.retainSuperseded.Recent m where
  shape := h.ownerless.retainSuperseded.shape
  buffered := h.ownerless.retainSuperseded.buffered
  unmarked := h.ownerless.retainSuperseded.unmarked
  unowned := h.unowned
  unknown := h.unknown
  bufferValue := h.bufferValue
  sealedValue := fun id hid htomb seg entries hnewest =>
    h.sealedValue id hid htomb seg entries ⟨hnewest.mem, hnewest.lists, hnewest.max⟩
  absent := h.absent

end Recent

end Contents

end Segstore
