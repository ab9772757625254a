import Segstore.Disk.Garbage

/-!
# A writer in agreement with its directory

`Framed s im` relates a writer to the image its directory stands for, for every
`Store` and without a word about what the items are.  `Yields` is the common
form of the facts about the writer's calls: the writer stays in agreement with
its directory, segment ids keep their meaning, and the ledger has made moves.
-/

namespace Segstore

variable {Id Item Seg F α β : Type}

/-- The ledger of a writer whose directory stands for `im`. -/
def SegmentedStore.ledger (s : SegmentedStore Id Item Seg F) (im : Image Id Seg) :
    Ledger Id Item Seg where
  contents := s.toContents
  image := im
  log := Directory.logOf s.dir.files (walPath im.epoch)
  published := s.published

/-- The writer agrees with its directory. -/
structure Framed (s : SegmentedStore Id Item Seg F) (im : Image Id Seg) : Prop where
  disk : s.dir.Coherent im
  shape : s.toContents.Shape
  next_le : im.nextSegId ≤ s.nextSegId
  committed : ∀ p ∈ s.sealed, p.1 < im.nextSegId → p ∈ im.sealed
  file : ∀ p ∈ s.sealed, p.1 ∈ s.persistedIds → segFile s.dir.files p.1 = some p.2
  named : ∀ k ∈ im.segmentIds, k ∈ s.persistedIds
  persisted_lt : ∀ k ∈ s.persistedIds, k < s.nextSegId
  wal : s.wal = walPath s.epoch

/-- Unless the store is poisoned, it logs into the WAL of the manifest. -/
def Current (s : SegmentedStore Id Item Seg F) (im : Image Id Seg) : Prop :=
  s.poisoned = false → im.epoch = s.epoch

/-- From one moment of a writer to a later one: nothing happened to a segment
id that was already allocated except that it may be gone, and sidecar files
have at most been deleted. -/
structure Guar (s : SegmentedStore Id Item Seg F) (im : Image Id Seg)
    (t : SegmentedStore Id Item Seg F) (im' : Image Id Seg) : Prop where
  opts : t.opts = s.opts
  backed : t.dir.fileBacked = s.dir.fileBacked
  grows : s.toContents.Grows t.toContents
  image : ∀ p ∈ im'.sealed, p ∈ im.sealed ∨ p ∈ s.sealed ∨ s.nextSegId ≤ p.1
  index : ∀ name, familyOf name = some 'i' →
    t.dir.files.lookup name = s.dir.files.lookup name ∨ t.dir.files.lookup name = none

namespace Guar

variable {s t u : SegmentedStore Id Item Seg F} {im im' im'' : Image Id Seg}

theorem refl (s : SegmentedStore Id Item Seg F) (im : Image Id Seg) : Guar s im s im :=
  ⟨rfl, rfl, .refl _, fun _ hp => .inl hp, fun _ _ => .inl rfl⟩

theorem trans (h₁ : Guar s im t im') (h₂ : Guar t im' u im'') : Guar s im u im'' where
  opts := h₂.opts.trans h₁.opts
  backed := h₂.backed.trans h₁.backed
  grows := h₁.grows.trans h₂.grows
  image := by
    intro p hp
    rcases h₂.image p hp with hp | hp | hp
    · exact h₁.image p hp
    · exact .inr (h₁.grows.mem_sealed p hp)
    · exact .inr (.inr (h₁.grows.next_le.trans hp))
  index := by
    intro name hname
    rcases h₂.index name hname with h | h
    · rw [h]
      exact h₁.index name hname
    · exact .inr h

end Guar

/-! ## Changes of the memory -/

namespace Framed

variable {s : SegmentedStore Id Item Seg F} {im : Image Id Seg}

/-- A file that is kept on record belongs to no id above the manifest's. -/
theorem lt_of_not_persisted (h : Framed s im) {p : Nat × Seg} (hp : p ∈ s.sealed)
    (hnot : p.1 ∉ s.persistedIds) : im.nextSegId ≤ p.1 := by
  by_contra hlt
  have him := h.committed p hp (Nat.lt_of_not_le hlt)
  exact hnot (h.named p.1 (List.of_mem_zip him).1)

/-- The memory may change in any way that seals under new ids only. -/
theorem contents (h : Framed s im) {c : Contents Id Item Seg} (hc : c.Shape)
    (hgrows : s.toContents.Grows c) : Framed { s with toContents := c } im where
  disk := h.disk
  shape := hc
  next_le := h.next_le.trans hgrows.next_le
  committed := by
    intro p hp hlt
    rcases hgrows.mem_sealed p hp with hp | hp
    · exact h.committed p hp hlt
    · exact absurd (h.next_le.trans hp) (Nat.not_le_of_lt hlt)
  file := by
    intro p hp hpers
    rcases hgrows.mem_sealed p hp with hp | hp
    · exact h.file p hp hpers
    · exact absurd (h.persisted_lt _ hpers) (Nat.not_lt_of_le hp)
  named := h.named
  persisted_lt := fun k hk => (h.persisted_lt k hk).trans_le hgrows.next_le
  wal := h.wal

end Framed

theorem Guar.contents {s : SegmentedStore Id Item Seg F} {im : Image Id Seg}
    {c : Contents Id Item Seg} (hgrows : s.toContents.Grows c) :
    Guar s im { s with toContents := c } im :=
  ⟨rfl, rfl, hgrows, fun _ hp => .inl hp, fun _ _ => .inl rfl⟩

/-! ## What calls yield -/

variable [DecidableEq Id]

/-- What is known at the end of a call that started in agreement with `im`:
agreement with the image of that moment, and `K` when the call returned.  A call
that returns neither poisons a store nor heals it. -/
def Yields (st : Store Id Item Seg) (s : SegmentedStore Id Item Seg F) (im : Image Id Seg)
    (K : α → SegmentedStore Id Item Seg F → Image Id Seg → Prop)
    (r : Outcome PersistenceError α) (t : SegmentedStore Id Item Seg F) : Prop :=
  ∃ im', Framed t im' ∧ (r ≠ .crash → Current t im') ∧ Guar s im t im' ∧
    Ledger.Moves st (s.ledger im) (t.ledger im') ∧
      ∀ v, r = .ok v → t.poisoned = s.poisoned ∧ K v t im'

namespace Yields

variable {st : Store Id Item Seg} {s t : SegmentedStore Id Item Seg F} {im im' : Image Id Seg}
variable {K : α → SegmentedStore Id Item Seg F → Image Id Seg → Prop}
variable {L : β → SegmentedStore Id Item Seg F → Image Id Seg → Prop}

/-- A value is returned without a change. -/
theorem ret (hs : Framed s im) (hcur : Current s im) {v : α} (hK : K v s im) :
    Yields st s im K (.ok v) s :=
  ⟨im, hs, fun _ => hcur, .refl s im, .refl, by rintro _ ⟨⟩; exact ⟨rfl, hK⟩⟩

/-- An error is raised without a change. -/
theorem err (hs : Framed s im) (hcur : Current s im) {e : PersistenceError} :
    Yields st s im K (.err e) s :=
  ⟨im, hs, fun _ => hcur, .refl s im, .refl, by simp⟩

/-- What happened before is prepended. -/
theorem after {r : Outcome PersistenceError α} {u : SegmentedStore Id Item Seg F}
    (hguar : Guar s im t im') (hmoves : Ledger.Moves st (s.ledger im) (t.ledger im'))
    (hpoisoned : t.poisoned = s.poisoned) (h : Yields st t im' K r u) :
    Yields st s im K r u := by
  obtain ⟨im'', hu, hcur, hguar', hmoves', hK⟩ := h
  exact ⟨im'', hu, hcur, hguar.trans hguar', hmoves.trans hmoves',
    fun v hv => ⟨(hK v hv).1.trans hpoisoned, (hK v hv).2⟩⟩

theorem imp {K' : α → SegmentedStore Id Item Seg F → Image Id Seg → Prop}
    {r : Outcome PersistenceError α} {u : SegmentedStore Id Item Seg F}
    (h : Yields st s im K r u) (hK : ∀ v t im', K v t im' → K' v t im') :
    Yields st s im K' r u := by
  obtain ⟨im', hu, hcur, hguar, hmoves, hk⟩ := h
  exact ⟨im', hu, hcur, hguar, hmoves, fun v hv => (hk v hv).imp_right (hK v u im')⟩

/-- Sequencing. -/
theorem bind {p : StoreM Id Item Seg F α} {f : α → StoreM Id Item Seg F β}
    (hp : Ends p s (Yields st s im K))
    (hf : ∀ v t im', Framed t im' → Current t im' → Guar s im t im' →
      t.poisoned = s.poisoned → K v t im' → Ends (f v) t (Yields st t im' L)) :
    Ends (p >>= f) s (Yields st s im L) := by
  refine Ends.bind hp ?_ ?_ ?_
  · rintro v t ⟨im', ht, hcur, hguar, hmoves, hK⟩
    obtain ⟨hpoisoned, hK⟩ := hK v rfl
    refine (hf v t im' ht (hcur (by simp)) hguar hpoisoned hK).mono fun r u hu => ?_
    exact hu.after hguar hmoves hpoisoned
  · rintro e t ⟨im', ht, hcur, hguar, hmoves, _⟩
    exact ⟨im', ht, fun _ => hcur (by simp), hguar, hmoves, by simp⟩
  · rintro t ⟨im', ht, _, hguar, hmoves, _⟩
    exact ⟨im', ht, by simp, hguar, hmoves, by simp⟩

/-- A change of the memory that is a move. -/
theorem onContents_bind {g : Contents Id Item Seg → Contents Id Item Seg}
    {f : Unit → StoreM Id Item Seg F β} (hs : Framed s im) (hcur : Current s im)
    (hshape : (g s.toContents).Shape) (hgrows : s.toContents.Grows (g s.toContents))
    (hmove : Ledger.Moves st (s.ledger im) ((s.ledger im).mapContents g))
    (hf : Framed { s with toContents := g s.toContents } im →
      Current { s with toContents := g s.toContents } im →
      Ends (f ()) { s with toContents := g s.toContents }
        (Yields st { s with toContents := g s.toContents } im L)) :
    Ends (SegmentedStore.onContents g >>= f) s (Yields st s im L) := by
  refine (hf (hs.contents hshape hgrows) hcur).mono fun r u hu => ?_
  exact hu.after (.contents hgrows) hmove rfl

end Yields

omit [DecidableEq Id] in
/-- `check_poisoned` lets only a healthy writer through. -/
theorem checkPoisoned_ends (s : SegmentedStore Id Item Seg F) :
    Ends SegmentedStore.checkPoisoned s
      (fun r t => t = s ∧ r ≠ .crash ∧ (r = .ok () → s.poisoned = false)) := by
  rw [SegmentedStore.checkPoisoned, Ends.read_bind_iff]
  split
  · exact Ends.fail_iff.mpr ⟨rfl, by simp, by simp⟩
  · rename_i h
    exact Ends.pure_iff.mpr ⟨rfl, by simp, fun _ => by simpa using h⟩

end Segstore
