import Segstore.Memory.Copies

/-!
# Ownership

The representation invariant of a writer over segments that are lists of
entries, and what writes and seals do to it.  `Tracked` leaves one thing open:
a tombstoned id may still have a copy that no mark keeps dead.  Such an id is
buried.  Only manifests of the original layout bury ids; a write that adds a
buried id back would bring the old copy to life again.
-/

namespace Segstore

variable {Id Item : Type}

namespace Contents

/-- The buffer lists each id once, and `bufferIds` agrees with it. -/
structure Buffered {Seg : Type} (c : Contents Id Item Seg) : Prop where
  nodup : (c.buffer.map Prod.fst).Nodup
  ids : ∀ id, id ∈ c.bufferIds ↔ id ∈ c.buffer.map Prod.fst
  untombstoned : ∀ id ∈ c.bufferIds, id ∉ c.tombstones

/-- The fields that locate copies agree with the copies. -/
structure Tracked [DecidableEq Id] (c : Contents Id Item (List (Id × Item))) : Prop where
  shape : c.Shape
  liveNodup : ∀ p ∈ c.sealed,
    ((p.2.filter (fun e => c.isLiveIn p.1 e.1)).map Prod.fst).Nodup
  bufferNodup : (c.buffer.map Prod.fst).Nodup
  bufferIds : ∀ id, id ∈ c.bufferIds ↔ id ∈ c.buffer.map Prod.fst
  buffered : ∀ id ∈ c.bufferIds, id ∉ c.tombstones
  apart : ∀ id ∈ c.bufferIds, ∀ seg, c.Lists seg id → c.isLiveIn seg id = false
  marked : ∀ seg id, Marked c.superseded seg id → c.Lists seg id
  known : c.owners.isSome = true
  owner : ∀ id seg, c.liveSegmentOf id = some seg ↔
    c.Lists seg id ∧ c.isLiveIn seg id = true

/-- What holds beyond `Tracked` unless the manifest was of the original layout. -/
structure Tidy (c : Contents Id Item (List (Id × Item))) : Prop where
  distinct : ∀ p ∈ c.sealed, (p.2.map Prod.fst).Nodup
  unburied : ∀ id, ¬ c.Buried id

/-- Adding the id back would bring a dead copy to life. -/
def Exhumes (c : Contents Id Item (List (Id × Item))) : Op Id Item → Prop
  | .add id _ => c.Buried id
  | .delete _ => False

instance [DecidableEq Id] (c : Contents Id Item (List (Id × Item))) (op : Op Id Item) :
    Decidable (c.Exhumes op) :=
  match op with
  | .add id _ => inferInstanceAs (Decidable (c.Buried id))
  | .delete _ => inferInstanceAs (Decidable False)

variable {c : Contents Id Item (List (Id × Item))}

theorem Buffered.not_mem {Seg : Type} {c : Contents Id Item Seg} (h : c.Buffered)
    (hbuffer : c.buffer = []) (id : Id) : id ∉ c.bufferIds := by
  intro hid
  rw [h.ids, hbuffer] at hid
  exact List.not_mem_nil hid

theorem Tracked.buffering [DecidableEq Id] (h : c.Tracked) : c.Buffered :=
  ⟨h.bufferNodup, h.bufferIds, h.buffered⟩

theorem Tidy.not_exhumes (h : c.Tidy) (op : Op Id Item) : ¬ c.Exhumes op := by
  cases op with
  | add id item => exact h.unburied id
  | delete id => exact not_false

variable [DecidableEq Id]

section Fields

variable {Seg : Type} {c : Contents Id Item Seg}

/-! ## Fields after a write -/

theorem apply_add_tombstones (id : Id) (item : Item) :
    (c.apply (.add id item)).tombstones = c.tombstones.filter (· ≠ id) := by
  simp only [apply, supersedeSealedCopy]
  split <;> split <;> rfl

theorem apply_delete_tombstones (id : Id) :
    (c.apply (.delete id)).tombstones = c.tombstones.insert id := by
  simp only [apply, supersedeSealedCopy]
  split <;> split <;> rfl

theorem mem_apply_tombstones {j : Id} (op : Op Id Item) (hj : j ≠ op.id) :
    j ∈ (c.apply op).tombstones ↔ j ∈ c.tombstones := by
  cases op with
  | add id item =>
      rw [apply_add_tombstones, List.mem_filter]
      simpa using fun _ : j ∈ c.tombstones => hj
  | delete id =>
      rw [apply_delete_tombstones, List.mem_insert_iff]
      exact or_iff_right hj

theorem apply_add_buffer (id : Id) (item : Item) :
    (c.apply (.add id item)).buffer =
      (if c.bufferIds.contains id then c.buffer.filter (fun e => e.1 ≠ id) else c.buffer) ++
        [(id, item)] := by
  simp only [apply, supersedeSealedCopy]
  split <;> split <;> rfl

theorem apply_delete_buffer (id : Id) :
    (c.apply (.delete id)).buffer =
      if c.bufferIds.contains id then c.buffer.filter (fun e => e.1 ≠ id) else c.buffer := by
  simp only [apply, supersedeSealedCopy]
  split <;> split <;> rfl

theorem mem_apply_add_bufferIds (id : Id) (item : Item) (j : Id) :
    j ∈ (c.apply (.add id item)).bufferIds ↔ j = id ∨ j ∈ c.bufferIds := by
  have hids : (c.apply (.add id item)).bufferIds =
      if c.bufferIds.contains id then c.bufferIds else c.bufferIds.insert id := by
    simp only [apply, supersedeSealedCopy]
    split <;> split <;> rfl
  rw [hids]
  split
  · rename_i hid
    have hid' : id ∈ c.bufferIds := by simpa using hid
    constructor
    · exact .inr
    · rintro (rfl | hj)
      · exact hid'
      · exact hj
  · exact List.mem_insert_iff

theorem mem_apply_delete_bufferIds (id : Id) (j : Id) :
    j ∈ (c.apply (.delete id)).bufferIds ↔ j ≠ id ∧ j ∈ c.bufferIds := by
  have hids : (c.apply (.delete id)).bufferIds =
      if c.bufferIds.contains id then c.bufferIds.filter (· ≠ id) else c.bufferIds := by
    simp only [apply, supersedeSealedCopy]
    split <;> split <;> rfl
  rw [hids]
  split
  · simp [List.mem_filter, and_comm]
  · rename_i hid
    have hid' : id ∉ c.bufferIds := by simpa using hid
    constructor
    · rintro hj
      exact ⟨fun heq => hid' (heq ▸ hj), hj⟩
    · exact And.right

/-! ## The buffer after a write -/

/-- The buffer after a write. -/
theorem Buffered.mem_apply (h : c.Buffered) (op : Op Id Item) (j : Id) (v : Item) :
    (j, v) ∈ (c.apply op).buffer ↔
      j ≠ op.id ∧ (j, v) ∈ c.buffer ∨ op = .add j v := by
  have hfilter : (j, v) ∈ (if c.bufferIds.contains op.id then
      c.buffer.filter (fun e => e.1 ≠ op.id) else c.buffer) ↔
        j ≠ op.id ∧ (j, v) ∈ c.buffer := by
    split
    · simp [List.mem_filter, and_comm]
    · rename_i hid
      have hid' : op.id ∉ c.bufferIds := by simpa using hid
      refine ⟨fun hmem => ⟨?_, hmem⟩, And.right⟩
      rintro rfl
      exact hid' ((h.ids _).mpr (List.mem_map.mpr ⟨_, hmem, rfl⟩))
  cases op with
  | add id item =>
      rw [apply_add_buffer, List.mem_append, List.mem_singleton]
      exact or_congr hfilter (by simp [eq_comm])
  | delete id =>
      rw [apply_delete_buffer]
      exact hfilter.trans (by simp)

theorem Buffered.mem_apply_bufferIds (h : c.Buffered) (op : Op Id Item) (j : Id) :
    j ∈ (c.apply op).buffer.map Prod.fst ↔
      j ≠ op.id ∧ j ∈ c.bufferIds ∨ ∃ v, op = .add j v := by
  rw [h.ids, List.mem_map, List.mem_map]
  constructor
  · rintro ⟨⟨k, v⟩, hk, rfl⟩
    rcases (h.mem_apply op k v).mp hk with ⟨hne, hk⟩ | hk
    · exact .inl ⟨hne, _, hk, rfl⟩
    · exact .inr ⟨v, hk⟩
  · rintro (⟨hne, ⟨k, v⟩, hk, rfl⟩ | ⟨v, hk⟩)
    · exact ⟨_, (h.mem_apply op k v).mpr (.inl ⟨hne, hk⟩), rfl⟩
    · exact ⟨_, (h.mem_apply op j v).mpr (.inr hk), rfl⟩

/-- Of the other ids the same are buffered. -/
theorem mem_apply_bufferIds_ne {op : Op Id Item} {j : Id} (hne : j ≠ op.id) :
    j ∈ (c.apply op).bufferIds ↔ j ∈ c.bufferIds := by
  cases op with
  | add id item => exact (mem_apply_add_bufferIds id item j).trans (or_iff_right hne)
  | delete id => exact (mem_apply_delete_bufferIds id j).trans (and_iff_right hne)

theorem Buffered.apply (h : c.Buffered) (op : Op Id Item) : (c.apply op).Buffered where
  nodup := by
    have hrest : ((if c.bufferIds.contains op.id then
        c.buffer.filter (fun e => e.1 ≠ op.id) else c.buffer).map Prod.fst).Nodup := by
      split
      · exact h.nodup.sublist (List.filter_sublist.map _)
      · exact h.nodup
    cases op with
    | add id item =>
        rw [apply_add_buffer, List.map_append, List.nodup_append]
        refine ⟨hrest, List.nodup_singleton _, ?_⟩
        intro j hj k hk
        obtain ⟨⟨j', v⟩, hmem, rfl⟩ := List.mem_map.mp hj
        have hk' : k = id := List.mem_singleton.mp hk
        subst hk'
        split at hmem
        · simpa using (List.mem_filter.mp hmem).2
        · rename_i hid
          rintro rfl
          exact hid (by simpa using (h.ids _).mpr (List.mem_map.mpr ⟨_, hmem, rfl⟩))
    | delete id =>
        rw [apply_delete_buffer]
        exact hrest
  ids := by
    intro j
    rw [h.mem_apply_bufferIds]
    cases op with
    | add id item =>
        rw [mem_apply_add_bufferIds]
        by_cases hj : j = id
        · simp [hj]
        · simp [hj, Op.id, Ne.symm hj]
    | delete id =>
        rw [mem_apply_delete_bufferIds]
        simp [Op.id]
  untombstoned := by
    intro j hj
    by_cases heq : j = op.id
    · cases op with
      | add id item =>
          rw [apply_add_tombstones, List.mem_filter]
          simp [heq, Op.id]
      | delete id =>
          exact absurd heq ((mem_apply_delete_bufferIds id j).mp hj).1
    · rw [mem_apply_tombstones op heq]
      exact h.untombstoned j ((mem_apply_bufferIds_ne heq).mp hj)

/-! ## Copies after a write -/

theorem apply_known (op : Op Id Item) : (c.apply op).owners.isSome = c.owners.isSome := by
  cases op <;> simp only [apply, supersedeSealedCopy] <;> split <;> split <;> simp

theorem apply_liveSegmentOf (op : Op Id Item) (j : Id) :
    (c.apply op).liveSegmentOf j = if j = op.id then none else c.liveSegmentOf j := by
  have hsuper : ∀ (c : Contents Id Item Seg) (id : Id),
      (c.supersedeSealedCopy id).liveSegmentOf j =
        if j = id then none else c.liveSegmentOf j := by
    intro c id
    rw [supersedeSealedCopy]
    cases howner : c.owners.bind (fun o => o.lookup id) with
    | none =>
        by_cases hj : j = id
        · rw [if_pos hj, hj]
          exact howner
        · rw [if_neg hj]
    | some seg =>
        obtain ⟨o, ho, -⟩ := Option.bind_eq_some_iff.mp howner
        simp [liveSegmentOf, ho, FinMap.lookup_erase_eq]
  cases op <;> simp only [apply] <;> split <;> exact hsuper _ _

theorem apply_marked (op : Op Id Item) (seg : Nat) (j : Id) :
    Marked (c.apply op).superseded seg j ↔
      j = op.id ∧ c.liveSegmentOf op.id = some seg ∨ Marked c.superseded seg j := by
  have hsuper : ∀ (c : Contents Id Item Seg) (id : Id),
      Marked (c.supersedeSealedCopy id).superseded seg j ↔
        j = id ∧ c.liveSegmentOf id = some seg ∨ Marked c.superseded seg j := by
    intro c id
    rw [supersedeSealedCopy, liveSegmentOf]
    cases howner : c.owners.bind (fun o => o.lookup id) with
    | none => simp
    | some older =>
        simp only [marked_markSuperseded, Option.some.injEq]
        exact or_congr_left (by rw [and_comm, eq_comm (a := seg)])
  cases op <;> simp only [apply] <;> split <;> exact hsuper _ _

/-- A write does not touch the copies of other ids. -/
theorem apply_isLiveIn_ne (op : Op Id Item) (seg : Nat) {j : Id} (hj : j ≠ op.id) :
    (c.apply op).isLiveIn seg j = c.isLiveIn seg j := by
  rw [Bool.eq_iff_iff, isLiveIn_iff, isLiveIn_iff, mem_apply_tombstones op hj, apply_marked]
  simp [hj]

end Fields

theorem apply_lists (op : Op Id Item) (seg : Nat) (j : Id) :
    (c.apply op).Lists seg j ↔ c.Lists seg j :=
  lists_congr (apply_sealed c op) seg j

/-- A write leaves no sealed copy of its id alive. -/
theorem Tracked.apply_isLiveIn_self (h : c.Tracked) {op : Op Id Item} (hop : ¬ c.Exhumes op)
    {seg : Nat} (hlists : c.Lists seg op.id) : (c.apply op).isLiveIn seg op.id = false := by
  rw [Bool.eq_false_iff, Ne, isLiveIn_iff, not_and_not_right, apply_marked]
  intro htomb
  cases op with
  | add id item =>
      by_cases hlive : c.isLiveIn seg id = true
      · exact .inl ⟨rfl, (h.owner id seg).mpr ⟨hlists, hlive⟩⟩
      · refine .inr (Classical.byContradiction fun hmark => ?_)
        rw [isLiveIn_iff, not_and_not_right] at hlive
        by_cases hid : id ∈ c.tombstones
        · exact hop ⟨hid, seg, hlists, hmark⟩
        · exact hmark (hlive hid)
  | delete id =>
      refine absurd ?_ htomb
      rw [apply_delete_tombstones, List.mem_insert_iff]
      exact .inl rfl

omit [DecidableEq Id] in
/-- Fewer live entries repeat no id either. -/
theorem liveNodup_mono {live live' : Id → Bool} {entries : List (Id × Item)}
    (h : ((entries.filter (fun e => live e.1)).map Prod.fst).Nodup)
    (hmono : ∀ e ∈ entries, live' e.1 = true → live e.1 = true) :
    ((entries.filter (fun e => live' e.1)).map Prod.fst).Nodup := by
  have heq : entries.filter (fun e => live' e.1) =
      (entries.filter (fun e => live e.1)).filter (fun e => live' e.1) := by
    rw [List.filter_filter]
    refine List.filter_congr fun e he => ?_
    by_cases hlive : live' e.1 = true
    · rw [hlive, hmono e he hlive]
      rfl
    · simp [hlive]
  rw [heq]
  exact h.sublist (List.filter_sublist.map _)

/-! ## Writes -/

theorem Tracked.apply (h : c.Tracked) {op : Op Id Item} (hop : ¬ c.Exhumes op) :
    (c.apply op).Tracked where
  shape := h.shape.apply op
  liveNodup := by
    rw [apply_sealed]
    refine fun p hp => liveNodup_mono (h.liveNodup p hp) fun e he hlive => ?_
    by_cases heq : e.1 = op.id
    · rw [heq, h.apply_isLiveIn_self hop
        (heq ▸ ⟨p.2, hp, List.mem_map.mpr ⟨e, he, rfl⟩⟩)] at hlive
      cases hlive
    · rwa [apply_isLiveIn_ne op p.1 heq] at hlive
  bufferNodup := (h.buffering.apply op).nodup
  bufferIds := (h.buffering.apply op).ids
  buffered := (h.buffering.apply op).untombstoned
  apart := by
    intro j hj seg hlists
    rw [apply_lists] at hlists
    by_cases heq : j = op.id
    · subst heq
      exact h.apply_isLiveIn_self hop hlists
    · rw [apply_isLiveIn_ne op seg heq]
      exact h.apart j ((mem_apply_bufferIds_ne heq).mp hj) seg hlists
  marked := by
    intro seg j hmark
    rw [apply_lists]
    rcases (apply_marked op seg j).mp hmark with ⟨rfl, howner⟩ | hmark
    · exact ((h.owner _ _).mp howner).1
    · exact h.marked seg j hmark
  known := (apply_known op).trans h.known
  owner := by
    intro j seg
    rw [apply_liveSegmentOf, apply_lists]
    by_cases heq : j = op.id
    · subst heq
      rw [if_pos rfl]
      refine iff_of_false (by simp) ?_
      rintro ⟨hlists, hlive⟩
      rw [h.apply_isLiveIn_self hop hlists] at hlive
      cases hlive
    · rw [if_neg heq, apply_isLiveIn_ne op seg heq]
      exact h.owner j seg

/-- The live copies after a write. -/
theorem Tracked.apply_represents (h : c.Tracked) {op : Op Id Item} (hop : ¬ c.Exhumes op)
    {m : Id → Option Item} (hm : Represents c.LiveCopy m) :
    Represents (c.apply op).LiveCopy (op.write.run m) := by
  have hcopy : ∀ place j v, (c.apply op).LiveCopy place j v ↔
      j ≠ op.id ∧ c.LiveCopy place j v ∨ place = none ∧ op = .add j v := by
    intro place j v
    cases place with
    | none => simpa [LiveCopy] using h.buffering.mem_apply op j v
    | some seg =>
        simp only [LiveCopy, apply_sealed, reduceCtorEq, false_and, or_false]
        by_cases heq : j = op.id
        · subst heq
          refine iff_of_false ?_ (by simp)
          rintro ⟨entries, hp, hmem, hlive⟩
          rw [h.apply_isLiveIn_self hop ⟨entries, hp, List.mem_map.mpr ⟨_, hmem, rfl⟩⟩] at hlive
          cases hlive
        · simp [heq, apply_isLiveIn_ne op seg heq]
  cases op with
  | add id item =>
      refine hm.put (p := none) fun place j v => (hcopy place j v).trans ?_
      refine or_congr Iff.rfl ?_
      rw [Op.add.injEq]
      constructor
      · rintro ⟨hplace, rfl, rfl⟩
        exact ⟨rfl, hplace, rfl⟩
      · rintro ⟨rfl, hplace, rfl⟩
        exact ⟨hplace, rfl, rfl⟩
  | delete id =>
      refine hm.remove fun place j v => (hcopy place j v).trans ?_
      simp [Op.id]

/-- A write that exhumes nothing buries and unburies nothing. -/
theorem Tracked.buried_apply (h : c.Tracked) {op : Op Id Item} (hop : ¬ c.Exhumes op) (j : Id) :
    (c.apply op).Buried j ↔ c.Buried j := by
  rw [Buried, Buried]
  simp only [apply_lists, apply_marked, not_or]
  by_cases heq : j = op.id
  · subst heq
    have hnot : ∀ seg, c.liveSegmentOf op.id = some seg → op.id ∉ c.tombstones := fun seg hs =>
      (isLiveIn_iff.mp ((h.owner _ _).mp hs).2).1
    cases op with
    | add id item =>
        refine iff_of_false ?_ hop
        rintro ⟨htomb, -⟩
        rw [apply_add_tombstones, List.mem_filter] at htomb
        simp [Op.id] at htomb
    | delete id =>
        constructor
        · rintro ⟨-, seg, hlists, howner, hmark⟩
          refine ⟨Classical.byContradiction fun htomb => ?_, seg, hlists, hmark⟩
          exact howner ⟨rfl, (h.owner _ _).mpr ⟨hlists, isLiveIn_iff.mpr ⟨htomb, hmark⟩⟩⟩
        · rintro ⟨htomb, seg, hlists, hmark⟩
          refine ⟨?_, seg, hlists, fun howner => hnot seg howner.2 htomb, hmark⟩
          rw [apply_delete_tombstones, List.mem_insert_iff]
          exact .inl rfl
  · simp [heq, mem_apply_tombstones op heq]

/-- Tidiness is kept by writes. -/
theorem Tidy.apply (htidy : c.Tidy) (h : c.Tracked) (op : Op Id Item) : (c.apply op).Tidy where
  distinct := by
    rw [apply_sealed]
    exact htidy.distinct
  unburied := fun j => (h.buried_apply (htidy.not_exhumes op) j).not.mpr (htidy.unburied j)

end Contents

end Segstore
