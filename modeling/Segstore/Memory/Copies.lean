import Segstore.Kernel.LiveCopies
import Segstore.Memory.Shape

/-!
# Copies of an id

Over segments that are lists of entries: which segment lists an id, which of
its copies are marked superseded, which one is live.
-/

namespace Segstore

variable {Id Item : Type}

/-! ## Marks -/

/-- The copy of the id in the segment is marked superseded. -/
def Marked (superseded : FinMap Nat (List Id)) (seg : Nat) (id : Id) : Prop :=
  ∃ ids, superseded.lookup seg = some ids ∧ id ∈ ids

instance [DecidableEq Id] (superseded : FinMap Nat (List Id)) (seg : Nat) (id : Id) :
    Decidable (Marked superseded seg id) :=
  decidable_of_iff (id ∈ (superseded.lookup seg).getD []) <| by
    rw [Marked]
    cases superseded.lookup seg <;> simp

section Marks

variable {superseded : FinMap Nat (List Id)}

@[simp] theorem not_marked_empty (seg : Nat) (id : Id) :
    ¬ Marked (∅ : FinMap Nat (List Id)) seg id := by
  rintro ⟨ids, hids, -⟩
  simp at hids

theorem marked_congr {s s' : FinMap Nat (List Id)} {seg : Nat}
    (h : s'.lookup seg = s.lookup seg) (id : Id) : Marked s' seg id ↔ Marked s seg id := by
  rw [Marked, Marked, h]

theorem marked_retain (keep : Nat → Bool) (seg : Nat) (id : Id) :
    Marked (superseded.retain keep) seg id ↔ keep seg = true ∧ Marked superseded seg id := by
  rw [Marked, Marked, FinMap.lookup_retain]
  split
  · rename_i h
    simp [h]
  · rename_i h
    simp [h]

theorem marked_eraseAll (keys : List Nat) (seg : Nat) (id : Id) :
    Marked (superseded.eraseAll keys) seg id ↔ seg ∉ keys ∧ Marked superseded seg id := by
  rw [Marked, Marked, FinMap.lookup_eraseAll]
  split
  · rename_i h
    simp [h]
  · rename_i h
    simp [h]

variable [DecidableEq Id]

theorem marked_markSuperseded (seg : Nat) (id : Id) (k : Nat) (j : Id) :
    Marked (markSuperseded superseded seg id) k j ↔
      k = seg ∧ j = id ∨ Marked superseded k j := by
  rw [Marked, Marked, markSuperseded, FinMap.lookup_insert_eq]
  by_cases hk : k = seg
  · subst hk
    cases hids : superseded.lookup k with
    | none => simp
    | some ids => simp [List.mem_insert_iff]
  · simp [hk]

theorem copyIsLive_iff (tombstones : List Id) (seg : Nat) (id : Id) :
    copyIsLive tombstones superseded seg id = true ↔
      id ∉ tombstones ∧ ¬ Marked superseded seg id := by
  rw [copyIsLive, Marked]
  cases hids : superseded.lookup seg with
  | none => simp
  | some ids => simp

end Marks

namespace Contents

variable (c : Contents Id Item (List (Id × Item)))

/-- The segment lists the id. -/
def Lists (seg : Nat) (id : Id) : Prop :=
  ∃ entries, (seg, entries) ∈ c.sealed ∧ id ∈ entries.map Prod.fst

/-- The id is tombstoned, but one of its copies is not marked: a copy that
would come back to life without its tombstone. -/
def Buried (id : Id) : Prop :=
  id ∈ c.tombstones ∧ ∃ seg, c.Lists seg id ∧ ¬ Marked c.superseded seg id

variable [DecidableEq Id]

instance (seg : Nat) (id : Id) : Decidable (c.Lists seg id) :=
  decidable_of_iff (∃ p ∈ c.sealed, p.1 = seg ∧ id ∈ p.2.map Prod.fst)
    ⟨fun ⟨p, hp, hseg, hid⟩ => ⟨p.2, hseg ▸ hp, hid⟩,
      fun ⟨entries, hp, hid⟩ => ⟨(seg, entries), hp, rfl, hid⟩⟩

instance (id : Id) : Decidable (c.Buried id) :=
  decidable_of_iff (id ∈ c.tombstones ∧
      ∃ p ∈ c.sealed, id ∈ p.2.map Prod.fst ∧ ¬ Marked c.superseded p.1 id)
    ⟨fun ⟨htomb, p, hp, hid, hmark⟩ => ⟨htomb, p.1, ⟨p.2, hp, hid⟩, hmark⟩,
      fun ⟨htomb, seg, ⟨entries, hp, hid⟩, hmark⟩ => ⟨htomb, (seg, entries), hp, hid, hmark⟩⟩

/-- The live copies: entries of the buffer, and live entries of segments. -/
def LiveCopy : Option Nat → Id → Item → Prop
  | none, id, item => (id, item) ∈ c.buffer
  | some seg, id, item =>
      ∃ entries, (seg, entries) ∈ c.sealed ∧ (id, item) ∈ entries ∧ c.isLiveIn seg id = true

variable {c}

theorem isLiveIn_iff {Seg : Type} {v : PubState Id Seg} {seg : Nat} {id : Id} :
    v.isLiveIn seg id = true ↔ id ∉ v.tombstones ∧ ¬ Marked v.superseded seg id :=
  copyIsLive_iff _ _ _

theorem mem_livePairs {id : Id} {item : Item} :
    (id, item) ∈ c.livePairs ↔ ∃ place, c.LiveCopy place id item := by
  rw [livePairs, List.mem_append, List.mem_flatMap, Option.exists, or_comm]
  refine or_congr Iff.rfl ⟨?_, ?_⟩
  · rintro ⟨p, hp, hmem⟩
    obtain ⟨hmem, hlive⟩ := List.mem_filter.mp hmem
    exact ⟨p.1, p.2, hp, hmem, hlive⟩
  · rintro ⟨seg, entries, hp, hmem, hlive⟩
    exact ⟨(seg, entries), hp, List.mem_filter.mpr ⟨hmem, hlive⟩⟩

theorem LiveCopy.lists {seg : Nat} {id : Id} {item : Item}
    (h : c.LiveCopy (some seg) id item) : c.Lists seg id ∧ c.isLiveIn seg id = true := by
  obtain ⟨entries, hp, hmem, hlive⟩ := h
  exact ⟨⟨entries, hp, List.mem_map.mpr ⟨_, hmem, rfl⟩⟩, hlive⟩

omit [DecidableEq Id] in
/-- A segment lists the ids of its entries. -/
theorem lists_iff_of_mem_sealed (hc : c.Shape) {k : Nat} {entries : List (Id × Item)}
    (hp : (k, entries) ∈ c.sealed) (id : Id) : c.Lists k id ↔ id ∈ entries.map Prod.fst := by
  constructor
  · rintro ⟨entries', hp', hid⟩
    exact sealed_unique hc.sorted hp hp' ▸ hid
  · exact fun hid => ⟨entries, hp, hid⟩

omit [DecidableEq Id] in
theorem Lists.mem_segmentIds {seg : Nat} {id : Id} (h : c.Lists seg id) :
    seg ∈ c.segmentIds := by
  obtain ⟨entries, hp, -⟩ := h
  exact fst_mem_of_mem_sealed hp

omit [DecidableEq Id] in
theorem lists_congr {c' : Contents Id Item (List (Id × Item))} (h : c'.sealed = c.sealed)
    (seg : Nat) (id : Id) : c'.Lists seg id ↔ c.Lists seg id := by
  rw [Lists, Lists, h]

end Contents

end Segstore
