import Mathlib.Data.List.AList

/-!
# Finite maps

Hash maps are modelled by Mathlib's association lists without repeated keys.
This file adds what a hash map offers beyond `insert`, `erase` and `lookup`:
dropping the keys that fail a test, dropping a list of keys, and the two
conversions from and to a list of pairs.  Every operation is described by what
a later `lookup` returns.
-/

namespace Segstore

universe u v

/-- A hash map from `α` to `β`. -/
abbrev FinMap (α : Type u) (β : Type v) := AList (fun _ : α => β)

namespace FinMap

variable {α : Type u} {β : Type v} [DecidableEq α]

theorem lookup_insert_eq (m : FinMap α β) (k j : α) (b : β) :
    (m.insert k b).lookup j = if j = k then some b else m.lookup j := by
  by_cases h : j = k
  · subst h
    simp
  · rw [AList.lookup_insert_ne h, if_neg h]

theorem lookup_erase_eq (m : FinMap α β) (k j : α) :
    (m.erase k).lookup j = if j = k then none else m.lookup j := by
  by_cases h : j = k
  · subst h
    simp
  · rw [AList.lookup_erase_ne h, if_neg h]

/-- Keep the entries whose key passes the test. -/
def retain (keep : α → Bool) (m : FinMap α β) : FinMap α β where
  entries := m.entries.filter (fun e => keep e.1)
  nodupKeys := m.nodupKeys.sublist List.filter_sublist

theorem dlookup_filter_key (keep : α → Bool) (j : α)
    (l : List (Sigma fun _ : α => β)) :
    List.dlookup j (l.filter (fun e => keep e.1)) =
      if keep j then List.dlookup j l else none := by
  induction l with
  | nil =>
      simp
  | cons e l ih =>
      by_cases hje : j = e.1
      · by_cases hk : keep j = true
        · have hke : keep e.1 = true := hje ▸ hk
          rw [List.filter_cons_of_pos (by simpa using hke), if_pos hk]
          subst hje
          rw [List.dlookup_cons_eq, List.dlookup_cons_eq]
        · have hke : ¬ keep e.1 = true := hje ▸ hk
          rw [List.filter_cons_of_neg (by simpa using hke), ih, if_neg hk, if_neg hk]
      · rw [List.dlookup_cons_ne l e hje, ← ih]
        by_cases hk : keep e.1 = true
        · rw [List.filter_cons_of_pos (by simpa using hk), List.dlookup_cons_ne _ e hje]
        · rw [List.filter_cons_of_neg (by simpa using hk)]

theorem lookup_retain (keep : α → Bool) (m : FinMap α β) (j : α) :
    (m.retain keep).lookup j = if keep j then m.lookup j else none :=
  dlookup_filter_key keep j m.entries

/-- Change every value. -/
def mapValues (f : β → β) (m : FinMap α β) : FinMap α β where
  entries := m.entries.map (fun e => ⟨e.1, f e.2⟩)
  nodupKeys := m.nodupKeys.map₂ (fun _ => f)

theorem lookup_mapValues (f : β → β) (m : FinMap α β) (j : α) :
    (m.mapValues f).lookup j = (m.lookup j).map f :=
  List.dlookup_map₂ (f := fun _ => f) j

/-- Remove every key of the list. -/
def eraseAll (keys : List α) (m : FinMap α β) : FinMap α β :=
  keys.foldl (fun m k => m.erase k) m

theorem lookup_eraseAll (keys : List α) (m : FinMap α β) (j : α) :
    (m.eraseAll keys).lookup j = if j ∈ keys then none else m.lookup j := by
  induction keys generalizing m with
  | nil =>
      simp [eraseAll]
  | cons k keys ih =>
      have hstep : m.eraseAll (k :: keys) = eraseAll keys (m.erase k) := rfl
      rw [hstep, ih, lookup_erase_eq]
      by_cases hj : j ∈ keys
      · simp [hj]
      · by_cases hk : j = k
        · simp [hk]
        · simp [hj, hk]

/-- Give every key of the list the value `b`. -/
def insertAll (keys : List α) (b : β) (m : FinMap α β) : FinMap α β :=
  keys.foldl (fun m k => m.insert k b) m

theorem lookup_insertAll (keys : List α) (b : β) (m : FinMap α β) (j : α) :
    (m.insertAll keys b).lookup j = if j ∈ keys then some b else m.lookup j := by
  induction keys generalizing m with
  | nil =>
      simp [insertAll]
  | cons k keys ih =>
      have hstep : m.insertAll (k :: keys) b = insertAll keys b (m.insert k b) := rfl
      rw [hstep, ih, lookup_insert_eq]
      by_cases hj : j ∈ keys
      · simp [hj]
      · by_cases hk : j = k
        · simp [hk]
        · simp [hj, hk]

/-- Collect pairs into a map.  Of two pairs with one key the later one stays. -/
def ofPairs (pairs : List (α × β)) : FinMap α β :=
  pairs.foldl (fun m p => m.insert p.1 p.2) ∅

/-- The entries as pairs. -/
def pairs (m : FinMap α β) : List (α × β) :=
  m.entries.map (fun e => (e.1, e.2))

theorem mem_pairs (m : FinMap α β) (k : α) (b : β) :
    (k, b) ∈ m.pairs ↔ m.lookup k = some b := by
  rw [← Option.mem_def, AList.mem_lookup_iff]
  simp only [pairs, List.mem_map, Prod.mk.injEq]
  constructor
  · rintro ⟨e, he, rfl, rfl⟩
    exact he
  · intro he
    exact ⟨⟨k, b⟩, he, rfl, rfl⟩

omit [DecidableEq α] in
theorem pairs_keys_nodup (m : FinMap α β) : (m.pairs.map Prod.fst).Nodup := by
  have hkeys : m.pairs.map Prod.fst = m.keys := by
    simp [pairs, AList.keys, List.keys]
  rw [hkeys]
  exact m.keys_nodup

theorem lookup_foldl_insert (j : α) (b : β) (pairs : List (α × β)) (m : FinMap α β)
    (hnd : (pairs.map Prod.fst).Nodup) :
    (pairs.foldl (fun m p => m.insert p.1 p.2) m).lookup j = some b ↔
      (j, b) ∈ pairs ∨ (j ∉ pairs.map Prod.fst ∧ m.lookup j = some b) := by
  induction pairs generalizing m with
  | nil =>
      simp
  | cons p pairs ih =>
      obtain ⟨k, c⟩ := p
      have hk : k ∉ pairs.map Prod.fst := (List.nodup_cons.mp hnd).1
      have hnd' : (pairs.map Prod.fst).Nodup := (List.nodup_cons.mp hnd).2
      rw [List.foldl_cons, ih _ hnd', lookup_insert_eq]
      have hmem : ∀ c', (k, c') ∉ pairs := fun c' hc' =>
        hk (List.mem_map.mpr ⟨(k, c'), hc', rfl⟩)
      by_cases hj : j = k
      · subst hj
        simp [hk, hmem, eq_comm]
      · simp [hj]

/-- With distinct keys, the collected map holds exactly the pairs. -/
theorem lookup_ofPairs {pairs : List (α × β)}
    (hnd : (pairs.map Prod.fst).Nodup) (j : α) (b : β) :
    (ofPairs pairs).lookup j = some b ↔ (j, b) ∈ pairs := by
  rw [ofPairs, lookup_foldl_insert j b pairs ∅ hnd]
  simp

/-- Collecting pairs with distinct keys loses their order only. -/
theorem pairs_ofPairs {pairs : List (α × β)} (hnd : (pairs.map Prod.fst).Nodup) :
    (ofPairs pairs).pairs.Perm pairs := by
  have hleft : (ofPairs pairs).pairs.Nodup := (pairs_keys_nodup _).of_map _
  refine (List.perm_ext_iff_of_nodup hleft (hnd.of_map _)).mpr fun p => ?_
  rw [mem_pairs, lookup_ofPairs hnd]

/-- Maps collected from the same keys with related values. -/
theorem rel_ofPairs {γ : Type} {R : β → γ → Prop} {l : List (α × β)} {l' : List (α × γ)}
    (h : List.Forall₂ (fun p q => p.1 = q.1 ∧ R p.2 q.2) l l') (j : α) :
    Option.Rel R ((ofPairs l).lookup j) ((ofPairs l').lookup j) := by
  have hfold : ∀ (m : FinMap α β) (m' : FinMap α γ),
      (∀ j, Option.Rel R (m.lookup j) (m'.lookup j)) → ∀ j, Option.Rel R
        ((l.foldl (fun m p => m.insert p.1 p.2) m).lookup j)
        ((l'.foldl (fun m p => m.insert p.1 p.2) m').lookup j) := by
    induction h with
    | nil => exact fun _ _ hm => hm
    | @cons p q l l' hpq _ ih =>
        refine fun m m' hm => ih _ _ fun j => ?_
        rw [lookup_insert_eq, lookup_insert_eq, ← hpq.1]
        split
        · exact .some hpq.2
        · exact hm j
  exact hfold ∅ ∅ (fun _ => .none) j

end FinMap

end Segstore
