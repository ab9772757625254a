import Segstore.Kernel.LastWrite

/-!
# A map kept as scattered copies

A map may be stored as copies of its entries at several places, some of them
dead.  `Represents copy m` says that the live copies, `copy place key value`,
make up the map `m`, with one place for each key.  The rules tell how a write,
a removal and a relocation of live copies act on the map.
-/

namespace Segstore

universe u v w

/-- The live copies make up `m`, each key at one place. -/
structure Represents {ρ : Type w} {κ : Type u} {ν : Type v} (copy : ρ → κ → ν → Prop)
    (m : κ → Option ν) : Prop where
  value : ∀ k v, m k = some v ↔ ∃ l, copy l k v
  place : ∀ {k l l' v v'}, copy l k v → copy l' k v' → l = l'

namespace Represents

variable {ρ : Type w} {κ : Type u} {ν : Type v}
variable {copy copy' : ρ → κ → ν → Prop} {m : κ → Option ν}

/-- Two live copies of one key agree. -/
theorem unique (h : Represents copy m) {k : κ} {l l' : ρ} {v v' : ν} (hc : copy l k v)
    (hc' : copy l' k v') : l = l' ∧ v = v' := by
  refine ⟨h.place hc hc', ?_⟩
  have hv := (h.value k v).mpr ⟨l, hc⟩
  have hv' := (h.value k v').mpr ⟨l', hc'⟩
  exact Option.some.inj (hv.symm.trans hv')

/-- The copies make one map only. -/
theorem map_unique {m' : κ → Option ν} (h : Represents copy m) (h' : Represents copy m') :
    m = m' := by
  funext k
  refine Option.ext fun v => ?_
  exact (h.value k v).trans (h'.value k v).symm

theorem congr (h : Represents copy m) (hcopy : ∀ l k v, copy' l k v ↔ copy l k v) :
    Represents copy' m where
  value := by
    intro k v
    rw [h.value]
    exact exists_congr fun l => (hcopy l k v).symm
  place := fun hc hc' => h.place ((hcopy _ _ _).mp hc) ((hcopy _ _ _).mp hc')

/-- Live copies move to other places. -/
theorem relocate (h : Represents copy m) (move : ρ → ρ)
    (hcopy : ∀ l k v, copy' l k v ↔ ∃ l₀, copy l₀ k v ∧ l = move l₀) : Represents copy' m where
  value := by
    intro k v
    rw [h.value]
    constructor
    · rintro ⟨l, hl⟩
      exact ⟨move l, (hcopy _ _ _).mpr ⟨l, hl, rfl⟩⟩
    · rintro ⟨l, hl⟩
      obtain ⟨l₀, hl₀, -⟩ := (hcopy _ _ _).mp hl
      exact ⟨l₀, hl₀⟩
  place := by
    intro k l l' v v' hc hc'
    obtain ⟨l₀, hl₀, rfl⟩ := (hcopy _ _ _).mp hc
    obtain ⟨l₁, hl₁, rfl⟩ := (hcopy _ _ _).mp hc'
    rw [h.place hl₀ hl₁]

variable [DecidableEq κ]

/-- Every live copy of the key dies, and the new value gets one. -/
theorem put (h : Represents copy m) {k : κ} {v : ν} {p : ρ}
    (hcopy : ∀ l j w, copy' l j w ↔ j ≠ k ∧ copy l j w ∨ j = k ∧ l = p ∧ w = v) :
    Represents copy' ((Write.put k v).run m) where
  value := by
    intro j w
    rw [Write.run_apply]
    simp only [hcopy, Write.key, Write.value]
    by_cases hj : j = k
    · simp [hj, eq_comm]
    · simp [hj, h.value]
  place := by
    intro j l l' w w' hc hc'
    rcases (hcopy _ _ _).mp hc with ⟨hj, hc⟩ | ⟨hj, rfl, -⟩
    · rcases (hcopy _ _ _).mp hc' with ⟨-, hc'⟩ | ⟨hj', -, -⟩
      · exact h.place hc hc'
      · exact absurd hj' hj
    · rcases (hcopy _ _ _).mp hc' with ⟨hj', -⟩ | ⟨-, rfl, -⟩
      · exact absurd hj hj'
      · rfl

/-- Every live copy of the key dies. -/
theorem remove (h : Represents copy m) {k : κ}
    (hcopy : ∀ l j w, copy' l j w ↔ j ≠ k ∧ copy l j w) :
    Represents copy' ((Write.remove k : Write κ ν).run m) where
  value := by
    intro j w
    rw [Write.run_apply]
    simp only [hcopy, Write.key, Write.value]
    by_cases hj : j = k
    · simp [hj]
    · simp [hj, h.value]
  place := fun hc hc' => h.place ((hcopy _ _ _).mp hc).2 ((hcopy _ _ _).mp hc').2

end Represents

end Segstore
