import Segstore.Memory.Tiers

/-!
# What `reclaim_tombstones` leaves

A segment of a default store is reclaimed when too few of its copies are live.
One merge makes a segment of live copies only from all of these, and then no
segment is left below the ratio.
-/

namespace Segstore

variable {Id Item F : Type}

/-- The comparison of live copies with the ratio `r` is that of exact arithmetic
with the number `q`. -/
def Exact [F64 F] (r : F) (q : Rat) : Prop :=
  ∀ live total : Nat, F64.lt (F64.ofUsize live) (F64.mul r (F64.ofUsize total)) =
    decide ((live : Rat) < q * total)

/-- So it is in exact arithmetic. -/
theorem exact_rat (q : Rat) : Exact q q :=
  fun _ _ => rfl

variable [DecidableEq Id]

/-- The number of live copies in a segment. -/
def PubState.liveCount (v : PubState Id (List (Id × Item))) (p : Nat × List (Id × Item)) : Nat :=
  (p.2.filter (fun e => v.isLiveIn p.1 e.1)).length

/-- Enough of the copies in a segment are live. -/
def PubState.Satisfies (v : PubState Id (List (Id × Item))) (q : Rat)
    (p : Nat × List (Id × Item)) : Prop :=
  q * p.2.length ≤ v.liveCount p

theorem PubState.satisfies_of_live {v : PubState Id (List (Id × Item))} {q : Rat} (hq : q ≤ 1)
    {p : Nat × List (Id × Item)} (h : ∀ e ∈ p.2, v.isLiveIn p.1 e.1 = true) :
    v.Satisfies q p := by
  rw [Satisfies, liveCount, List.filter_eq_self.mpr h]
  have hle := Rat.mul_le_mul_of_nonneg_right hq (Rat.natCast_nonneg (a := p.2.length))
  rwa [Rat.one_mul] at hle

namespace Contents

variable {c c' : Contents Id Item (List (Id × Item))} {q : Rat}

section Targets

variable [F64 F] {r : F}

/-- The targets are the positions of the segments below the ratio. -/
theorem reclaimTargets_default (hexact : Exact r q) (c : Contents Id Item (List (Id × Item)))
    (segs : List ((Nat × List (Id × Item)) × Nat)) :
    c.reclaimTargets (defaultStore Id Item) r segs = some ((segs.filter
      (fun p => decide ((c.liveCount p.1 : Rat) < q * p.1.2.length))).map Prod.snd) := by
  induction segs with
  | nil => rfl
  | cons p segs ih =>
      obtain ⟨⟨k, seg⟩, i⟩ := p
      rw [reclaimTargets, List.filter_cons]
      by_cases hnil : seg = []
      · -- an empty segment is not below any ratio
        subst hnil
        rw [if_pos (show (defaultStore Id Item).segmentLen [] = 0 from rfl), ih]
        simp [PubState.liveCount]
      · rw [if_neg (show ¬ (defaultStore Id Item).segmentLen seg = 0 from
          mt List.eq_nil_of_length_eq_zero hnil)]
        show (if F64.lt (F64.ofUsize (c.liveCount (k, seg)))
            (F64.mul r (F64.ofUsize seg.length)) = true then
          (c.reclaimTargets (defaultStore Id Item) r segs).map (i :: ·) else
            c.reclaimTargets (defaultStore Id Item) r segs) = _
        rw [hexact, ih]
        split
        · rfl
        · rfl

theorem mem_reclaimTargets (hexact : Exact r q) {g : List Nat}
    (h : c.reclaimTargets (defaultStore Id Item) r c.sealed.zipIdx = some g) {i : Nat} :
    i ∈ g ↔ ∃ p, c.sealed[i]? = some p ∧ ¬ c.Satisfies q p := by
  rw [reclaimTargets_default hexact, Option.some_inj] at h
  rw [← h, List.mem_map]
  simp only [List.mem_filter, List.mem_zipIdx_iff_getElem?, decide_eq_true_eq,
    PubState.Satisfies, Rat.not_le]
  constructor
  · rintro ⟨⟨p, i⟩, hp, rfl⟩
    exact ⟨p, hp⟩
  · rintro ⟨p, hp⟩
    exact ⟨(p, i), hp, rfl⟩

/-- The segments that stay are those with enough live copies. -/
theorem mem_dropIndices_reclaimTargets (hexact : Exact r q) {g : List Nat}
    (h : c.reclaimTargets (defaultStore Id Item) r c.sealed.zipIdx = some g)
    {p : Nat × List (Id × Item)} :
    p ∈ dropIndices g c.sealed ↔ p ∈ c.sealed ∧ c.Satisfies q p := by
  constructor
  · intro hp
    obtain ⟨i, hi, hget⟩ := mem_dropIndices.mp hp
    refine ⟨List.mem_of_getElem? hget, not_not.mp fun hbelow => hi ?_⟩
    exact (mem_reclaimTargets hexact h).mpr ⟨p, hget, hbelow⟩
  · rintro ⟨hp, henough⟩
    refine (mem_pick_or_mem_dropIndices hp g).resolve_left fun hpick => ?_
    obtain ⟨i, hi, hget⟩ := mem_pick.mp hpick
    obtain ⟨p', hget', hbelow⟩ := (mem_reclaimTargets hexact h).mp hi
    cases hget.symm.trans hget'
    exact hbelow henough

theorem reclaimTargets_nil (hexact : Exact r q) (h : ∀ p ∈ c.sealed, c.Satisfies q p) :
    c.reclaimTargets (defaultStore Id Item) r c.sealed.zipIdx = some [] := by
  rw [reclaimTargets_default hexact, Option.some_inj, List.map_eq_nil_iff, List.filter_eq_nil_iff]
  rintro ⟨p, i⟩ hp
  have henough := h p (List.mem_of_getElem? (List.mem_zipIdx_iff_getElem?.mp hp))
  simpa [PubState.Satisfies, Rat.not_lt] using henough

end Targets

/-- What reclaiming at the ratio `q` makes of the segments. -/
structure Reclaimed (q : Rat) (c c' : Contents Id Item (List (Id × Item))) : Prop where
  ratio : ∀ p ∈ c'.sealed, c'.Satisfies q p
  kept : ∀ p ∈ c.sealed, c.Satisfies q p → p ∈ c'.sealed
  fresh : ∀ p ∈ c'.sealed, p ∈ c.sealed ∨
    p.1 = c.nextSegId ∧ ∀ e ∈ p.2, c'.isLiveIn p.1 e.1 = true
  single : ∀ p ∈ c'.sealed, ∀ p' ∈ c'.sealed, p ∉ c.sealed → p' ∉ c.sealed → p = p'
  tombstones : c'.tombstones = c.tombstones

theorem Reclaimed.refl (h : ∀ p ∈ c.sealed, c.Satisfies q p) : Reclaimed q c c :=
  ⟨h, fun _ hp _ => hp, fun _ hp => .inl hp, fun _ hp _ _ hnew => absurd hp hnew, rfl⟩

/-- A group is merged into live copies. -/
theorem Tracked.isLiveIn_merged (h : c.Tracked) {g : List Nat} {e : Id × Item}
    (he : e ∈ c.mergedSegment (defaultStore Id Item) g) :
    (c.merge (defaultStore Id Item) g).isLiveIn c.nextSegId e.1 = true := by
  obtain ⟨k, -, -, -, -, hlive⟩ := (mem_mergedSegment h.shape).mp he
  exact (h.isLiveIn_merge_next e.1).mpr (isLiveIn_iff.mp hlive).1

/-- The merge of the targets. -/
theorem Reclaimed.merge [F64 F] {r : F} (hexact : Exact r q) (hq : q ≤ 1) (hc : c.Tracked)
    {g : List Nat} (h : c.reclaimTargets (defaultStore Id Item) r c.sealed.zipIdx = some g) :
    Reclaimed q c (c.merge (defaultStore Id Item) g) := by
  have hsealed : ∀ {p}, p ∈ (c.merge (defaultStore Id Item) g).sealed →
      p ∈ dropIndices g c.sealed ∨ p = (c.nextSegId, c.mergedSegment (defaultStore Id Item) g) := by
    intro p hp
    rw [merge_sealed _ hc.shape, List.mem_append] at hp
    refine hp.imp_right fun hp => ?_
    split at hp
    · exact List.mem_singleton.mp hp
    · cases hp
  have hnew : ∀ e ∈ c.mergedSegment (defaultStore Id Item) g,
      (c.merge (defaultStore Id Item) g).isLiveIn c.nextSegId e.1 = true :=
    fun e he => hc.isLiveIn_merged he
  refine ⟨fun p hp => ?_, fun p hp henough => ?_, fun p hp => ?_, fun _ hp _ hp' hout hout' => ?_,
    merge_tombstones _ _⟩
  · rcases hsealed hp with hp | rfl
    · have henough := ((mem_dropIndices_reclaimTargets hexact h).mp hp).2
      have hlive := isLiveIn_merge_of_not_mem ((mem_drop_sealed hc.shape).mp hp).2
      rw [PubState.Satisfies, PubState.liveCount]
      simp only [hlive]
      exact henough
    · exact PubState.satisfies_of_live hq hnew
  · rw [merge_sealed _ hc.shape]
    exact List.mem_append_left _
      ((mem_dropIndices_reclaimTargets hexact h).mpr ⟨hp, henough⟩)
  · rcases hsealed hp with hp | rfl
    · exact .inl ((dropIndices_sublist _ _).mem hp)
    · exact .inr ⟨rfl, hnew⟩
  · have hresult : ∀ {p}, p ∈ (c.merge (defaultStore Id Item) g).sealed → p ∉ c.sealed →
        p = (c.nextSegId, c.mergedSegment (defaultStore Id Item) g) :=
      fun hp hout => (hsealed hp).resolve_left fun hp => hout ((dropIndices_sublist _ _).mem hp)
    rw [hresult hp hout, hresult hp' hout']

/-- The commit after it. -/
theorem Reclaimed.retainSuperseded (h : Reclaimed q c c') (hc : c'.Tracked) :
    Reclaimed q c c'.retainSuperseded where
  ratio := by
    intro p hp
    rw [PubState.Satisfies, PubState.liveCount]
    simp only [hc.isLiveIn_retain]
    exact h.ratio p hp
  kept := h.kept
  fresh := by
    intro p hp
    simp only [hc.isLiveIn_retain]
    exact h.fresh p hp
  single := h.single
  tombstones := h.tombstones

end Contents

end Segstore
