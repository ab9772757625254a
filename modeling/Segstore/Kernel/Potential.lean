import Mathlib.Analysis.SpecialFunctions.Log.Basic

/-!
# What merging costs

Amounts are sealed into parts, and parts are merged into larger ones.  When each
part of a merge is at most a fixed share of the whole, its logarithm grows by a
constant, and that pays for the merge.  So the total of such merges is bounded by what
was sealed times a logarithm, whatever other merges there are and however much is
dropped in between.
-/

namespace Segstore

/-- The work that a part of this size may still take part in. -/
noncomputable def potential (limit x : ℝ) : ℝ := x * (limit - Real.log x)

section Potential

variable {limit f g x y : ℝ}

theorem potential_nonneg (hx : 0 ≤ x) (hlimit : Real.log x + 1 ≤ limit) :
    0 ≤ potential limit x :=
  mul_nonneg hx (by linarith)

theorem potential_le (hf : 0 < f) (hx : f ≤ x) :
    potential limit x ≤ x * (limit - Real.log f) := by
  have hlog := Real.log_le_log hf hx
  exact mul_le_mul_of_nonneg_left (by linarith) (hf.le.trans hx)

/-- Up to the limit the potential grows with the size. -/
theorem potential_mono (hx : 0 < x) (hxy : x ≤ y) (hlimit : Real.log y + 1 ≤ limit) :
    potential limit x ≤ potential limit y := by
  have hy := hx.trans_le hxy
  have hlog : Real.log y - Real.log x ≤ y / x - 1 := by
    rw [← Real.log_div hy.ne' hx.ne']
    exact Real.log_le_sub_one_of_pos (div_pos hy hx)
  have hgain : x * (Real.log y - Real.log x) ≤ y - x := by
    have hle := mul_le_mul_of_nonneg_left hlog hx.le
    rwa [mul_sub_one, mul_div_cancel₀ _ hx.ne'] at hle
  have hrest : (y - x) * 1 ≤ (y - x) * (limit - Real.log y) :=
    mul_le_mul_of_nonneg_left (by linarith) (sub_nonneg.mpr hxy)
  calc potential limit x = x * (limit - Real.log y) + x * (Real.log y - Real.log x) := by
        rw [potential]
        ring
    _ ≤ x * (limit - Real.log y) + (y - x) * (limit - Real.log y) := by linarith
    _ = potential limit y := by
        rw [potential]
        ring

/-- Parts that are small shares of their sum have more potential than it has. -/
theorem potential_sum_le (hg : 0 < g) {parts : List ℝ} (hpos : ∀ x ∈ parts, 0 < x)
    {total : ℝ} (hshare : ∀ x ∈ parts, g * x ≤ total) :
    parts.sum * (limit - Real.log total + Real.log g) ≤ (parts.map (potential limit)).sum := by
  have hsum : parts.sum * (limit - Real.log total + Real.log g) =
      (parts.map fun x => x * (limit - Real.log total + Real.log g)).sum := by
    rw [List.sum_map_mul_right, List.map_id']
  rw [hsum]
  refine List.sum_le_sum fun x hx => ?_
  have hx0 := hpos x hx
  have hlog := Real.log_le_log (mul_pos hg hx0) (hshare x hx)
  rw [Real.log_mul hg.ne' hx0.ne'] at hlog
  exact mul_le_mul_of_nonneg_left (by linarith) hx0.le

end Potential

/-! ## Accounts -/

/-- Parts of at least `f`, and what is not sealed yet, after `budget` came in and
`work` was spent on merges whose parts each grew by the factor `g`. -/
structure Account (limit f g budget work : ℝ) (parts : List ℝ) (unsealed : ℝ) : Prop where
  floor : ∀ x ∈ parts, f ≤ x
  nonneg : 0 ≤ unsealed
  mass : parts.sum + unsealed ≤ budget
  paid : work * Real.log g + (parts.map (potential limit)).sum +
    unsealed * (limit - Real.log f) ≤ budget * (limit - Real.log f)

namespace Account

variable {limit f g budget work unsealed : ℝ} {parts parts' group rest : List ℝ}

/-- What is there at first came in at no work. -/
theorem start (hf : 0 < f) (hfloor : ∀ x ∈ parts, f ≤ x) (hnonneg : 0 ≤ unsealed) :
    Account limit f g (parts.sum + unsealed) 0 parts unsealed where
  floor := hfloor
  nonneg := hnonneg
  mass := le_refl _
  paid := by
    have hsum : (parts.map fun x => x * (limit - Real.log f)).sum =
        parts.sum * (limit - Real.log f) := by
      rw [List.sum_map_mul_right, List.map_id']
    have hparts : (parts.map (potential limit)).sum ≤
        (parts.map fun x => x * (limit - Real.log f)).sum :=
      List.sum_le_sum fun x hx => potential_le hf (hfloor x hx)
    linarith

theorem perm (h : Account limit f g budget work parts unsealed) (hp : parts'.Perm parts) :
    Account limit f g budget work parts' unsealed where
  floor := fun x hx => h.floor x (hp.mem_iff.mp hx)
  nonneg := h.nonneg
  mass := by
    rw [hp.sum_eq]
    exact h.mass
  paid := by
    rw [(hp.map _).sum_eq]
    exact h.paid

/-- What is not sealed grows by no more than what comes in. -/
theorem accept (h : Account limit f g budget work parts unsealed) (hroom : Real.log f ≤ limit)
    {budget' unsealed' : ℝ} (hnonneg : 0 ≤ unsealed')
    (hle : unsealed' - unsealed ≤ budget' - budget) :
    Account limit f g budget' work parts unsealed' where
  floor := h.floor
  nonneg := hnonneg
  mass := by linarith [h.mass]
  paid := by
    have hmore := mul_le_mul_of_nonneg_right hle (sub_nonneg.mpr hroom)
    rw [sub_mul, sub_mul] at hmore
    linarith [h.paid]

/-- All that was not sealed becomes a part. -/
theorem sealed (hf : 0 < f) (h : Account limit f g budget work parts unsealed)
    (hpart : f ≤ unsealed) : Account limit f g budget work (parts ++ [unsealed]) 0 where
  floor := List.forall_mem_append.mpr ⟨h.floor, by simpa using hpart⟩
  nonneg := le_refl 0
  mass := by
    rw [List.sum_append, List.sum_singleton, add_zero]
    exact h.mass
  paid := by
    have hpot : potential limit unsealed ≤ unsealed * (limit - Real.log f) :=
      potential_le hf hpart
    rw [List.map_append, List.sum_append, List.map_singleton, List.sum_singleton, zero_mul,
      add_zero]
    linarith [h.paid]

theorem part_le (hf : 0 ≤ f) (h : Account limit f g budget work parts unsealed) {x : ℝ}
    (hx : x ∈ parts) : x ≤ budget := by
  have hle := List.single_le_sum (fun y hy => hf.trans (h.floor y hy)) x hx
  linarith [h.mass, h.nonneg]

/-- Parts are replaced by others, which leaves enough potential for the work. -/
theorem replace (h : Account limit f g budget work (group ++ rest) unsealed)
    {new : List ℝ} {w : ℝ} (hfloor : ∀ x ∈ new, f ≤ x) (hsum : new.sum ≤ group.sum)
    (hpays : (new.map (potential limit)).sum + w * Real.log g ≤
      (group.map (potential limit)).sum) :
    Account limit f g budget (work + w) (rest ++ new) unsealed where
  floor := List.forall_mem_append.mpr
    ⟨fun x hx => h.floor x (List.mem_append_right _ hx), hfloor⟩
  nonneg := h.nonneg
  mass := by
    have hmass := h.mass
    rw [List.sum_append] at hmass ⊢
    linarith
  paid := by
    have hpaid := h.paid
    rw [List.map_append, List.sum_append] at hpaid ⊢
    linarith

/-- A merge frees the potential by which the logarithms grow. -/
theorem spend (hf : 0 < f) (h : Account limit f g budget work (group ++ rest) unsealed)
    (hlimit : Real.log budget + 1 ≤ limit) (hne : group ≠ []) {k : ℝ} (hk : 0 < k)
    (hshare : ∀ x ∈ group, k * x ≤ group.sum) {w : ℝ}
    (hcost : w * Real.log g ≤ group.sum * Real.log k) {new : List ℝ}
    (hnew : new = [] ∨ ∃ t, new = [t] ∧ f ≤ t ∧ t ≤ group.sum) :
    Account limit f g budget (work + w) (rest ++ new) unsealed := by
  have hgroup : ∀ x ∈ group, 0 < x := fun x hx =>
    hf.trans_le (h.floor x (List.mem_append_left _ hx))
  have htotal : 0 < group.sum := List.sum_pos _ hgroup hne
  have hbudget : group.sum ≤ budget := by
    have hrest : 0 ≤ rest.sum := List.sum_nonneg fun x hx =>
      hf.le.trans (h.floor x (List.mem_append_right _ hx))
    have hmass := h.mass
    rw [List.sum_append] at hmass
    linarith [h.nonneg]
  have hroom : Real.log group.sum + 1 ≤ limit :=
    (add_le_add_left (Real.log_le_log htotal hbudget) 1).trans hlimit
  have hsum : group.sum * (limit - Real.log group.sum + Real.log k) ≤
      (group.map (potential limit)).sum := potential_sum_le hk hgroup hshare
  have hall : potential limit group.sum + w * Real.log g ≤
      (group.map (potential limit)).sum := by
    rw [potential]
    linarith
  rcases hnew with rfl | ⟨t, rfl, hft, ht⟩
  · refine h.replace (by simp) (by simpa using htotal.le) ?_
    rw [List.map_nil, List.sum_nil]
    linarith [potential_nonneg htotal.le hroom]
  · refine h.replace (by simpa using hft) (by simpa using ht) ?_
    rw [List.map_singleton, List.sum_singleton]
    linarith [potential_mono (hf.trans_le hft) ht hroom]

/-- A merge whose parts are small shares, of which all is written or less. -/
theorem merge (hf : 0 < f) (h : Account limit f g budget work (group ++ rest) unsealed)
    (hlimit : Real.log budget + 1 ≤ limit) (hne : group ≠ []) (hg : 1 ≤ g)
    (hshare : ∀ x ∈ group, g * x ≤ group.sum) {w : ℝ} (hw : w ≤ group.sum) {new : List ℝ}
    (hnew : new = [] ∨ ∃ t, new = [t] ∧ f ≤ t ∧ t ≤ group.sum) :
    Account limit f g budget (work + w) (rest ++ new) unsealed :=
  h.spend hf hlimit hne (zero_lt_one.trans_le hg) hshare
    (mul_le_mul_of_nonneg_right hw (Real.log_nonneg hg)) hnew

/-- Any merge, when its work is not counted. -/
theorem combine (hf : 0 < f) (h : Account limit f g budget work (group ++ rest) unsealed)
    (hlimit : Real.log budget + 1 ≤ limit) (hne : group ≠ []) {new : List ℝ}
    (hnew : new = [] ∨ ∃ t, new = [t] ∧ f ≤ t ∧ t ≤ group.sum) :
    Account limit f g budget work (rest ++ new) unsealed := by
  have hshare : ∀ x ∈ group, 1 * x ≤ group.sum := by
    intro x hx
    rw [one_mul]
    exact List.single_le_sum (fun y hy => hf.le.trans
      (h.floor y (List.mem_append_left _ hy))) x hx
  have hspent := h.spend hf hlimit hne zero_lt_one hshare (w := 0) (by simp) hnew
  rwa [add_zero] at hspent

/-- The work is bounded by what came in. -/
theorem bound (hf : 0 < f) (h : Account limit f g budget work parts unsealed)
    (hlimit : Real.log budget + 1 ≤ limit) (hroom : Real.log f ≤ limit) :
    work * Real.log g ≤ budget * (limit - Real.log f) := by
  have hparts : 0 ≤ (parts.map (potential limit)).sum := by
    refine List.sum_nonneg fun y hy => ?_
    obtain ⟨x, hx, rfl⟩ := List.mem_map.mp hy
    have hx0 := hf.trans_le (h.floor x hx)
    have hlog := Real.log_le_log hx0 (h.part_le hf.le hx)
    exact potential_nonneg hx0.le (by linarith)
  have hunsealed := mul_nonneg h.nonneg (sub_nonneg.mpr hroom)
  linarith [h.paid]

end Account

end Segstore
