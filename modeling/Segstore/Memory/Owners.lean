import Segstore.Model.Open
import Segstore.Memory.Sealing

/-!
# Rebuilding the owners

What `open_with_options` makes of segments that are lists of entries.  Among
the segments that list an id as live, its claimants, the last one owns it and
the others become superseded.  It is an error exactly when one segment lists an
id twice as live.
-/

namespace Segstore

variable {Id Item : Type} [DecidableEq Id]

section Claimants

variable (tombstones : List Id) (superseded : FinMap Nat (List Id))

/-- The segments that list the id as live, oldest first. -/
def claimants (segs : List (Nat × List Id)) (id : Id) : List Nat :=
  (segs.filter (fun p =>
    decide (id ∈ p.2) && copyIsLive tombstones superseded p.1 id)).map Prod.fst

/-- The claims after some segments. -/
structure Resolved (segs : List (Nat × List Id)) (claims : Claims Id) : Prop where
  owner : ∀ id, claims.1.lookup id = (claimants tombstones superseded segs id).getLast?
  marked : ∀ seg id, Marked claims.2 seg id ↔
    Marked superseded seg id ∨ seg ∈ (claimants tombstones superseded segs id).dropLast

variable {tombstones superseded}

theorem mem_claimants {segs : List (Nat × List Id)} {id : Id} {seg : Nat} :
    seg ∈ claimants tombstones superseded segs id ↔
      (∃ ids, (seg, ids) ∈ segs ∧ id ∈ ids) ∧
        copyIsLive tombstones superseded seg id = true := by
  simp only [claimants, List.mem_map, List.mem_filter, Bool.and_eq_true, decide_eq_true_eq]
  constructor
  · rintro ⟨⟨k, ids⟩, ⟨hp, hid, hlive⟩, rfl⟩
    exact ⟨⟨ids, hp, hid⟩, hlive⟩
  · rintro ⟨⟨ids, hp, hid⟩, hlive⟩
    exact ⟨(seg, ids), ⟨hp, hid, hlive⟩, rfl⟩

theorem claimants_concat (segs : List (Nat × List Id)) (seg : Nat) (ids : List Id) (id : Id) :
    claimants tombstones superseded (segs ++ [(seg, ids)]) id =
      claimants tombstones superseded segs id ++
        if id ∈ ids ∧ copyIsLive tombstones superseded seg id = true then [seg] else [] := by
  rw [claimants, claimants, List.filter_append, List.map_append]
  congr 1
  by_cases h : id ∈ ids ∧ copyIsLive tombstones superseded seg id = true
  · simp [h]
  · rw [if_neg h]
    simpa [List.filter_cons] using h

theorem claimants_nodup {segs : List (Nat × List Id)} (hnd : (segs.map Prod.fst).Nodup)
    (id : Id) : (claimants tombstones superseded segs id).Nodup :=
  hnd.sublist (List.filter_sublist.map _)

theorem not_mem_claimants {segs : List (Nat × List Id)} {seg : Nat}
    (h : seg ∉ segs.map Prod.fst) (id : Id) :
    seg ∉ claimants tombstones superseded segs id := fun hmem =>
  h ((List.filter_sublist.map Prod.fst).mem hmem)

/-! ## One segment -/

/-- The ids of the segment that it lists as live. -/
def liveIds (tombstones : List Id) (superseded : FinMap Nat (List Id)) (seg : Nat)
    (ids : List Id) : List Id :=
  ids.filter (copyIsLive tombstones superseded seg)

variable {segs : List (Nat × List Id)} {seg : Nat} {done : List Id} {claims : Claims Id}

/-- Within a segment, liveness is as the manifest has it. -/
theorem Resolved.copyIsLive_eq
    (h : Resolved tombstones superseded (segs ++ [(seg, done)]) claims)
    (hseg : seg ∉ segs.map Prod.fst) (id : Id) :
    copyIsLive tombstones claims.2 seg id = copyIsLive tombstones superseded seg id := by
  rw [Bool.eq_iff_iff, copyIsLive_iff, copyIsLive_iff, h.marked, claimants_concat]
  refine and_congr_right fun _ => not_congr (or_iff_left ?_)
  split
  · rw [List.dropLast_concat]
    exact not_mem_claimants hseg id
  · rw [List.append_nil]
    exact fun hmem => not_mem_claimants hseg id (List.dropLast_subset _ hmem)

/-- Another id of the segment does not change who claims an id. -/
theorem claimants_extend_other {id j : Id} (hj : j ≠ id) :
    claimants tombstones superseded (segs ++ [(seg, done ++ [id])]) j =
      claimants tombstones superseded (segs ++ [(seg, done)]) j := by
  rw [claimants_concat, claimants_concat]
  simp [hj]

/-- A dead copy is no claim. -/
theorem claimants_extend_dead {id : Id}
    (hdead : ¬ copyIsLive tombstones superseded seg id = true) (j : Id) :
    claimants tombstones superseded (segs ++ [(seg, done ++ [id])]) j =
      claimants tombstones superseded (segs ++ [(seg, done)]) j := by
  by_cases hj : j = id
  · subst hj
    rw [claimants_concat, claimants_concat, if_neg fun h => hdead h.2, if_neg fun h => hdead h.2]
  · exact claimants_extend_other hj

/-- The first live copy in the segment is the newest claim. -/
theorem claimants_extend_live {id : Id}
    (hlive : copyIsLive tombstones superseded seg id = true) (hid : id ∉ done) :
    claimants tombstones superseded (segs ++ [(seg, done)]) id =
        claimants tombstones superseded segs id ∧
      claimants tombstones superseded (segs ++ [(seg, done ++ [id])]) id =
        claimants tombstones superseded segs id ++ [seg] := by
  rw [claimants_concat, claimants_concat, if_neg fun hmem => hid hmem.1,
    if_pos ⟨by simp, hlive⟩, List.append_nil]
  exact ⟨rfl, rfl⟩

/-- An id that is listed as live for the first time. -/
theorem Resolved.claimId_ok
    (h : Resolved tombstones superseded (segs ++ [(seg, done)]) claims)
    (hseg : seg ∉ segs.map Prod.fst) {id : Id}
    (hid : copyIsLive tombstones superseded seg id = true → id ∉ done) :
    ∃ claims', claimId tombstones seg claims id = .ok claims' ∧
      Resolved tombstones superseded (segs ++ [(seg, done ++ [id])]) claims' := by
  rw [claimId, h.copyIsLive_eq hseg]
  by_cases hlive : copyIsLive tombstones superseded seg id = true
  · rw [if_pos hlive]
    obtain ⟨hdone, hnew⟩ := claimants_extend_live hlive (hid hlive)
    have howner := h.owner id
    have hmarked := h.marked
    rw [hdone] at howner
    have hinsert : ∀ j, (claims.1.insert id seg).lookup j =
        (claimants tombstones superseded (segs ++ [(seg, done ++ [id])]) j).getLast? := by
      intro j
      rw [FinMap.lookup_insert_eq]
      split
      · rename_i hj
        rw [hj, hnew, List.getLast?_concat]
      · rename_i hj
        rw [claimants_extend_other hj, h.owner]
    cases hlast : (claimants tombstones superseded segs id).getLast? with
    | none =>
        rw [hlast] at howner
        rw [howner]
        refine ⟨_, rfl, hinsert, fun k j => ?_⟩
        rw [hmarked]
        by_cases hj : j = id
        · subst hj
          rw [hdone, hnew, List.getLast?_eq_none_iff.mp hlast]
          simp
        · rw [claimants_extend_other hj]
    | some older =>
        rw [hlast] at howner
        rw [howner]
        have holder : older ∈ claimants tombstones superseded segs id :=
          List.mem_of_getLast? hlast
        have hne : older ≠ seg := fun heq => not_mem_claimants hseg id (heq ▸ holder)
        refine ⟨_, if_neg hne, hinsert, fun k j => ?_⟩
        rw [marked_markSuperseded, hmarked]
        by_cases hj : j = id
        · subst hj
          rw [hdone, hnew, List.dropLast_concat]
          have hsplit := List.dropLast_append_getLast? older hlast
          nth_rewrite 2 [← hsplit]
          simp only [and_true, List.mem_append, List.mem_singleton]
          rw [or_left_comm, or_comm (a := k = older)]
        · simp [hj, claimants_extend_other hj]
  · rw [if_neg hlive]
    refine ⟨claims, rfl, fun j => ?_, fun k j => ?_⟩
    · rw [claimants_extend_dead hlive]
      exact h.owner j
    · rw [claimants_extend_dead hlive]
      exact h.marked k j

/-- An id that is listed as live again. -/
theorem Resolved.claimId_error
    (h : Resolved tombstones superseded (segs ++ [(seg, done)]) claims)
    (hseg : seg ∉ segs.map Prod.fst) {id : Id}
    (hlive : copyIsLive tombstones superseded seg id = true) (hid : id ∈ done) :
    claimId tombstones seg claims id = .error (duplicateError seg) := by
  rw [claimId, h.copyIsLive_eq hseg, if_pos hlive, h.owner, claimants_concat,
    if_pos ⟨hid, hlive⟩, List.getLast?_concat]
  exact if_pos rfl

/-- The ids of a segment without repetition among the live ones. -/
theorem Resolved.claimIds_ok
    (h : Resolved tombstones superseded (segs ++ [(seg, done)]) claims)
    (hseg : seg ∉ segs.map Prod.fst) (ids : List Id)
    (hnd : (liveIds tombstones superseded seg (done ++ ids)).Nodup) :
    ∃ claims', claimIds tombstones seg ids claims = .ok claims' ∧
      Resolved tombstones superseded (segs ++ [(seg, done ++ ids)]) claims' := by
  induction ids generalizing done claims with
  | nil => exact ⟨claims, rfl, by rwa [List.append_nil]⟩
  | cons id ids ih =>
      have hid : copyIsLive tombstones superseded seg id = true → id ∉ done := by
        intro hlive hmem
        rw [liveIds, List.filter_append, List.nodup_append] at hnd
        exact hnd.2.2 id (List.mem_filter.mpr ⟨hmem, hlive⟩) id
          (List.mem_filter.mpr ⟨List.mem_cons_self, hlive⟩) rfl
      obtain ⟨claims', hok, h'⟩ := h.claimId_ok hseg hid
      have happ : done ++ id :: ids = done ++ [id] ++ ids := List.append_cons ..
      rw [happ] at hnd ⊢
      rw [claimIds, hok]
      exact ih h' hnd

theorem Resolved.claimIds_error
    (h : Resolved tombstones superseded (segs ++ [(seg, done)]) claims)
    (hseg : seg ∉ segs.map Prod.fst) (ids : List Id)
    (hdone : (liveIds tombstones superseded seg done).Nodup)
    (hdup : ¬ (liveIds tombstones superseded seg (done ++ ids)).Nodup) :
    claimIds tombstones seg ids claims = .error (duplicateError seg) := by
  induction ids generalizing done claims with
  | nil =>
      rw [List.append_nil] at hdup
      exact absurd hdone hdup
  | cons id ids ih =>
      by_cases hid : copyIsLive tombstones superseded seg id = true ∧ id ∈ done
      · rw [claimIds, h.claimId_error hseg hid.1 hid.2]
      · obtain ⟨claims', hok, h'⟩ := h.claimId_ok hseg (not_and.mp hid)
        rw [List.append_cons] at hdup
        rw [claimIds, hok]
        refine ih h' ?_ hdup
        rw [liveIds, List.filter_append, List.nodup_append]
        refine ⟨hdone, List.Nodup.filter _ (List.nodup_singleton _), ?_⟩
        rintro j hj k hk rfl
        obtain ⟨hmem, hlive⟩ := List.mem_filter.mp hk
        rw [List.mem_singleton.mp hmem] at hlive hj
        exact hid ⟨hlive, (List.mem_filter.mp hj).1⟩

/-! ## All segments -/

/-- The ids that each segment lists. -/
def listed (segments : List (Nat × List (Id × Item))) : List (Nat × List Id) :=
  segments.map (fun p => (p.1, p.2.map Prod.fst))

omit [DecidableEq Id] in
@[simp] theorem map_fst_listed (segments : List (Nat × List (Id × Item))) :
    (listed segments).map Prod.fst = segments.map Prod.fst := by
  simp [listed, Function.comp_def]

theorem resolved_nil (tombstones : List Id) (superseded : FinMap Nat (List Id)) :
    Resolved tombstones superseded [] (∅, superseded) :=
  ⟨fun id => by simp [claimants], fun seg id => by simp [claimants]⟩

/-- A segment that has been opened but not read changes nothing. -/
theorem Resolved.begin (h : Resolved tombstones superseded segs claims) (seg : Nat) :
    Resolved tombstones superseded (segs ++ [(seg, [])]) claims := by
  have heq : ∀ id, claimants tombstones superseded (segs ++ [(seg, [])]) id =
      claimants tombstones superseded segs id := by
    intro id
    rw [claimants_concat]
    simp
  exact ⟨fun id => (heq id).symm ▸ h.owner id, fun k id => (heq id).symm ▸ h.marked k id⟩

omit [DecidableEq Id] in
theorem not_mem_of_nodup {seg : Nat} {entries : List (Id × Item)}
    {rest : List (Nat × List (Id × Item))}
    (hnd : (segs.map Prod.fst ++ ((seg, entries) :: rest).map Prod.fst).Nodup) :
    seg ∉ segs.map Prod.fst := by
  rw [List.map_cons, List.nodup_append] at hnd
  exact fun hmem => hnd.2.2 seg hmem seg List.mem_cons_self rfl

/-- A segment that lists no id twice as live is passed, and the rest follows. -/
theorem Resolved.resolveOwners_cons (h : Resolved tombstones superseded segs claims)
    {seg : Nat} {entries : List (Id × Item)} {rest : List (Nat × List (Id × Item))}
    (hnd : (segs.map Prod.fst ++ ((seg, entries) :: rest).map Prod.fst).Nodup)
    (hok : (liveIds tombstones superseded seg (entries.map Prod.fst)).Nodup) :
    ∃ claims', Resolved tombstones superseded (segs ++ [(seg, entries.map Prod.fst)]) claims' ∧
      ((segs ++ [(seg, entries.map Prod.fst)]).map Prod.fst ++ rest.map Prod.fst).Nodup ∧
      resolveOwners (defaultStore Id Item) tombstones ((seg, entries) :: rest) claims =
        resolveOwners (defaultStore Id Item) tombstones rest claims' := by
  obtain ⟨claims', hclaims, h'⟩ :=
    (h.begin seg).claimIds_ok (not_mem_of_nodup hnd) (entries.map Prod.fst) hok
  rw [List.nil_append] at h'
  refine ⟨claims', h', by simpa using hnd, ?_⟩
  rw [resolveOwners]
  simp only [defaultStore, hclaims]

/-- No segment lists an id twice as live: every id has its last claimant. -/
theorem Resolved.resolveOwners_ok (h : Resolved tombstones superseded segs claims)
    (rest : List (Nat × List (Id × Item)))
    (hnd : (segs.map Prod.fst ++ rest.map Prod.fst).Nodup)
    (hok : ∀ p ∈ rest, (liveIds tombstones superseded p.1 (p.2.map Prod.fst)).Nodup) :
    ∃ claims', resolveOwners (defaultStore Id Item) tombstones rest claims =
        .ok (some claims'.1, claims'.2) ∧
      Resolved tombstones superseded (segs ++ listed rest) claims' := by
  induction rest generalizing segs claims with
  | nil => exact ⟨claims, rfl, by simpa [listed] using h⟩
  | cons p rest ih =>
      obtain ⟨claims', h', hnd', heq⟩ := h.resolveOwners_cons hnd (hok _ List.mem_cons_self)
      obtain ⟨claims'', hresolve, h''⟩ := ih h' hnd' fun q hq => hok q (List.mem_cons_of_mem _ hq)
      exact ⟨claims'', heq.trans hresolve, by simpa [listed] using h''⟩

/-- Some segment lists an id twice as live. -/
theorem Resolved.resolveOwners_error (h : Resolved tombstones superseded segs claims)
    (rest : List (Nat × List (Id × Item)))
    (hnd : (segs.map Prod.fst ++ rest.map Prod.fst).Nodup)
    (hdup : ∃ p ∈ rest, ¬ (liveIds tombstones superseded p.1 (p.2.map Prod.fst)).Nodup) :
    ∃ seg, resolveOwners (defaultStore Id Item) tombstones rest claims =
      .error (duplicateError seg) := by
  induction rest generalizing segs claims with
  | nil => simp at hdup
  | cons p rest ih =>
      obtain ⟨seg, entries⟩ := p
      by_cases hok : (liveIds tombstones superseded seg (entries.map Prod.fst)).Nodup
      · obtain ⟨claims', h', hnd', heq⟩ := h.resolveOwners_cons hnd hok
        have hdup' : ∃ q ∈ rest,
            ¬ (liveIds tombstones superseded q.1 (q.2.map Prod.fst)).Nodup := by
          obtain ⟨q, hq, hqdup⟩ := hdup
          rcases List.mem_cons.mp hq with rfl | hq
          · exact absurd hok hqdup
          · exact ⟨q, hq, hqdup⟩
        obtain ⟨k, hresolve⟩ := ih h' hnd' hdup'
        exact ⟨k, heq.trans hresolve⟩
      · refine ⟨seg, ?_⟩
        have herr := (h.begin seg).claimIds_error (not_mem_of_nodup hnd) (entries.map Prod.fst)
          (by simp [liveIds]) hok
        rw [resolveOwners]
        simp only [defaultStore, herr]

end Claimants

/-! ## The memory before replay -/

section Boot

variable {m : LoadedManifest Id} {segs : List (List (Id × Item))}

/-- The memory of a writer before replay, by what the manifest says. -/
structure Booted (m : LoadedManifest Id) (segs : List (List (Id × Item)))
    (c : Contents Id Item (List (Id × Item))) : Prop where
  segments : c.segments = segs
  segmentIds : c.segmentIds = m.segmentIds
  tombstones : c.tombstones = m.tombstones
  nextSegId : c.nextSegId = m.nextSegId
  buffer : c.buffer = []
  bufferIds : c.bufferIds = []
  known : c.owners.isSome = true
  owner : ∀ id, c.liveSegmentOf id =
    (claimants m.tombstones m.superseded (listed c.sealed) id).getLast?
  marked : ∀ seg id, Marked c.superseded seg id ↔ Marked m.superseded seg id ∨
    seg ∈ (claimants m.tombstones m.superseded (listed c.sealed) id).dropLast

/-- Whether some segment lists an id twice as live. -/
def Ambiguous (m : LoadedManifest Id) (segs : List (List (Id × Item))) : Prop :=
  ∃ p ∈ m.segmentIds.zip segs,
    ¬ (liveIds m.tombstones m.superseded p.1 (p.2.map Prod.fst)).Nodup

theorem boot_ok (hlen : m.segmentIds.length = segs.length) (hnd : m.segmentIds.Nodup)
    (hclear : ¬ Ambiguous m segs) :
    ∃ c, m.boot (defaultStore Id Item) segs = .ok c ∧ Booted m segs c := by
  obtain ⟨claims, hresolve, h⟩ := (resolved_nil m.tombstones
    m.superseded).resolveOwners_ok (m.segmentIds.zip segs)
    (by rwa [List.map_nil, List.nil_append, List.map_fst_zip (Nat.le_of_eq hlen)])
    (fun p hp => Classical.byContradiction fun hdup => hclear ⟨p, hp, hdup⟩)
  refine ⟨_, by rw [LoadedManifest.boot, hresolve], rfl, rfl, rfl, rfl, rfl, rfl, rfl, ?_, ?_⟩
  · exact h.owner
  · exact h.marked

theorem boot_error (hlen : m.segmentIds.length = segs.length) (hnd : m.segmentIds.Nodup)
    (hdup : Ambiguous m segs) :
    ∃ seg, m.boot (defaultStore Id Item) segs = .error (duplicateError seg) := by
  obtain ⟨seg, hresolve⟩ := (resolved_nil m.tombstones
    m.superseded).resolveOwners_error (m.segmentIds.zip segs)
    (by rwa [List.map_nil, List.nil_append, List.map_fst_zip (Nat.le_of_eq hlen)]) hdup
  exact ⟨seg, by rw [LoadedManifest.boot, hresolve]⟩

/-- The claimants of an id are the segments that list it as live. -/
theorem Contents.mem_claimants_iff {c : Contents Id Item (List (Id × Item))}
    {tombstones : List Id} {superseded : FinMap Nat (List Id)} (seg : Nat) (id : Id) :
    seg ∈ claimants tombstones superseded (listed c.sealed) id ↔
      c.Lists seg id ∧ copyIsLive tombstones superseded seg id = true := by
  rw [mem_claimants]
  refine and_congr_left fun _ => ?_
  simp only [listed, List.mem_map, Prod.mk.injEq, Contents.Lists]
  constructor
  · rintro ⟨ids, ⟨⟨k, entries⟩, hp, rfl, rfl⟩, hid⟩
    exact ⟨entries, hp, List.mem_map.mp hid⟩
  · rintro ⟨entries, hp, hid⟩
    exact ⟨_, ⟨(seg, entries), hp, rfl, rfl⟩, List.mem_map.mpr hid⟩

namespace Booted

variable {c : Contents Id Item (List (Id × Item))}

/-- A boot that succeeds is one of a manifest that is clear about ownership. -/
theorem of_boot (hlen : m.segmentIds.length = segs.length) (hnd : m.segmentIds.Nodup)
    (hboot : m.boot (defaultStore Id Item) segs = .ok c) :
    Booted m segs c ∧ ¬ Ambiguous m segs := by
  have hclear : ¬ Ambiguous m segs := by
    intro hdup
    obtain ⟨seg, herr⟩ := boot_error hlen hnd hdup
    cases hboot.symm.trans herr
  obtain ⟨c', hboot', hb⟩ := boot_ok hlen hnd hclear
  obtain rfl : c = c' := Except.ok.inj (hboot.symm.trans hboot')
  exact ⟨hb, hclear⟩

theorem sealed (h : Booted m segs c) : c.sealed = m.segmentIds.zip segs := by
  rw [PubState.sealed, h.segments, h.segmentIds]

/-- The live copy of an id is in its last claimant. -/
theorem owner_iff (h : Booted m segs c) (hlen : c.segmentIds.length = c.segments.length)
    (hids : c.segmentIds.Nodup) (id : Id) (seg : Nat) :
    c.liveSegmentOf id = some seg ↔ c.Lists seg id ∧ c.isLiveIn seg id = true := by
  have hnd : (claimants m.tombstones m.superseded (listed c.sealed) id).Nodup := by
    refine claimants_nodup ?_ id
    rwa [map_fst_listed, Contents.map_fst_sealed hlen]
  have hlive : c.isLiveIn seg id = true ↔
      copyIsLive m.tombstones m.superseded seg id = true ∧
        seg ∉ (claimants m.tombstones m.superseded (listed c.sealed) id).dropLast := by
    rw [Contents.isLiveIn_iff, copyIsLive_iff, h.tombstones, h.marked, not_or, and_assoc]
  rw [h.owner, hlive, ← and_assoc, ← Contents.mem_claimants_iff]
  constructor
  · intro hlast
    have hsplit := List.dropLast_append_getLast? seg hlast
    rw [← hsplit, List.nodup_append] at hnd
    exact ⟨List.mem_of_getLast? hlast, fun hmem =>
      hnd.2.2 seg hmem seg (List.mem_singleton.mpr rfl) rfl⟩
  · rintro ⟨hmem, hnot⟩
    cases hlast : (claimants m.tombstones m.superseded (listed c.sealed) id).getLast? with
    | none =>
        rw [List.getLast?_eq_none_iff.mp hlast] at hmem
        cases hmem
    | some last =>
        rw [← List.dropLast_append_getLast? last hlast, List.mem_append,
          List.mem_singleton] at hmem
        rw [hmem.resolve_left hnot]

/-- The memory before replay is tracked. -/
theorem tracked (h : Booted m segs c) (hc : c.Shape) (hclear : ¬ Ambiguous m segs)
    (hmarked : ∀ seg id, Marked m.superseded seg id → c.Lists seg id) : c.Tracked where
  shape := hc
  liveNodup := by
    intro p hp
    have hnd : (liveIds m.tombstones m.superseded p.1 (p.2.map Prod.fst)).Nodup := by
      refine Classical.byContradiction fun hdup => hclear ⟨p, ?_, hdup⟩
      rw [← h.segmentIds, ← h.segments]
      exact hp
    rw [liveIds, List.filter_map] at hnd
    refine Contents.liveNodup_mono hnd fun e _ hlive => ?_
    rw [Contents.isLiveIn_iff, h.tombstones, h.marked, not_or] at hlive
    exact (copyIsLive_iff _ _ _).mpr ⟨hlive.1, hlive.2.1⟩
  bufferNodup := by
    rw [h.buffer]
    exact List.nodup_nil
  bufferIds := by simp [h.buffer, h.bufferIds]
  buffered := by simp [h.bufferIds]
  apart := by simp [h.bufferIds]
  marked := by
    intro seg id hmark
    rcases (h.marked seg id).mp hmark with hmark | hmem
    · exact hmarked seg id hmark
    · exact ((Contents.mem_claimants_iff seg id).mp (List.dropLast_subset _ hmem)).1
  known := h.known
  owner := fun id seg =>
    h.owner_iff hc.len (hc.sorted.imp fun hlt => Nat.ne_of_lt hlt) id seg

end Booted

end Boot

end Segstore
