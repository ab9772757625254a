import Segstore.System.Runs

/-!
# Segment ids

What every manifest that was ever visible says about segment ids, for every
`Store` and over every run from an empty directory.
-/

namespace Segstore

variable {Id Item Seg F : Type}

/-- Nothing but the agreement of processes with their directory. -/
theorem resilient_frame [DecidableEq Id] (st : Store Id Item Seg) :
    Resilient st (fun _ _ => True) (fun _ _ _ => True) :=
  ⟨fun _ _ => trivial, fun _ _ => trivial, fun _ => trivial, fun _ _ => trivial,
    fun _ _ _ _ => trivial⟩

theorem lineage_run [DecidableEq Id] [F64 F] (st : Store Id Item Seg) (fileBacked : Bool)
    (events : List (Event Id Item F)) :
    Lineage (Proc.run st (.closed (.empty fileBacked)) [] events).1.dir.states := by
  have hfresh : (Proc.closed (.empty fileBacked) : Proc Id Item Seg F).Agrees fileBacked
      (fun _ _ => True) (fun _ _ _ => True) [] :=
    ⟨rfl, emptyImage, coherent_empty fileBacked, trivial⟩
  have hagrees := (resilient_frame st).run hfresh events
  obtain ⟨-, im, hcoh, -⟩ := (resilient_frame st).drop hagrees
  exact hcoh.lineage

namespace Lineage

variable {states : List (Files Id Item Seg)}

/-- The newer of two contents at most adds ids above those known. -/
theorem onward (h : Lineage states) {i j : Nat} (hij : i ≤ j) {f f' : Files Id Item Seg}
    (hf' : states[i]? = some f') (hf : states[j]? = some f) {im im' : Image Id Seg}
    (hs : Shows f im) (hs' : Shows f' im') : Onward f f' im im' := by
  rcases Nat.eq_or_lt_of_le hij with rfl | hlt
  · cases hf'.symm.trans hf
    rw [hs'.unique hs]
    exact .refl _ _
  · obtain ⟨hi, rfl⟩ := List.getElem?_eq_some_iff.mp hf'
    obtain ⟨hj, rfl⟩ := List.getElem?_eq_some_iff.mp hf
    obtain ⟨im₁, im₂, hs₁, hs₂, hon⟩ := List.pairwise_iff_getElem.mp h.evolves i j hi hj hlt
    rwa [hs.unique hs₁, hs'.unique hs₂]

end Lineage

/-- What holds of an earlier content `f` of a directory and a later one `f'`. -/
structure KeepsMeaning (f f' : Files Id Item Seg) (im im' : Image Id Seg) : Prop where
  next_le : im.nextSegId ≤ im'.nextSegId
  sameSegment : ∀ k seg seg', (k, seg) ∈ im.sealed → (k, seg') ∈ im'.sealed → seg' = seg
  notAgain : ∀ k < im.nextSegId, k ∉ im.segmentIds → k ∉ im'.segmentIds
  catalog : ∀ d d' : Directory Id Item Seg, d.files = f → d'.files = f' →
    Ends SegmentCatalog.open d (fun r _ => ∀ c, r = .ok c →
      ∀ k, (c.ensureSegmentId k = .ok () ↔ k ∈ im.segmentIds) ∧
        Ends (c.readSegment k) d' (fun r' _ => ∀ seg, r' = .ok seg → (k, seg) ∈ im.sealed))

theorem Onward.catalog {f f' : Files Id Item Seg} {im im' : Image Id Seg} (hs : Shows f im)
    (hnum : im.Numbered) (hon : Onward f f' im im') (d d' : Directory Id Item Seg)
    (hd : d.files = f) (hd' : d'.files = f') :
    Ends SegmentCatalog.open d (fun r _ => ∀ c, r = .ok c →
      ∀ k, (c.ensureSegmentId k = .ok () ↔ k ∈ im.segmentIds) ∧
        Ends (c.readSegment k) d' (fun r' _ => ∀ seg, r' = .ok seg → (k, seg) ∈ im.sealed)) := by
  have hread : ∀ c : SegmentCatalog Id,
      SegmentCatalog.ofManifest im.toLoadedManifest = .ok c → ∀ k,
      (c.ensureSegmentId k = .ok () ↔ k ∈ im.segmentIds) ∧
        Ends (c.readSegment k) d'
          (fun r' _ => ∀ seg, r' = .ok seg → (k, seg) ∈ im.sealed) := by
    intro c hc k
    have hids : c.segmentIds = im.segmentIds := Directory.ofManifest_segmentIds hc
    have hsorted : c.segmentIds.Pairwise (· < ·) := hids ▸ hnum.sorted
    have hiff := Directory.ensureSegmentId_ok_iff hsorted k
    rw [hids] at hiff
    refine ⟨hiff, ?_⟩
    rw [SegmentCatalog.readSegment, SegmentCatalog.segmentName]
    cases hensure : c.ensureSegmentId k with
    | error e => exact Ends.fail_bind_iff.mpr (by simp)
    | ok u =>
        have hk := hiff.mp hensure
        refine Ends.pure_bind_iff.mpr ((Directory.readSegmentFile_ok d' k).mono ?_)
        intro r' _ hr seg hseg
        have hfile := hr seg hseg
        rw [hd'] at hfile
        refine hs.mem_sealed_of_segFile hk ?_
        rcases hon.file k (hnum.below k hk) with heq | hnone
        · rw [← heq, hfile]
        · rw [hnone] at hfile
          cases hfile
  rw [SegmentCatalog.open, Directory.rejectLegacyFormats]
  refine Ends.bind (R := fun r d₁ => d₁ = d) ?_ ?_ (by simp) (by simp)
  · rw [Ends.get_bind_iff]
    split
    · exact Ends.fail_iff.mpr rfl
    · split
      · exact Ends.fail_iff.mpr rfl
      · exact Ends.pure_iff.mpr rfl
  · rintro ⟨⟩ _ rfl
    obtain ⟨v, hv, hval⟩ := Directory.readManifest_reads (hd ▸ hs.loaded)
    refine Ends.bind hv.ok ?_ (by simp) (by simp)
    rintro v' d₂ ⟨-, hok⟩
    cases hok v' rfl
    rw [hval]
    cases hc : SegmentCatalog.ofManifest im.toLoadedManifest with
    | error e => exact Ends.fail_iff.mpr (by simp)
    | ok c =>
        refine Ends.pure_iff.mpr ?_
        rintro _ ⟨⟩
        exact hread c hc

namespace Lineage

variable {states : List (Files Id Item Seg)}

theorem numbered (h : Lineage states) {j : Nat} {f : Files Id Item Seg}
    (hf : states[j]? = some f) {im : Image Id Seg} (hs : Shows f im) : im.Numbered := by
  obtain ⟨im₀, hs₀, hnum⟩ := h.shows f (List.mem_of_getElem? hf)
  rwa [hs₀.unique hs] at hnum

theorem keepsMeaning (h : Lineage states) {i j : Nat} (hij : i ≤ j) {f f' : Files Id Item Seg}
    (hf' : states[i]? = some f') (hf : states[j]? = some f) {im im' : Image Id Seg}
    (hs : Shows f im) (hs' : Shows f' im') : KeepsMeaning f f' im im' := by
  have hnum := h.numbered hf hs
  have hon := h.onward hij hf' hf hs hs'
  constructor
  case next_le => exact hon.next_le
  case sameSegment =>
    intro k seg seg' hk hk'
    have hlt := hnum.below k (List.of_mem_zip hk).1
    have hfile : segFile f k = some seg := hs.segFile_of_mem (p := (k, seg)) hk
    have hfile' : segFile f' k = some seg' := hs'.segFile_of_mem (p := (k, seg')) hk'
    rcases hon.file k hlt with heq | hnone
    · rw [heq, hfile] at hfile'
      exact (Option.some.inj hfile').symm
    · rw [hnone] at hfile'
      cases hfile'
  case notAgain =>
    intro k hk hnot hmem
    exact hnot (hon.named k hk hmem)
  case catalog => exact hon.catalog hs hnum

/-- An id named once and then dropped is not named again. -/
theorem dropped (h : Lineage states) {g i j : Nat} (hgi : g ≤ i) (hij : i ≤ j)
    {f f' f'' : Files Id Item Seg} (hf'' : states[g]? = some f'') (hf' : states[i]? = some f')
    (hf : states[j]? = some f) {im im' im'' : Image Id Seg} (hs : Shows f im)
    (hs' : Shows f' im') (hs'' : Shows f'' im'') {k : Nat} (hk : k ∈ im.segmentIds)
    (hnot : k ∉ im'.segmentIds) : k ∉ im''.segmentIds := by
  have hlt := (h.numbered hf hs).below k hk
  have hnext := (h.onward hij hf' hf hs hs').next_le
  exact fun hmem => hnot ((h.onward hgi hf'' hf' hs' hs'').named k (hlt.trans_le hnext) hmem)

end Lineage

/-- Over every run, every manifest ever visible is numbered, a segment id once
named keeps its segment, and an id that is no longer named does not come back. -/
theorem committed_ids_keep_their_meaning [DecidableEq Id] [F64 F] (st : Store Id Item Seg)
    (fileBacked : Bool) (events : List (Event Id Item F)) :
    let states := (Proc.run st (.closed (.empty fileBacked)) [] events).1.dir.states
    (∀ f ∈ states, ∃ im, Shows f im ∧ im.Numbered) ∧
      (∀ i j : Nat, i ≤ j → ∀ f f' im im', states[i]? = some f' → states[j]? = some f →
        Shows f im → Shows f' im' → KeepsMeaning f f' im im') ∧
      ∀ h i j : Nat, h ≤ i → i ≤ j → ∀ f f' f'' im im' im'', states[h]? = some f'' →
        states[i]? = some f' → states[j]? = some f → Shows f im → Shows f' im' →
        Shows f'' im'' → ∀ k ∈ im.segmentIds, k ∉ im'.segmentIds → k ∉ im''.segmentIds := by
  have hlineage := lineage_run st fileBacked events
  intro states
  change Lineage states at hlineage
  clear_value states
  refine ⟨hlineage.shows, fun i j hij f f' im im' hf' hf hs hs' =>
    hlineage.keepsMeaning hij hf' hf hs hs', ?_⟩
  intro h i j hhi hij f f' f'' im im' im'' hf'' hf' hf hs hs' hs'' k hk hnot
  exact hlineage.dropped hhi hij hf'' hf' hf hs hs' hs'' hk hnot

end Segstore
