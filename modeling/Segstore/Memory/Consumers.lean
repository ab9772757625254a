import Segstore.Memory.Groups
import Segstore.Memory.Sealing
import Segstore.Model.Open

/-!
# Segments of the consumer's own

A consumer chooses what a segment is.  What the store does with a segment is
explained by the entries the segment holds, so a memory is read as one over
lists of entries.  A batch and a merge may come out in any order; that order is
all that the memory read off such segments and a memory over lists differ in.
-/

namespace Segstore

variable {Id Item Seg : Type}

/-- What the trait asks of a store that lists its ids.  The store may rely on
what it is given: every batch, and the live copies of every merge, list an id
once. -/
structure Store.Keeps (st : Store Id Item Seg) (entries : Seg → List (Id × Item)) : Prop where
  build : ∀ batch, (batch.map Prod.fst).Nodup → (entries (st.buildSegment batch)).Perm batch
  merge : ∀ segs live, (((segs.flatMap entries).filter fun e => live e.1).map Prod.fst).Nodup →
    (entries (st.mergeSegments segs live)).Perm
      ((segs.flatMap entries).filter fun e => live e.1)
  len : ∀ seg, st.segmentLen seg = (entries seg).length
  ids : ∀ seg, st.itemIds seg = some ((entries seg).map Prod.fst)

/-- A snapshot with the entries of its segments. -/
def PubState.view (entries : Seg → List (Id × Item)) (v : PubState Id Seg) :
    PubState Id (List (Id × Item)) :=
  { v with segments := v.segments.map entries }

/-- The memory with the entries of its segments. -/
def Contents.view (entries : Seg → List (Id × Item)) (c : Contents Id Item Seg) :
    Contents Id Item (List (Id × Item)) :=
  { c with segments := c.segments.map entries }

namespace Contents

/-! ## Reordered segments -/

variable [DecidableEq Id]

/-- The same memory with the entries of each segment in some other order. -/
structure Reordered (c c' : Contents Id Item (List (Id × Item))) : Prop where
  segments : List.Forall₂ List.Perm c.segments c'.segments
  segmentIds : c'.segmentIds = c.segmentIds
  nextSegId : c'.nextSegId = c.nextSegId
  buffer : c'.buffer = c.buffer
  bufferIds : c'.bufferIds = c.bufferIds
  tombstones : c'.tombstones = c.tombstones
  superseded : c'.superseded = c.superseded
  known : c'.owners.isSome = c.owners.isSome
  owner : ∀ id, c'.liveSegmentOf id = c.liveSegmentOf id

namespace Reordered

variable {c c' : Contents Id Item (List (Id × Item))}

theorem refl (c : Contents Id Item (List (Id × Item))) : Reordered c c :=
  ⟨List.forall₂_same.mpr fun _ _ => .refl _, rfl, rfl, rfl, rfl, rfl, rfl, rfl, fun _ => rfl⟩

theorem symm (h : Reordered c c') : Reordered c' c where
  segments := (List.Forall₂.flip h.segments).imp fun _ _ hperm => hperm.symm
  segmentIds := h.segmentIds.symm
  nextSegId := h.nextSegId.symm
  buffer := h.buffer.symm
  bufferIds := h.bufferIds.symm
  tombstones := h.tombstones.symm
  superseded := h.superseded.symm
  known := h.known.symm
  owner := fun id => (h.owner id).symm

/-- Each segment is there with its entries in some order. -/
theorem mem_sealed (h : Reordered c c') {p : Nat × List (Id × Item)} (hp : p ∈ c.sealed) :
    ∃ entries, (p.1, entries) ∈ c'.sealed ∧ p.2.Perm entries := by
  have hzip : ∀ (ids : List Nat) {segs segs' : List (List (Id × Item))},
      List.Forall₂ List.Perm segs segs' → p ∈ ids.zip segs →
        ∃ entries, (p.1, entries) ∈ ids.zip segs' ∧ p.2.Perm entries := by
    intro ids segs segs' hsegs
    induction hsegs generalizing ids with
    | nil => simp
    | @cons seg seg' segs segs' hseg _ ih =>
        cases ids with
        | nil => simp
        | cons id ids =>
            rw [List.zip_cons_cons, List.mem_cons]
            rintro (rfl | hp)
            · exact ⟨seg', List.mem_cons_self, hseg⟩
            · obtain ⟨entries, hmem, hperm⟩ := ih ids hp
              exact ⟨entries, List.mem_cons_of_mem _ hmem, hperm⟩
  rw [PubState.sealed] at hp ⊢
  rw [h.segmentIds]
  exact hzip _ h.segments hp

theorem isLiveIn_eq (h : Reordered c c') (seg : Nat) (id : Id) :
    c'.isLiveIn seg id = c.isLiveIn seg id := by
  rw [PubState.isLiveIn, PubState.isLiveIn, h.tombstones, h.superseded]

theorem lists (h : Reordered c c') {seg : Nat} {id : Id} (hid : c.Lists seg id) :
    c'.Lists seg id := by
  obtain ⟨entries, hp, hid⟩ := hid
  obtain ⟨entries', hp', hperm⟩ := h.mem_sealed hp
  exact ⟨entries', hp', (hperm.map Prod.fst).mem_iff.mp hid⟩

theorem lists_iff (h : Reordered c c') (seg : Nat) (id : Id) : c'.Lists seg id ↔ c.Lists seg id :=
  ⟨h.symm.lists, h.lists⟩

theorem liveCopy (h : Reordered c c') {place : Option Nat} {id : Id} {item : Item}
    (hcopy : c.LiveCopy place id item) : c'.LiveCopy place id item := by
  cases place with
  | none =>
      rw [LiveCopy, h.buffer]
      exact hcopy
  | some seg =>
      obtain ⟨entries, hp, hmem, hlive⟩ := hcopy
      obtain ⟨entries', hp', hperm⟩ := h.mem_sealed hp
      exact ⟨entries', hp', hperm.mem_iff.mp hmem, (h.isLiveIn_eq seg id).trans hlive⟩

theorem buried (h : Reordered c c') {id : Id} (hid : c.Buried id) : c'.Buried id := by
  obtain ⟨htomb, seg, hlists, hmark⟩ := hid
  rw [← h.tombstones] at htomb
  rw [← h.superseded] at hmark
  exact ⟨htomb, seg, h.lists hlists, hmark⟩

theorem shape (h : Reordered c c') (hc : c.Shape) : c'.Shape := by
  refine ⟨?_, ?_, ?_⟩
  · rw [h.segmentIds, hc.len]
    exact h.segments.length_eq
  · rw [h.segmentIds]
    exact hc.sorted
  · rw [h.segmentIds, h.nextSegId]
    exact hc.below

theorem tracked (h : Reordered c c') (hc : c.Tracked) : c'.Tracked where
  shape := h.shape hc.shape
  liveNodup := by
    intro p hp
    obtain ⟨entries, hmem, hperm⟩ := h.symm.mem_sealed hp
    have hlive := hc.liveNodup _ hmem
    simp only [h.isLiveIn_eq]
    exact ((hperm.filter _).map Prod.fst).nodup_iff.mpr hlive
  bufferNodup := by
    rw [h.buffer]
    exact hc.bufferNodup
  bufferIds := by
    rw [h.bufferIds, h.buffer]
    exact hc.bufferIds
  buffered := by
    rw [h.bufferIds, h.tombstones]
    exact hc.buffered
  apart := by
    intro id hid seg hlists
    rw [h.isLiveIn_eq]
    exact hc.apart id (h.bufferIds ▸ hid) seg (h.symm.lists hlists)
  marked := by
    intro seg id hmark
    exact h.lists (hc.marked seg id (h.superseded ▸ hmark))
  known := h.known.trans hc.known
  owner := by
    intro id seg
    rw [h.owner, h.lists_iff, h.isLiveIn_eq]
    exact hc.owner id seg

/-- The order of entries does not matter to what is stored. -/
theorem stores (h : Reordered c c') {m : Id → Option Item} (hc : c.Stores m) : c'.Stores m where
  tracked := h.tracked hc.tracked
  tidy := {
    distinct := by
      intro p hp
      obtain ⟨entries, hmem, hperm⟩ := h.symm.mem_sealed hp
      exact (hperm.map Prod.fst).nodup_iff.mpr (hc.tidy.distinct _ hmem)
    unburied := fun id hid => hc.tidy.unburied id (h.symm.buried hid) }
  map := hc.map.congr fun _ _ _ => ⟨h.symm.liveCopy, h.liveCopy⟩

end Reordered

/-! ## Operations on the memory read off -/

variable {st : Store Id Item Seg} {entries : Seg → List (Id × Item)} {c : Contents Id Item Seg}

omit [DecidableEq Id] in
@[simp] theorem view_segments : (c.view entries).segments = c.segments.map entries := rfl

omit [DecidableEq Id] in
@[simp] theorem view_segmentIds : (c.view entries).segmentIds = c.segmentIds := rfl

omit [DecidableEq Id] in
@[simp] theorem view_tombstones : (c.view entries).tombstones = c.tombstones := rfl

omit [DecidableEq Id] in
@[simp] theorem view_superseded : (c.view entries).superseded = c.superseded := rfl

omit [DecidableEq Id] in
@[simp] theorem view_buffer : (c.view entries).buffer = c.buffer := rfl

theorem view_apply (op : Op Id Item) : (c.apply op).view entries = (c.view entries).apply op := by
  have hcopy : ∀ (d : Contents Id Item Seg) id,
      (d.supersedeSealedCopy id).view entries = (d.view entries).supersedeSealedCopy id := by
    intro d id
    rw [supersedeSealedCopy, supersedeSealedCopy]
    split
    · rename_i seg howner
      rw [show (d.view entries).owners = d.owners from rfl, howner]
      rfl
    · rename_i howner
      rw [show (d.view entries).owners = d.owners from rfl, howner]
  cases op with
  | add id item =>
      simp only [apply]
      split
      · rename_i hid
        rw [if_pos (show (c.view entries).bufferIds.contains id = true from hid)]
        have h := hcopy { c with
          tombstones := c.tombstones.filter (· ≠ id)
          buffer := c.buffer.filter fun e => e.1 ≠ id } id
        exact congrArg (fun d : Contents Id Item (List (Id × Item)) =>
          { d with buffer := d.buffer ++ [(id, item)] }) h
      · rename_i hid
        rw [if_neg (show ¬ (c.view entries).bufferIds.contains id = true from hid)]
        have h := hcopy { c with
          tombstones := c.tombstones.filter (· ≠ id)
          bufferIds := c.bufferIds.insert id } id
        exact congrArg (fun d : Contents Id Item (List (Id × Item)) =>
          { d with buffer := d.buffer ++ [(id, item)] }) h
  | delete id =>
      simp only [apply]
      split
      · rename_i hid
        rw [if_pos (show (c.view entries).bufferIds.contains id = true from hid)]
        have h := hcopy { c with
          bufferIds := c.bufferIds.filter (· ≠ id)
          buffer := c.buffer.filter fun e => e.1 ≠ id } id
        exact congrArg (fun d : Contents Id Item (List (Id × Item)) =>
          { d with tombstones := d.tombstones.insert id }) h
      · rename_i hid
        rw [if_neg (show ¬ (c.view entries).bufferIds.contains id = true from hid)]
        exact congrArg (fun d : Contents Id Item (List (Id × Item)) =>
          { d with tombstones := d.tombstones.insert id }) (hcopy c id)

theorem flushBuffer_keeps (hst : st.Keeps entries) (hne : c.buffer ≠ []) :
    c.flushBuffer st = { c.allocId with
      owners := c.owners.map fun o => o.insertAll (c.buffer.map Prod.fst) c.nextSegId
      segments := c.segments ++ [st.buildSegment c.buffer]
      segmentIds := c.segmentIds ++ [c.nextSegId]
      buffer := []
      bufferIds := [] } := by
  simp [flushBuffer, hst.ids, hne, allocId]

theorem view_flushBuffer (hst : st.Keeps entries) (hnd : (c.buffer.map Prod.fst).Nodup) :
    Reordered ((c.view entries).flushBuffer (defaultStore Id Item))
      ((c.flushBuffer st).view entries) := by
  by_cases hne : c.buffer = []
  · rw [flushBuffer_of_empty c st hne, flushBuffer_of_empty (c.view entries) _ hne]
    exact .refl _
  · rw [flushBuffer_default (show (c.view entries).buffer ≠ [] from hne),
      flushBuffer_keeps hst hne]
    refine ⟨?_, rfl, rfl, rfl, rfl, rfl, rfl, rfl, fun _ => rfl⟩
    show List.Forall₂ List.Perm (c.segments.map entries ++ [c.buffer])
      ((c.segments ++ [st.buildSegment c.buffer]).map entries)
    rw [List.map_append]
    exact List.rel_append (Reordered.refl (c.view entries)).segments
      (.cons (hst.build c.buffer hnd).symm .nil)

/-- A merge keeps the live entries of the group. -/
theorem view_mergedSegment (hst : st.Keeps entries) (hc : (c.view entries).Tracked)
    {indices : List Nat} (hidx : indices.Nodup) :
    (entries (c.mergedSegment st indices)).Perm
      ((c.view entries).mergedSegment (defaultStore Id Item) indices) := by
  have hnd := hc.mergedSegment_nodup hidx
  have hpick : pick (c.view entries).segments indices = (pick c.segments indices).map entries :=
    pick_map entries c.segments indices
  rw [mergedSegment] at hnd ⊢
  rw [mergedSegment]
  dsimp only at hnd ⊢
  simp only [view_segmentIds, view_superseded, view_tombstones, hpick] at hnd ⊢
  split
  · rename_i hmarks
    rw [if_pos hmarks] at hnd
    simp only [defaultStore, List.zip_map_left, List.map_map, Function.comp_def, Prod.map,
      id_eq, List.flatten_singleton, List.filter_true, ← List.flatMap_def] at hnd ⊢
    generalize (pick c.segments indices).zip (pick c.segmentIds indices) = group at hnd ⊢
    have hfiltered : ∀ p ∈ group,
        (entries (st.mergeSegments [p.1] (copyIsLive c.tombstones c.superseded p.2))).Perm
          ((entries p.1).filter fun e => copyIsLive c.tombstones c.superseded p.2 e.1) := by
      intro p hp
      have hkept := hst.merge [p.1] (copyIsLive c.tombstones c.superseded p.2)
      rw [List.flatMap_singleton] at hkept
      rw [List.map_flatMap, List.flatMap_def] at hnd
      exact hkept (hnd.sublist (List.sublist_flatten_of_mem (List.mem_map.mpr ⟨p, hp, rfl⟩)))
    have hflat := List.Perm.flatMap_left group hfiltered
    rw [← List.flatMap_map] at hflat
    have hkept := hst.merge (group.map fun p =>
      st.mergeSegments [p.1] (copyIsLive c.tombstones c.superseded p.2)) fun _ => true
    rw [List.filter_true] at hkept
    exact (hkept ((hflat.map Prod.fst).nodup_iff.mpr hnd)).trans hflat
  · rename_i hmarks
    rw [if_neg hmarks] at hnd
    simp only [defaultStore, ← List.flatMap_def] at hnd ⊢
    exact hst.merge _ _ hnd

theorem view_merge (hst : st.Keeps entries) (hc : (c.view entries).Tracked) {indices : List Nat}
    (hidx : indices.Nodup) :
    Reordered ((c.view entries).merge (defaultStore Id Item) indices)
      ((c.merge st indices).view entries) := by
  have hperm := view_mergedSegment hst hc hidx
  have hlen : (defaultStore Id Item).segmentLen
      ((c.view entries).mergedSegment (defaultStore Id Item) indices) =
        st.segmentLen (c.mergedSegment st indices) := by
    rw [hst.len]
    exact hperm.length_eq.symm
  have hrest : dropIndices indices (c.segments.map entries) =
      (dropIndices indices c.segments).map entries := dropIndices_map entries _ _
  rw [merge, merge, hlen]
  split
  · refine ⟨?_, rfl, rfl, rfl, rfl, rfl, rfl, ?_, fun id => ?_⟩
    · show List.Forall₂ List.Perm (dropIndices indices (c.segments.map entries) ++ [_])
        ((dropIndices indices c.segments ++ [_]).map entries)
      rw [hrest, List.map_append]
      exact List.rel_append (List.forall₂_same.mpr fun _ _ => .refl _) (.cons hperm.symm .nil)
    · show (c.owners.bind fun o => (st.itemIds _).map fun ids => _).isSome =
        (c.owners.bind fun o => ((defaultStore Id Item).itemIds _).map fun ids => _).isSome
      rw [hst.ids]
      cases c.owners with
      | none => rfl
      | some owners => rfl
    · show (c.owners.bind fun o => (st.itemIds _).map fun ids => _).bind _ =
        (c.owners.bind fun o => ((defaultStore Id Item).itemIds _).map fun ids => _).bind _
      rw [hst.ids]
      cases c.owners with
      | none => rfl
      | some owners =>
          simp only [defaultStore, Option.bind_some, Option.map_some, FinMap.lookup_insertAll]
          rw [if_congr (hperm.map Prod.fst).mem_iff rfl rfl]
          rfl
  · refine ⟨?_, rfl, rfl, rfl, rfl, rfl, rfl, rfl, fun _ => rfl⟩
    show List.Forall₂ List.Perm (dropIndices indices (c.segments.map entries))
      ((dropIndices indices c.segments).map entries)
    rw [hrest]
    exact List.forall₂_same.mpr fun _ _ => .refl _

theorem view_compacted (hst : st.Keeps entries) (hc : (c.view entries).Tracked) :
    Reordered ((c.view entries).compacted (defaultStore Id Item))
      ((c.compacted st).view entries) := by
  have hlen : (c.view entries).segments.length = c.segments.length := List.length_map _
  have hneeds : (c.view entries).needsCompact = c.needsCompact := by
    rw [needsCompact, needsCompact, hlen]
    rfl
  rw [compacted, compacted, hneeds, hlen]
  have hpurge : ∀ {d d' : Contents Id Item (List (Id × Item))}, Reordered d d' →
      Reordered d.purge d'.purge := fun h =>
    ⟨h.segments, h.segmentIds, h.nextSegId, h.buffer, h.bufferIds, rfl, rfl, h.known, h.owner⟩
  split
  · exact hpurge (view_merge hst hc List.nodup_range)
  · exact .refl _

/-! ## What is stored -/

theorem stores_flushBuffer (hst : st.Keeps entries) {m : Id → Option Item}
    (h : (c.view entries).Stores m) : ((c.flushBuffer st).view entries).Stores m :=
  (view_flushBuffer hst h.tracked.bufferNodup).stores h.flushBuffer

theorem stores_replay (hst : st.Keeps entries) {m : Id → Option Item}
    (h : (c.view entries).Stores m) (flushThreshold : Nat) (ops : List (Op Id Item)) :
    ((c.replay st flushThreshold ops).view entries).Stores (history m ops) := by
  induction ops generalizing c m with
  | nil => exact h
  | cons op ops ih =>
      have happly : ((c.apply op).view entries).Stores (op.write.run m) := by
        rw [view_apply]
        exact h.apply op
      refine ih ?_
      show (((c.apply op).sealFull st flushThreshold).view entries).Stores _
      rw [sealFull]
      split
      · exact stores_flushBuffer hst happly
      · exact happly

end Contents

/-! ## Opening -/

section Open

variable [DecidableEq Id] {st : Store Id Item Seg} {entries : Seg → List (Id × Item)}

theorem resolveOwners_view (hst : st.Keeps entries) (tombstones : List Id)
    (segments : List (Nat × Seg)) (claims : Claims Id) :
    resolveOwners (defaultStore Id Item) tombstones
        (segments.map fun p => (p.1, entries p.2)) claims =
      resolveOwners st tombstones segments claims := by
  induction segments generalizing claims with
  | nil => rfl
  | cons p segments ih =>
      obtain ⟨seg, segment⟩ := p
      simp only [List.map_cons, resolveOwners, hst.ids, defaultStore]
      cases claimIds tombstones seg ((entries segment).map Prod.fst) claims with
      | ok claims => exact ih claims
      | error e => rfl

/-- The memory at open is that of the entries. -/
theorem boot_view (hst : st.Keeps entries) (m : LoadedManifest Id) (segs : List Seg) :
    m.boot (defaultStore Id Item) (segs.map entries) =
      (m.boot st segs).map (Contents.view entries) := by
  rw [LoadedManifest.boot, LoadedManifest.boot, List.zip_map_right]
  have h := resolveOwners_view hst m.tombstones (m.segmentIds.zip segs) (∅, m.superseded)
  have hpairs : (m.segmentIds.zip segs).map (Prod.map id entries) =
      (m.segmentIds.zip segs).map fun p => (p.1, entries p.2) := rfl
  rw [hpairs, h]
  cases resolveOwners st m.tombstones (m.segmentIds.zip segs) (∅, m.superseded) with
  | ok p => rfl
  | error e => rfl

end Open

end Segstore
