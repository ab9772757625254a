import Segstore.Memory.Owners
import Segstore.Memory.Same
import Segstore.Memory.Unlisted
import Segstore.Writer.Ledger

/-!
# Reloading a checkpoint

The image of a checkpoint boots to the memory that was committed.
-/

namespace Segstore

variable {Id Item : Type} [DecidableEq Id]

namespace Contents

omit [DecidableEq Id] in
/-- The superseded sets survive the way through the manifest. -/
theorem lookup_image_superseded {Seg : Type} (c : Contents Id Item Seg) (epoch seg : Nat) :
    (c.image epoch).superseded.lookup seg = c.superseded.lookup seg := by
  have hperm : c.supersededRefs.Perm c.superseded.pairs := List.perm_insertionSort _ _
  have hnd : (c.supersededRefs.map Prod.fst).Nodup :=
    (hperm.map Prod.fst).nodup_iff.mpr (FinMap.pairs_keys_nodup _)
  ext ids
  refine (FinMap.lookup_ofPairs hnd seg ids).trans ?_
  rw [hperm.mem_iff, FinMap.mem_pairs]

variable {c : Contents Id Item (List (Id × Item))}

theorem copyIsLive_image (epoch seg : Nat) (id : Id) :
    copyIsLive (c.image epoch).tombstones (c.image epoch).superseded seg id =
      c.isLiveIn seg id := by
  rw [Bool.eq_iff_iff, copyIsLive_iff, isLiveIn_iff,
    marked_congr (lookup_image_superseded c epoch seg)]
  rfl

/-- A committed memory has one claimant at most for each id. -/
theorem Tracked.reload (h : c.Tracked) (hbuffer : c.buffer = []) (epoch : Nat) :
    ∃ boot, (c.image epoch).boot (defaultStore Id Item) c.segments = .ok boot ∧
      Same c boot := by
  have hnd : c.segmentIds.Nodup := h.shape.sorted.imp fun hlt => Nat.ne_of_lt hlt
  have hlive : ∀ seg, copyIsLive (c.image epoch).tombstones (c.image epoch).superseded seg =
      c.isLiveIn seg := fun seg => funext fun id => copyIsLive_image epoch seg id
  have hclear : ¬ Ambiguous (c.image epoch).toLoadedManifest c.segments := by
    rintro ⟨p, hp, hdup⟩
    refine hdup ?_
    rw [liveIds, hlive, List.filter_map]
    exact h.liveNodup p hp
  obtain ⟨boot, hboot, hb⟩ := boot_ok (m := (c.image epoch).toLoadedManifest) h.shape.len hnd
    hclear
  refine ⟨boot, hboot, ?_⟩
  have hsealed : boot.sealed = c.sealed := hb.sealed
  have hsole : ∀ id, (claimants (c.image epoch).tombstones (c.image epoch).superseded
      (listed boot.sealed) id).dropLast = [] := by
    intro id
    rw [hsealed]
    have hnd' : (claimants (c.image epoch).tombstones (c.image epoch).superseded
        (listed c.sealed) id).Nodup :=
      claimants_nodup (by rwa [map_fst_listed, map_fst_sealed h.shape.len]) id
    have hmem : ∀ seg, seg ∈ claimants (c.image epoch).tombstones (c.image epoch).superseded
        (listed c.sealed) id ↔ _ := fun seg => mem_claimants_iff seg id
    generalize claimants _ _ _ id = l at hnd' hmem
    cases l with
    | nil => rfl
    | cons seg l =>
        cases l with
        | nil => rfl
        | cons seg' l =>
            have h₁ := (hmem seg).mp (by simp)
            have h₂ := (hmem seg').mp (by simp)
            rw [hlive] at h₁ h₂
            rw [h.sealed_place h₁ h₂] at hnd'
            simp at hnd'
  have hmarked : ∀ seg id, Marked boot.superseded seg id ↔ Marked c.superseded seg id := by
    intro seg id
    rw [hb.marked, hsole, marked_congr (lookup_image_superseded c epoch seg)]
    simp
  have hliveBoot : ∀ seg id, boot.isLiveIn seg id = c.isLiveIn seg id := by
    intro seg id
    rw [Bool.eq_iff_iff, isLiveIn_iff, isLiveIn_iff, hmarked, hb.tombstones]
    rfl
  refine ⟨hb.segments, hb.segmentIds, hb.nextSegId, hb.buffer.trans hbuffer.symm,
    fun id => ?_, hb.tombstones, hmarked, hb.known.trans h.known.symm, fun id => ?_⟩
  · rw [hb.bufferIds]
    simpa using h.buffering.not_mem hbuffer id
  · ext seg
    rw [hb.owner_iff (by rw [hb.segments, hb.segmentIds]; exact h.shape.len)
      (by rw [hb.segmentIds]; exact hnd), h.owner, lists_congr hsealed, hliveBoot]

/-- Without ids there are no owners to resolve. -/
theorem resolveOwners_unlisted {Seg : Type} {st : Store Id Item Seg}
    (hst : ∀ seg, st.itemIds seg = none) (tombstones : List Id) (segs : List (Nat × Seg))
    (superseded : FinMap Nat (List Id)) :
    ∃ owners : Option (FinMap Id Nat),
      resolveOwners st tombstones segs (∅, superseded) = .ok (owners, superseded) ∧
        (∀ id, owners.bind (fun o => o.lookup id) = none) ∧ (segs ≠ [] → owners = none) := by
  cases segs with
  | nil => exact ⟨some ∅, rfl, fun _ => rfl, fun hne => absurd rfl hne⟩
  | cons p rest => exact ⟨none, by rw [resolveOwners, hst], fun _ => rfl, fun _ => rfl⟩

/-- The image of a memory without owners boots. -/
theorem Ownerless.reload {Seg : Type} {st : Store Id Item Seg} {c : Contents Id Item Seg}
    (h : c.Ownerless) (hst : ∀ seg, st.itemIds seg = none) (epoch : Nat) :
    ∃ boot, (c.image epoch).boot st c.segments = .ok boot ∧ boot.Ownerless ∧
      boot.segments = c.segments ∧ boot.segmentIds = c.segmentIds ∧
        boot.tombstones = c.tombstones ∧ boot.buffer = [] ∧ boot.bufferIds = [] := by
  obtain ⟨owners, hresolve, hunowned, hunknown⟩ := resolveOwners_unlisted hst
    (c.image epoch).tombstones ((c.image epoch).segmentIds.zip c.segments)
    (c.image epoch).superseded
  have hzip : c.segments ≠ [] → (c.image epoch).segmentIds.zip c.segments ≠ [] := by
    intro hne hnil
    have hsnd : ((c.image epoch).segmentIds.zip c.segments).map Prod.snd = c.segments :=
      List.map_snd_zip (Nat.le_of_eq h.shape.len.symm)
    rw [hnil] at hsnd
    exact hne hsnd.symm
  have hboot : (c.image epoch).boot st c.segments = .ok {
      segments := c.segments
      segmentIds := c.segmentIds
      tombstones := c.tombstones
      superseded := (c.image epoch).superseded
      buffer := []
      bufferIds := []
      owners := owners
      nextSegId := c.nextSegId } := by
    rw [LoadedManifest.boot, hresolve]
    rfl
  refine ⟨_, hboot, ⟨⟨h.shape.len, h.shape.sorted, h.shape.below⟩,
    ⟨List.nodup_nil, by simp, by simp⟩, fun seg id hmark => ?_, hunowned,
    fun hne => hunknown (hzip hne)⟩, rfl, rfl, rfl, rfl, rfl⟩
  exact h.unmarked seg id ((marked_congr (lookup_image_superseded c epoch seg) id).mp hmark)

end Contents

end Segstore
