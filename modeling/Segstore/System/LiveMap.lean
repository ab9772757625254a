import Segstore.System.Survival

/-!
# The live map

The three guarantees of the default store that hold over whole runs from an
empty directory: the live pairs are the map of the operations issued, what has
been acknowledged survives, and the representation invariant always holds.
-/

namespace Segstore

variable {Id Item F : Type} [DecidableEq Id] [F64 F]

/-- The map without entries. -/
abbrev nothing : Id → Option Item := fun _ => none

/-- The live pairs are exactly the entries of the map. -/
def Shown (pairs : List (Id × Item)) (m : Id → Option Item) : Prop :=
  (pairs.map Prod.fst).Nodup ∧ ∀ id item, (id, item) ∈ pairs ↔ m id = some item

namespace Contents

variable {c : Contents Id Item (List (Id × Item))}

omit [F64 F] in
/-- Each id occurs once among the live pairs. -/
theorem Tracked.livePairs_nodup (h : c.Tracked) : (c.livePairs.map Prod.fst).Nodup := by
  rw [livePairs, List.map_append, List.nodup_append, List.map_flatMap, List.nodup_flatMap]
  refine ⟨⟨fun p hp => h.liveNodup p hp, h.sealed_nodup.imp_of_mem ?_⟩, h.bufferNodup, ?_⟩
  · exact fun hp hq hne => h.live_disjoint hp hq hne
  · intro j hj k hk hjk
    obtain ⟨p, hp, hmem⟩ := List.mem_flatMap.mp hj
    obtain ⟨e, he, rfl⟩ := List.mem_map.mp hmem
    obtain ⟨he, hlive⟩ := List.mem_filter.mp he
    rw [h.apart e.1 ((h.bufferIds _).mpr (hjk ▸ hk)) p.1
      ⟨p.2, hp, List.mem_map.mpr ⟨e, he, rfl⟩⟩] at hlive
    cases hlive

omit [F64 F] in
theorem shown_livePairs (h : c.Tracked) {m : Id → Option Item} (hm : Represents c.LiveCopy m) :
    Shown c.livePairs m :=
  ⟨h.livePairs_nodup, fun id item => mem_livePairs.trans (hm.value id item).symm⟩

end Contents

/-! ## The beginning of a run -/

variable (Id Item) in
omit [F64 F] in
/-- An empty directory boots to an empty memory. -/
theorem boot_empty :
    ∃ boot, (emptyImage : Image Id (List (Id × Item))).boot (defaultStore Id Item)
      (emptyImage : Image Id (List (Id × Item))).segments = .ok boot ∧ boot.Stores nothing := by
  have hclear : ¬ Ambiguous (.absent : LoadedManifest Id) ([] : List (List (Id × Item))) := by
    rintro ⟨p, hp, -⟩
    exact List.not_mem_nil hp
  obtain ⟨boot, hboot, hb⟩ := boot_ok rfl List.nodup_nil hclear
  have hsealed : boot.sealed = [] := hb.sealed.trans List.zip_nil_right
  have hlists : ∀ seg id, ¬ boot.Lists seg id := by
    rintro seg id ⟨entries, hp, -⟩
    rw [hsealed] at hp
    exact List.not_mem_nil hp
  have hshape : boot.Shape := by
    refine ⟨?_, ?_, ?_⟩
    · rw [hb.segments, hb.segmentIds]
      rfl
    · rw [hb.segmentIds]
      exact .nil
    · rw [hb.segmentIds]
      exact fun k hk => absurd hk List.not_mem_nil
  refine ⟨boot, hboot, hb.tracked hshape hclear fun seg id hmark => ?_, ⟨?_, ?_⟩, ⟨?_, ?_⟩⟩
  · exact absurd hmark (not_marked_empty seg id)
  · rw [hsealed]
    exact fun p hp => absurd hp List.not_mem_nil
  · rintro id ⟨htomb, -⟩
    rw [hb.tombstones] at htomb
    exact List.not_mem_nil htomb
  · intro id item
    refine iff_of_false (by simp) ?_
    rintro ⟨place, hcopy⟩
    cases place with
    | none =>
        rw [Contents.LiveCopy, hb.buffer] at hcopy
        exact List.not_mem_nil hcopy
    | some seg => exact hlists seg id hcopy.lists.1
  · intro id place place' item item' hcopy
    cases place with
    | none =>
        rw [Contents.LiveCopy, hb.buffer] at hcopy
        exact absurd hcopy List.not_mem_nil
    | some seg => exact absurd hcopy.lists.1 (hlists seg id)

/-- The process before the first open. -/
abbrev Proc.fresh (fileBacked : Bool) : Proc Id Item (List (Id × Item)) F :=
  .closed (.empty fileBacked)

/-- What every process of a run knows and finds. -/
abbrev Proc.Sound (fileBacked : Bool) (issued : List (Op Id Item × Bool))
    (p : Proc Id Item (List (Id × Item)) F) : Prop :=
  p.Agrees fileBacked (fun issued l => Survives issued issued l)
    (fun issued im log => ∃ base, Recoverable issued im log base) issued

omit [F64 F] in
theorem sound_fresh (fileBacked : Bool) :
    (Proc.fresh fileBacked : Proc Id Item (List (Id × Item)) F).Sound fileBacked [] := by
  obtain ⟨boot, hboot, hstores⟩ := boot_empty Id Item
  exact ⟨rfl, emptyImage, coherent_empty fileBacked, [], ⟨⟨boot, hboot, hstores⟩,
    fun n _ => by simpa [Directory.logOf, Directory.empty, RecordLog.empty] using Kept.nil⟩⟩

/-- Every run from an empty directory is sound. -/
theorem sound_run (fileBacked : Bool) (events : List (Event Id Item F)) :
    (Proc.run (defaultStore Id Item) (.fresh fileBacked) [] events).1.Sound fileBacked
      (Proc.run (defaultStore Id Item) (.fresh fileBacked) [] events).2 :=
  resilient_survives.run (sound_fresh fileBacked) events

/-- The memory of a writer that a run reaches stores some map. -/
theorem stores_run {fileBacked : Bool} {events : List (Event Id Item F)}
    {s : SegmentedStore Id Item (List (Id × Item)) F}
    (hs : (Proc.run (defaultStore Id Item) (.fresh fileBacked) [] events).1 = .running s) :
    (∃ m, s.toContents.Stores m) ∧ Bounded s := by
  have hsound := sound_run fileBacked events
  rw [hs] at hsound
  obtain ⟨-, im, -, -, hb, hsurvives⟩ := hsound
  obtain ⟨ops, -, hstores⟩ := hsurvives.memory
  exact ⟨⟨_, hstores⟩, hb⟩

/-! ## Last write wins -/

/-- Over a run without faults, whatever the options at each open, the live pairs
are the map of all operations in their order. -/
theorem last_write_wins (fileBacked : Bool) (opts : Options F) (keep : Nat)
    (events : List (Event Id Item F))
    (hevents : ∀ e ∈ Event.reopen opts keep [] :: events, e.Faultless fileBacked) :
    ∃ s, (Proc.run (defaultStore Id Item) (.fresh fileBacked) []
        (.reopen opts keep [] :: events)).1 = .running s ∧
      Shown s.livePairs (history nothing (events.flatMap Event.ops)) := by
  obtain ⟨-, hfsync⟩ := hevents _ List.mem_cons_self
  have hfresh : (Proc.fresh fileBacked : Proc Id Item (List (Id × Item)) F).Sound _ _ :=
    sound_fresh fileBacked
  obtain ⟨hback, im, hcoh, base, hrec⟩ := resilient_survives.drop hfresh
  obtain ⟨boot, hboot, -⟩ := hrec.boots
  obtain ⟨s, hstep, -, -, -, hhealthy, -⟩ :=
    step_reopen_calm (defaultStore Id Item) hcoh (fun hsync => hback.trans (hfsync hsync))
      hboot keep
  have hs := resilient_survives.step hfresh (.reopen opts keep [])
  rw [hstep] at hs
  obtain ⟨t, hrun, ht⟩ := resilient_survives.run_calm (defaultStore Id Item)
    (fun ⟨_, hrec⟩ => hrec.boots.imp fun _ h => h.1)
    (fun e he => hevents e (List.mem_cons_of_mem _ he)) [] hs hhealthy
  refine ⟨t, ?_, ?_⟩
  · rw [Proc.run, hstep]
    exact congrArg Prod.fst hrun
  · obtain ⟨-, im', -, -, -, hsurvives⟩ := ht
    obtain ⟨ops, hkept, hstores⟩ := hsurvives.memory
    rw [hkept.eq_of_all_acked, List.nil_append] at hstores
    exact Contents.shown_livePairs hstores.tracked hstores.map

/-- A run of two writes and a restart. -/
theorem last_write_wins_restart :
    ∃ s, (Proc.run (defaultStore Nat Nat) (.fresh (F := Rat) false) []
        [.reopen (.new 1) 0 [], .call (.add 1 5) [], .call (.delete 1) [],
          .reopen (.new 2) 0 []]).1 = .running s ∧
      Shown s.livePairs (history nothing [.add 1 5, .delete 1]) :=
  last_write_wins false (.new 1) 0
    [.call (.add 1 5) [], .call (.delete 1) [], .reopen (.new 2) 0 []]
    (by simp [Event.Faultless, Options.new])

/-! ## Faults -/

/-- After any run, with any failures and stops, a new process opens the store
and finds the map of a subsequence of the issued operations that contains every
acknowledged one. -/
theorem open_recovers (fileBacked : Bool) (events : List (Event Id Item F)) (opts : Options F)
    (keep : Nat) (hback : opts.sync = .fsync → fileBacked = true) :
    ∃ s d survived, openWithOptions (defaultStore Id Item) opts
        ((Proc.run (defaultStore Id Item) (.fresh fileBacked) [] events).1.dir.settle keep []) =
          (.ok s, d) ∧
      Kept (Proc.run (defaultStore Id Item) (.fresh fileBacked) [] events).2 survived ∧
        Shown s.livePairs (history nothing survived) := by
  obtain ⟨hback', im, hcoh, base, hrec⟩ := resilient_survives.drop (sound_run fileBacked events)
  generalize Proc.run (defaultStore Id Item) (.fresh fileBacked) [] events = q at *
  obtain ⟨boot, hboot, -⟩ := hrec.boots
  have hopen := open_calm (defaultStore Id Item) (hcoh.settle keep []) rfl opts
    (fun hsync => hback'.trans (hback hsync)) hboot
  rw [Directory.logOf_settle] at hopen
  have hsurvives := hrec.start hboot opts.flushThreshold keep
  obtain ⟨ops, hkept, hstores⟩ := hsurvives.memory
  exact ⟨_, _, ops, Prod.ext hopen.2 rfl, hkept,
    Contents.shown_livePairs hstores.tracked hstores.map⟩

/-- A writer that stops while it writes its first record. -/
theorem open_recovers_torn :
    ∃ s d survived, openWithOptions (defaultStore Nat Nat) (.new 1 : Options Rat)
        ((Proc.run (defaultStore Nat Nat) (.fresh (F := Rat) false) []
          [.reopen (.new 1) 0 [], .call (.add 1 5) [fun _ => .stopped .everything]]).1.dir.settle
            0 []) = (.ok s, d) ∧
      Kept (Proc.run (defaultStore Nat Nat) (.fresh (F := Rat) false) []
          [.reopen (.new 1) 0 [], .call (.add 1 5) [fun _ => .stopped .everything]]).2
        survived ∧ Shown s.livePairs (history nothing survived) :=
  open_recovers (F := Rat) false
    [.reopen (.new 1) 0 [], .call (.add 1 5) [fun _ => .stopped .everything]] (.new 1) 0
    (by simp [Options.new])

/-! ## The representation invariant -/

/-- The invariant of the writer's fields. -/
structure RepInvariant (s : SegmentedStore Id Item (List (Id × Item)) F) : Prop where
  len : s.segments.length = s.segmentIds.length
  increasing : s.segmentIds.Pairwise (· < ·)
  below : ∀ k ∈ s.segmentIds, k < s.nextSegId
  distinct : ∀ segment ∈ s.segments, (segment.map Prod.fst).Nodup
  bufferDistinct : (s.buffer.map Prod.fst).Nodup
  bufferIds : ∀ id, id ∈ s.bufferIds ↔ id ∈ s.buffer.map Prod.fst
  bufferUntombstoned : ∀ id ∈ s.bufferIds, id ∉ s.tombstones
  bufferShort : s.buffer.length < max s.opts.flushThreshold 1
  superseded : ∀ seg id, Marked s.superseded seg id → s.Lists seg id
  owners : ∃ owners, s.owners = some owners ∧ ∀ id seg, owners.lookup id = some seg ↔
    s.Lists seg id ∧ s.isLiveIn seg id = true
  functional : ∀ id seg seg', s.Lists seg id → s.isLiveIn seg id = true → s.Lists seg' id →
    s.isLiveIn seg' id = true → seg = seg'
  apart : ∀ id seg, s.liveSegmentOf id = some seg → id ∉ s.bufferIds ∧ id ∉ s.tombstones
  liveSegmentOf : ∀ id seg, s.liveSegmentOf id = some seg ↔
    ∃ entries item, (seg, entries) ∈ s.sealed ∧ (id, item) ∈ entries ∧
      s.isLiveIn seg id = true
  noLiveSegment : ∀ id, s.liveSegmentOf id = none ↔
    id ∈ s.bufferIds ∨ ∀ item, (id, item) ∉ s.livePairs

omit [F64 F] in
theorem RepInvariant.of_stores {s : SegmentedStore Id Item (List (Id × Item)) F}
    {m : Id → Option Item} (h : s.toContents.Stores m) (hb : Bounded s) : RepInvariant s := by
  have ht := h.tracked
  obtain ⟨owners, howners⟩ := Option.isSome_iff_exists.mp ht.known
  have hlists : ∀ id seg, s.Lists seg id ↔
      ∃ entries item, (seg, entries) ∈ s.sealed ∧ (id, item) ∈ entries := by
    intro id seg
    constructor
    · rintro ⟨entries, hp, hid⟩
      obtain ⟨⟨j, item⟩, hmem, rfl⟩ := List.mem_map.mp hid
      exact ⟨entries, item, hp, hmem⟩
    · rintro ⟨entries, item, hp, hmem⟩
      exact ⟨entries, hp, List.mem_map.mpr ⟨_, hmem, rfl⟩⟩
  have hliveSegmentOf : ∀ id seg, s.liveSegmentOf id = some seg ↔
      ∃ entries item, (seg, entries) ∈ s.sealed ∧ (id, item) ∈ entries ∧
        s.isLiveIn seg id = true := by
    intro id seg
    rw [ht.owner, hlists]
    constructor
    · rintro ⟨⟨entries, item, hp, hmem⟩, hlive⟩
      exact ⟨entries, item, hp, hmem, hlive⟩
    · rintro ⟨entries, item, hp, hmem, hlive⟩
      exact ⟨⟨entries, item, hp, hmem⟩, hlive⟩
  refine ⟨ht.shape.len.symm, ht.shape.sorted, ht.shape.below, fun segment hmem => ?_,
    ht.bufferNodup, ht.bufferIds, ht.buffered, hb, ht.marked,
    ⟨owners, howners, fun id seg => ?_⟩, fun id seg seg' hl hv hl' hv' =>
      ht.sealed_place ⟨hl, hv⟩ ⟨hl', hv'⟩, fun id seg howner => ?_, hliveSegmentOf,
    fun id => ?_⟩
  · have hsnd : s.sealed.map Prod.snd = s.segments :=
      List.map_snd_zip (Nat.le_of_eq ht.shape.len.symm)
    rw [← hsnd] at hmem
    obtain ⟨p, hp, rfl⟩ := List.mem_map.mp hmem
    exact h.tidy.distinct p hp
  · rw [← ht.owner, Contents.liveSegmentOf, howners]
    rfl
  · obtain ⟨hl, hlive⟩ := (ht.owner id seg).mp howner
    refine ⟨fun hid => ?_, (Contents.isLiveIn_iff.mp hlive).1⟩
    rw [ht.apart id hid seg hl] at hlive
    cases hlive
  · constructor
    · intro hnone
      by_cases hid : id ∈ s.bufferIds
      · exact .inl hid
      · refine .inr fun item hmem => ?_
        obtain ⟨place, hcopy⟩ := Contents.mem_livePairs.mp hmem
        cases place with
        | none => exact hid ((ht.bufferIds id).mpr (List.mem_map.mpr ⟨_, hcopy, rfl⟩))
        | some seg =>
            have hsome := (ht.owner id seg).mpr hcopy.lists
            rw [hnone] at hsome
            cases hsome
    · intro hno
      cases howner : s.liveSegmentOf id with
      | none => rfl
      | some seg =>
          obtain ⟨entries, item, hp, hmem, hlive⟩ := (hliveSegmentOf id seg).mp howner
          rcases hno with hid | hno
          · rw [ht.apart id hid seg ((ht.owner id seg).mp howner).1] at hlive
            cases hlive
          · exact absurd (Contents.mem_livePairs.mpr ⟨some seg, entries, hp, hmem, hlive⟩)
              (hno item)

/-- The invariant holds of every writer that a run from an empty directory can
reach, whatever failed before. -/
theorem rep_invariant (fileBacked : Bool) (events : List (Event Id Item F))
    (s : SegmentedStore Id Item (List (Id × Item)) F)
    (hs : (Proc.run (defaultStore Id Item) (.fresh fileBacked) [] events).1 = .running s) :
    RepInvariant s := by
  obtain ⟨⟨m, hstores⟩, hb⟩ := stores_run hs
  exact .of_stores hstores hb

/-- A writer after a failed and a successful write. -/
theorem rep_invariant_after_failure :
    ∃ s, (Proc.run (defaultStore Nat Nat) (.fresh (F := Rat) false) []
        [.reopen (.new 1) 0 [], .call (.add 1 5) [fun _ => .failed (.io "full") .nothing],
          .call (.add 1 6) []]).1 = .running s ∧ RepInvariant s :=
  ⟨_, rfl, rep_invariant false [.reopen (.new 1) 0 [],
    .call (.add 1 5) [fun _ => .failed (.io "full") .nothing], .call (.add 1 6) []] _ rfl⟩

end Segstore
