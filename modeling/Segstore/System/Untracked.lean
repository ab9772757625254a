import Mathlib.Data.List.Pairwise
import Segstore.Memory.Untracked
import Segstore.System.Upgrade

/-!
# Upgrading an untracked store

A run under a store that does not list ids, followed by an open under one that
does.  The open gives every id to the newest segment that lists it, which is
right as long as every merge of the run was in order.
-/

namespace Segstore

variable {Id Item F : Type} [DecidableEq Id]

/-- The last entry of an increasing list is its largest. -/
theorem getLast?_of_increasing {l : List Nat} (h : l.Pairwise (· < ·)) {a : Nat} (ha : a ∈ l)
    (hmax : ∀ b ∈ l, b ≤ a) : l.getLast? = some a := by
  have hne : l ≠ [] := List.ne_nil_of_mem ha
  rw [List.getLast?_eq_some_getLast hne]
  have hle := hmax _ (List.getLast_mem hne)
  have hsplit := List.dropLast_append_getLast hne
  rw [← hsplit] at ha h
  rcases List.mem_append.mp ha with ha | ha
  · have hlt := (List.pairwise_append.mp h).2.2 a ha _ (List.mem_singleton.mpr rfl)
    exact absurd hle (Nat.not_le_of_lt hlt)
  · rw [List.mem_singleton.mp ha]

/-! ## Opening under a store that lists ids -/

namespace Contents

variable {c boot : Contents Id Item (List (Id × Item))} {m : Id → Option Item}

theorem Recent.not_marked_image (h : c.Recent m) (epoch seg : Nat) (id : Id) :
    ¬ Marked (c.image epoch).superseded seg id := fun hmark =>
  h.unmarked seg id ((marked_congr (lookup_image_superseded c epoch seg) id).mp hmark)

/-- The claimants of an id are its listers, unless it is deleted. -/
theorem Recent.mem_claimants_image (h : c.Recent m) (epoch seg : Nat) (id : Id) :
    seg ∈ claimants (c.image epoch).tombstones (c.image epoch).superseded (listed c.sealed) id ↔
      c.Lists seg id ∧ id ∉ c.tombstones := by
  rw [mem_claimants_iff, copyIsLive_iff]
  exact and_congr_right fun _ => and_iff_left (h.not_marked_image epoch seg id)

/-- The open gives an id to the newest segment that lists it. -/
theorem Recent.booted_owner (h : c.Recent m) {epoch : Nat}
    (hb : Booted (c.image epoch).toLoadedManifest c.segments boot) {id : Id} {seg : Nat}
    {entries : List (Id × Item)} (htomb : id ∉ c.tombstones) (hnewest : c.Newest id seg entries) :
    boot.liveSegmentOf id = some seg := by
  have hsealed : boot.sealed = c.sealed := hb.sealed
  rw [hb.owner, hsealed]
  refine getLast?_of_increasing ?_ ((h.mem_claimants_image epoch seg id).mpr
    ⟨⟨entries, hnewest.mem, hnewest.lists⟩, htomb⟩)
    fun k hk => hnewest.max k ((h.mem_claimants_image epoch k id).mp hk).1
  refine List.Pairwise.sublist (List.filter_sublist.map Prod.fst) ?_
  rw [map_fst_listed, map_fst_sealed h.shape.len]
  exact h.shape.sorted

/-- The image of a memory that kept its newest values boots to a memory that
keeps the map, provided it boots. -/
theorem Recent.upgrade (h : c.Recent m) (hbuffer : c.buffer = []) {epoch : Nat}
    (hboot : (c.image epoch).boot (defaultStore Id Item) c.segments = .ok boot) :
    boot.Keeps m ∧ boot.sealed = c.sealed ∧ boot.tombstones = c.tombstones ∧
      ∀ seg id, id ∈ c.tombstones → ¬ Marked boot.superseded seg id := by
  have hnd : c.segmentIds.Nodup := h.shape.sorted.imp fun hlt => Nat.ne_of_lt hlt
  obtain ⟨hb, hclear⟩ := Booted.of_boot (m := (c.image epoch).toLoadedManifest) h.shape.len hnd
    hboot
  have hsealed : boot.sealed = c.sealed := hb.sealed
  have hshape : boot.Shape := by
    refine ⟨?_, ?_, ?_⟩
    · rw [hb.segmentIds, hb.segments]
      exact h.shape.len
    · rw [hb.segmentIds]
      exact h.shape.sorted
    · rw [hb.segmentIds, hb.nextSegId]
      exact h.shape.below
  have htracked : boot.Tracked := hb.tracked hshape hclear fun seg id hmark =>
    absurd hmark (h.not_marked_image epoch seg id)
  have hnobuffer := h.buffered.not_mem hbuffer
  have hnewest : ∀ id seg entries, id ∉ c.tombstones → c.Newest id seg entries →
      ∃ item, m id = some item ∧ boot.LiveCopy (some seg) id item := by
    intro id seg entries htomb hnewest
    obtain ⟨item, hvalue, hitem⟩ :=
      h.sealedValue id (hnobuffer id) htomb seg entries hnewest
    exact ⟨item, hvalue, entries, hsealed ▸ hnewest.mem, hitem,
      ((htracked.owner id seg).mp (h.booted_owner hb htomb hnewest)).2⟩
  obtain ⟨m', -, hplace⟩ := htracked.keeps
  refine ⟨⟨htracked, fun id item => ⟨fun hvalue => ?_, ?_⟩, hplace.place⟩, hsealed,
    hb.tombstones, fun seg id htomb hmark => ?_⟩
  · have hlisted : id ∉ c.tombstones ∧ ∃ seg, c.Lists seg id := by
      by_contra hno
      rw [not_and_or, not_not, not_exists] at hno
      rw [h.absent id (hnobuffer id) hno] at hvalue
      cases hvalue
    obtain ⟨htomb, seg, hlist⟩ := hlisted
    obtain ⟨seg', entries, hnew⟩ := h.shape.newest hlist
    obtain ⟨item', hvalue', hcopy⟩ := hnewest id seg' entries htomb hnew
    obtain rfl : item' = item := Option.some.inj (hvalue'.symm.trans hvalue)
    exact ⟨some seg', hcopy⟩
  · rintro ⟨place, hcopy⟩
    cases place with
    | none =>
        rw [LiveCopy, hb.buffer] at hcopy
        exact absurd hcopy List.not_mem_nil
    | some seg =>
        obtain ⟨hlist, hlive⟩ := hcopy.lists
        rw [Contents.isLiveIn_iff, hb.tombstones] at hlive
        obtain ⟨seg', entries, hnew⟩ := h.shape.newest ((lists_congr hsealed seg id).mp hlist)
        obtain ⟨item', hvalue', hcopy'⟩ := hnewest id seg' entries hlive.1 hnew
        rw [(hplace.unique hcopy hcopy').2]
        exact hvalue'
  · rcases (hb.marked seg id).mp hmark with hmark | hmark
    · exact h.not_marked_image epoch seg id hmark
    · rw [hsealed] at hmark
      exact ((h.mem_claimants_image epoch seg id).mp (List.dropLast_subset _ hmark)).2 htomb

variable {liveLen : List (Id × Item) → (Id → Bool) → Option Nat}

variable (liveLen) in
/-- It boots under the untracked store too, and keeps its newest values. -/
theorem Recent.boot_untracked (h : c.Recent m) (hbuffer : c.buffer = []) (epoch : Nat) :
    ∃ boot, (c.image epoch).boot (untrackedStore Id Item liveLen) c.segments = .ok boot ∧
      boot.Recent m ∧ boot.segments = c.segments ∧ boot.segmentIds = c.segmentIds ∧
        boot.tombstones = c.tombstones := by
  obtain ⟨boot, hboot, hownerless, hsegments, hids, htombs, hempty, hnone⟩ :=
    h.ownerless.reload (untrackedStore_unlisted liveLen).itemIds epoch
  have hsealed : boot.sealed = c.sealed := by
    rw [PubState.sealed, PubState.sealed, hsegments, hids]
  have hnobuffer := h.buffered.not_mem hbuffer
  refine ⟨boot, hboot, ⟨hownerless.shape, hownerless.buffered, hownerless.unmarked,
    hownerless.unowned, hownerless.unknown, by simp [hempty],
    fun id _ htomb seg entries hnewest => ?_, fun id _ hgone => ?_⟩, hsegments, hids, htombs⟩
  · exact h.sealedValue id (hnobuffer id) (htombs ▸ htomb) seg entries
      ((newest_congr hsealed).mp hnewest)
  · rw [htombs] at hgone
    exact h.absent id (hnobuffer id) (hgone.imp_right fun hno seg hlist =>
      hno seg ((lists_congr hsealed seg id).mpr hlist))

theorem Recent.replay (h : c.Recent m) (flushThreshold : Nat) (ops : List (Op Id Item)) :
    (c.replay (untrackedStore Id Item liveLen) flushThreshold ops).Recent (history m ops) := by
  induction ops generalizing c m with
  | nil => exact h
  | cons op ops ih => exact ih ((h.apply op).sealFull flushThreshold)

end Contents

/-! ## The invariant -/

/-- Only merges in order. -/
def InOrder : Deed Id Item (List (Id × Item)) → Prop
  | .write _ _ => True
  | .merge c indices => c.MergesInOrder indices

instance [DecidableEq Item] :
    DecidablePred (InOrder : Deed Id Item (List (Id × Item)) → Prop)
  | .write _ _ => inferInstanceAs (Decidable True)
  | .merge c indices => inferInstanceAs (Decidable (c.MergesInOrder indices))

/-- The ledger of an untracked store whose merges were in order. -/
structure Aging (issued : List (Op Id Item)) (l : Ledger Id Item (List (Id × Item))) : Prop where
  recent : l.contents.Recent (history nothing issued)
  committed : ∃ base c epoch, issued = base ++ l.log.records ∧ l.image = Contents.image c epoch ∧
    c.buffer = [] ∧ c.Recent (history nothing base)
  segments : l.published.segments = l.image.segments
  segmentIds : l.published.segmentIds = l.image.segmentIds
  tombstones : l.published.tombstones = l.image.tombstones

namespace Aging

variable {issued : List (Op Id Item)} {l : Ledger Id Item (List (Id × Item))}
variable {liveLen : List (Id × Item) → (Id → Bool) → Option Nat}

theorem commit (h : l.contents.Recent (history nothing issued)) :
    Aging issued (l.commit (untrackedStore Id Item liveLen)) := by
  have hflushed : (l.contents.flushBuffer (untrackedStore Id Item liveLen)).Recent _ :=
    h.flushBuffer
  have hrecent := hflushed.retainSuperseded
  exact ⟨hrecent, ⟨issued, _, _, (List.append_nil _).symm, rfl,
    Contents.flushBuffer_buffer _ _, hrecent⟩, rfl, rfl, rfl⟩

theorem step {flushThreshold : Nat} (h : Aging issued l) {ops : List (Op Id Item)}
    {l' : Ledger Id Item (List (Id × Item))}
    (hstep : Step (untrackedStore Id Item liveLen) InOrder flushThreshold l ops l') :
    Aging (issued ++ ops) l' := by
  cases hstep with
  | @write op _ =>
      obtain ⟨base, c, epoch, hbase, him, hbuffer, hrecent⟩ := h.committed
      refine ⟨?_, ⟨base, c, epoch, ?_, him, hbuffer, hrecent⟩, h.segments, h.segmentIds,
        h.tombstones⟩
      · rw [history_concat]
        exact (h.recent.apply op).sealFull flushThreshold
      · rw [hbase, List.append_assoc]
        rfl
  | sync =>
      rw [List.append_nil]
      exact ⟨h.recent, h.committed, h.segments, h.segmentIds, h.tombstones⟩
  | sealRest =>
      rw [List.append_nil]
      exact ⟨h.recent.flushBuffer, h.committed, h.segments, h.segmentIds, h.tombstones⟩
  | commit hmerged =>
      rw [List.append_nil]
      exact commit (hmerged.induction (I := fun c => c.Recent (history nothing issued))
        (fun hc _ horder => hc.merge horder) h.recent.flushBuffer)
  | compact =>
      rw [List.append_nil]
      exact commit h.recent.flushBuffer.compacted

theorem reopen (h : Aging issued l) (flushThreshold : Nat) :
    ∃ boot, l.image.boot (untrackedStore Id Item liveLen) l.image.segments = .ok boot ∧
      Aging issued {
        contents := boot.replay (untrackedStore Id Item liveLen) flushThreshold l.log.records
        image := l.image
        log := l.log
        published := boot.toPubState } := by
  obtain ⟨base, c, epoch, hbase, him, hbuffer, hrecent⟩ := h.committed
  obtain ⟨boot, hboot, hbooted, hsegments, hids, htomb⟩ :=
    hrecent.boot_untracked liveLen hbuffer epoch
  rw [him]
  refine ⟨boot, hboot, ?_, ⟨base, c, epoch, hbase, rfl, hbuffer, hrecent⟩, hsegments, hids, htomb⟩
  rw [hbase, history_append]
  exact hbooted.replay flushThreshold l.log.records

theorem lasting [F64 F] (O : Options F → Prop) :
    Lasting (untrackedStore Id Item liveLen) (InOrder : Deed Id Item _ → Prop) O Aging :=
  ⟨fun _ h hstep => h.step hstep, fun _ h => h.reopen _⟩

end Aging

/-! ## After the upgrade -/

variable [F64 F]

theorem aging_empty : Aging [] (emptyLedger : Ledger Id Item (List (Id × Item))) := by
  have hrecent : (emptyLedger : Ledger Id Item (List (Id × Item))).contents.Recent nothing := by
    refine ⟨⟨rfl, .nil, by simp [emptyLedger]⟩, ⟨List.nodup_nil, by simp [emptyLedger],
      by simp [emptyLedger]⟩, fun seg id => not_marked_empty seg id, fun _ => rfl,
      fun hne => absurd rfl hne, by simp [emptyLedger], ?_, fun _ _ _ => rfl⟩
    rintro id - - seg entries hnewest
    exact absurd hnewest.mem List.not_mem_nil
  exact ⟨hrecent, ⟨[], _, 0, rfl, rfl, rfl, hrecent⟩, rfl, rfl, rfl⟩

/-- A write since the last commit adds an id back that the commit tombstones
while one of its segments lists the id. -/
def SegmentedStore.Revives (s : SegmentedStore Id Item (List (Id × Item)) F) : Prop :=
  ∃ id item, Op.add id item ∈ (Directory.logOf s.dir.files s.wal).records ∧
    id ∈ s.published.tombstones ∧ ∃ p ∈ s.published.sealed, id ∈ p.2.map Prod.fst

omit [F64 F] in
instance (s : SegmentedStore Id Item (List (Id × Item)) F) : Decidable s.Revives :=
  decidable_of_iff (∃ id ∈ (Directory.logOf s.dir.files s.wal).records.filterMap
      (fun op : Op Id Item => match op with
        | .add id _ => some id
        | .delete _ => none),
      id ∈ s.published.tombstones ∧ ∃ p ∈ s.published.sealed, id ∈ p.2.map Prod.fst) <| by
    constructor
    · rintro ⟨id, hid, h⟩
      obtain ⟨⟨_, item⟩ | _, hop, heq⟩ := List.mem_filterMap.mp hid
      · cases heq
        exact ⟨id, item, hop, h⟩
      · cases heq
    · rintro ⟨id, item, hop, h⟩
      exact ⟨id, List.mem_filterMap.mpr ⟨_, hop, rfl⟩, h⟩

/-- A store that did not list ids is opened under one that does.  When every
merge was in order and no write since the last commit revives an id, the live
pairs are the map of all operations. -/
theorem upgrade_keeps_newest (liveLen : List (Id × Item) → (Id → Bool) → Option Nat)
    (fileBacked : Bool) (opts opts' : Options F) (keep keep' : Nat)
    (events : List (Event Id Item F))
    (hevents : ∀ e ∈ Event.reopen opts keep [] :: events, e.Faultless fileBacked)
    (hheeds : Proc.Heeds (untrackedStore Id Item liveLen) InOrder (.fresh fileBacked)
      (.reopen opts keep [] :: events)) :
    ∃ s, (Proc.run (untrackedStore Id Item liveLen) (.fresh fileBacked) []
        (.reopen opts keep [] :: events)).1 = .running s ∧
      (¬ s.Revives → ∀ t, (Proc.step (defaultStore Id Item) (.running s)
          (.reopen opts' keep' [])).1 = .running t →
        Shown t.livePairs (history nothing (events.flatMap Event.ops))) := by
  obtain ⟨s, im, hrun, hs, hI⟩ := (Aging.lasting (fun _ => True)).run_opened
    (l := emptyLedger) (coherent_empty fileBacked) rfl rfl rfl aging_empty hevents
    (fun e _ => by cases e <;> trivial) hheeds
  refine ⟨s, congrArg Prod.fst hrun, fun hrevives t hopen => ?_⟩
  obtain ⟨hback, boot, hboot⟩ := step_reopen_boots (defaultStore Id Item)
    (p := .running s) hs.framed.disk hopen
  obtain ⟨u, hstep, -, hledger⟩ := Lasting.start (defaultStore Id Item)
    (O := fun _ => True) (.running s) hs.framed.disk rfl hs.synced opts' keep' ⟨rfl, hback⟩
    trivial hboot
  rw [hstep] at hopen
  cases hopen
  obtain ⟨base, c, epoch, hbase, him, hbuffer, hrecent⟩ := hI.committed
  rw [SegmentedStore.ledger] at him
  dsimp only at him
  subst him
  obtain ⟨hkeeps, hsealed, htomb, hunmarked⟩ := hrecent.upgrade hbuffer hboot
  have hlogged : ∀ op ∈ (s.ledger (c.image epoch)).log.records, ¬ boot.Exhumes op := by
    intro op hop hex
    cases op with
    | delete id => exact hex
    | add id item =>
        obtain ⟨hid, seg, ⟨entries, hp, hlists⟩, -⟩ := hex
        refine hrevives ⟨id, item, ?_, ?_, (seg, entries), ?_, hlists⟩
        · rw [hs.framed.wal, ← hs.current hs.healthy.1]
          exact hop
        · rw [htomb] at hid
          exact hI.tombstones.symm ▸ hid
        · rw [hsealed] at hp
          rw [PubState.sealed, show s.published.segments = _ from hI.segments,
            show s.published.segmentIds = _ from hI.segmentIds]
          exact hp
  obtain ⟨hfinal, -⟩ := hkeeps.replay opts'.flushThreshold hlogged
  rw [← history_append, ← hbase] at hfinal
  have hcontents : t.toContents = boot.replay (defaultStore Id Item) opts'.flushThreshold
      (s.ledger (c.image epoch)).log.records := congrArg Ledger.contents hledger
  rw [← hcontents] at hfinal
  exact Contents.shown_livePairs hfinal.tracked hfinal.map

/-- An id is added again over a sealed copy, another is deleted, and the merge of the two
small segments takes in the newer copy of the first. -/
theorem upgrade_keeps_newest_merged :
    ∃ s t, (Proc.run (untrackedStore Nat Nat fun _ _ => none) (.fresh (F := Rat) false) []
        [.reopen (.new 10) 0 [], .call (.extend [(1, 5), (2, 6), (5, 1)]) [],
          .call .checkpoint [], .call (.add 1 7) [], .call .checkpoint [],
          .call (.delete 2) [], .call (.add 4 9) [], .call (.forceMergeTo 2) [],
          .call (.add 6 1) []]).1 = .running s ∧
      s.sealed = [(0, [(1, 5), (2, 6), (5, 1)]), (3, [(1, 7), (4, 9)])] ∧
      (Proc.step (defaultStore Nat Nat) (.running s) (.reopen (.new 10) 0 [])).1 =
        .running t ∧
      Shown t.livePairs (history nothing [.add 1 5, .add 2 6, .add 5 1, .add 1 7, .delete 2,
        .add 4 9, .add 6 1]) := by
  have hopened : Proc.holds (fun s => decide (s.sealed =
        [(0, [(1, 5), (2, 6), (5, 1)]), (3, [(1, 7), (4, 9)])] ∧ ¬ s.Revives) &&
      (Proc.step (defaultStore Nat Nat) (.running s) (.reopen (.new 10) 0 [])).1.holds
        fun _ => true)
      (Proc.run (untrackedStore Nat Nat fun _ _ => none) (.fresh (F := Rat) false) []
        [.reopen (.new 10) 0 [], .call (.extend [(1, 5), (2, 6), (5, 1)]) [],
          .call .checkpoint [], .call (.add 1 7) [], .call .checkpoint [],
          .call (.delete 2) [], .call (.add 4 9) [], .call (.forceMergeTo 2) [],
          .call (.add 6 1) []]).1 = true := by
    decide +kernel
  have hheeds : Proc.Heeds (untrackedStore Nat Nat fun _ _ => none) InOrder
      (.fresh (F := Rat) false)
      [.reopen (.new 10) 0 [], .call (.extend [(1, 5), (2, 6), (5, 1)]) [],
        .call .checkpoint [], .call (.add 1 7) [], .call .checkpoint [],
        .call (.delete 2) [], .call (.add 4 9) [], .call (.forceMergeTo 2) [],
        .call (.add 6 1) []] := by
    decide +kernel
  obtain ⟨s, hs, hkeeps⟩ := upgrade_keeps_newest (fun _ _ => none) false (.new (F := Rat) 10)
    (.new 10) 0 0 _ (by simp [Event.Faultless, Options.new]) hheeds
  obtain ⟨s', hs', hopened⟩ := Proc.holds_iff.mp hopened
  obtain rfl : s = s' := Proc.running.inj (hs.symm.trans hs')
  rw [Bool.and_eq_true, Proc.holds_iff] at hopened
  obtain ⟨hmerged, t, ht, -⟩ := hopened
  obtain ⟨hsealed, hrevives⟩ := of_decide_eq_true hmerged
  exact ⟨s, t, hs, hsealed, ht, hkeeps hrevives t ht⟩

/-! ## A merge that is not in order -/

/-- `force_merge_to` merges the two smallest segments, the oldest and the newest,
into one behind the third: the upgrade takes the oldest value of id 1. -/
theorem upgrade_exposes_older_value :
    ∃ s t, (Proc.run (untrackedStore Nat Nat fun _ _ => none) (.fresh (F := Rat) false) []
        [.reopen (.new 10) 0 [], .call (.add 1 5) [], .call .checkpoint [],
          .call (.add 1 6) [], .call (.add 2 6) [], .call .checkpoint [],
          .call (.add 3 7) [], .call (.forceMergeTo 2) []]).1 = .running s ∧
      (Proc.step (defaultStore Nat Nat) (.running s) (.reopen (.new 10) 0 [])).1 =
        .running t ∧
      (1, 5) ∈ t.livePairs ∧ (1, 6) ∉ t.livePairs ∧
      history nothing [.add 1 5, .add 1 6, .add 2 6, .add 3 7] 1 = some 6 := by
  have hopened : Proc.holds (fun s =>
      (Proc.step (defaultStore Nat Nat) (.running s) (.reopen (.new 10) 0 [])).1.holds
        fun t => decide ((1, 5) ∈ t.livePairs ∧ (1, 6) ∉ t.livePairs))
      (Proc.run (untrackedStore Nat Nat fun _ _ => none) (.fresh (F := Rat) false) []
        [.reopen (.new 10) 0 [], .call (.add 1 5) [], .call .checkpoint [],
          .call (.add 1 6) [], .call (.add 2 6) [], .call .checkpoint [],
          .call (.add 3 7) [], .call (.forceMergeTo 2) []]).1 = true := by
    decide +kernel
  obtain ⟨s, hs, hs'⟩ := Proc.holds_iff.mp hopened
  obtain ⟨t, ht, ht'⟩ := Proc.holds_iff.mp hs'
  obtain ⟨hold, hnew⟩ := of_decide_eq_true ht'
  exact ⟨s, t, hs, ht, hold, hnew, rfl⟩

end Segstore
