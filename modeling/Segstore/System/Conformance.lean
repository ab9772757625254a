import Segstore.Kernel.Achieves
import Segstore.Model.Conformance
import Segstore.System.Consumers

/-!
# Conforming indexes

An index that keeps its documents in a store, whatever the segments of the store
are, passes the conformance suite.  The proof follows the suite: next to the
index runs the list of operations so far, and next to the plain map of the random
test the map these operations make.
-/

namespace Segstore

variable {Item Seg F S Doc Dir α : Type} [F64 F]

namespace CheckM

variable {P : S → Prop} {Q : α → S → Prop}

theorem expect_achieves {what : String} {p : Eff PersistenceError S α} (h : Achieves P p Q) :
    Achieves P (expect what p) Q := by
  intro s hs
  obtain ⟨a, t, hrun, ht⟩ := h s hs
  exact ⟨a, t, by rw [expect, hrun], ht⟩

theorem assert_achieves {ok : Bool} {text : String} (h : ∀ s, P s → ok = true) :
    Achieves P (assert ok text) (fun _ => P) := by
  intro s hs
  rw [assert, if_pos (h s hs)]
  exact ⟨(), s, rfl, hs⟩

/-- What one round does to an invariant that counts the rounds to come. -/
theorem forEach_achieves {J : Nat → S → Prop} {l : List α} {body : α → CheckM S Unit}
    (h : ∀ a ∈ l, ∀ n, Achieves (J (n + 1)) (body a) (fun _ => J n)) :
    Achieves (J l.length) (forEach l body) (fun _ => J 0) := by
  induction l with
  | nil => exact .pure fun _ hs => hs
  | cons a l ih =>
      refine Achieves.bind (h a List.mem_cons_self l.length) fun _ => ?_
      exact ih fun b hb => h b (List.mem_cons_of_mem _ hb)

end CheckM

/-! ## The index -/

variable {st : Store UInt32 Item Seg} {entries : Seg → List (UInt32 × Item)}

/-- The index is healthy, and holds what the operations make. -/
structure Fit (entries : Seg → List (UInt32 × Item)) (ops : List (Op UInt32 Item))
    (s : SegmentedStore UInt32 Item Seg F) : Prop where
  sound : (Proc.running s).SoundFor entries false (flagged true ops)
  calm : s.Calm

namespace Fit

variable {ops : List (Op UInt32 Item)}

theorem exec (hst : st.Keeps entries) (cmd : Cmd UInt32 Item F) :
    Achieves (Fit entries ops) (cmd.exec st) (fun _ t => Fit entries (ops ++ cmd.ops) t) := by
  intro s hs
  have harmed : Proc.armed s [] = s := by
    have hfates : s.dir.fates = [] := hs.calm.1
    rw [Proc.armed, ← hfates]
  obtain ⟨⟨⟨⟩, hr⟩, hcalm⟩ := (SegmentedStore.partwise_returns st).exec cmd s hs.calm
  have hnext := (resilient_consumers hst).call hs.sound cmd []
  simp only [Proc.step, harmed, hr, Proc.afterCall, Proc.acked, ← flagged_append] at hnext
  exact ⟨(), _, Prod.ext hr rfl, hnext, hcalm⟩

/-- Opening what is left of a process without faults. -/
theorem openAgain (hst : st.Keeps entries) {opts : Options F} (hsync : opts.sync = .flush)
    (keep : Nat) {p : Proc UInt32 Item Seg F}
    (hp : p.SoundFor entries false (flagged true ops)) :
    ∃ s d, openWithOptions st opts (p.dir.settle keep []) = (.ok s, d) ∧ Fit entries ops s := by
  obtain ⟨hback, im, hcoh, base, hrec⟩ := (resilient_consumers hst).drop hp
  obtain ⟨boot, hboot⟩ := hrec.recovers.boots_of_view hst
  have hopen := open_calm st (hcoh.settle keep []) rfl opts
    (fun h => by rw [hsync] at h; cases h) hboot
  obtain ⟨hcalm, hr⟩ := hopen
  have hnext := (resilient_consumers hst).reopen hp opts keep []
  rw [Proc.step_reopen, hr] at hnext
  exact ⟨_, _, Prod.ext hr rfl, hnext, hcalm, rfl, rfl⟩

omit [F64 F] in
theorem shown {s : SegmentedStore UInt32 Item Seg F} (h : Fit entries ops s) :
    Shown (s.livePairsOf entries) (history nothing ops) :=
  Proc.SoundFor.shown_calm h.sound

end Fit

/-! ## Calls and assertions on the index -/

section Index

variable {opts : Options F} {keep : Nat} {doc : UInt64 → Item} {accepts : Item → Item → Bool}
variable {ops : List (Op UInt32 Item)}

/-- The index finds an id by a document exactly when the current document of the
id is accepted. -/
theorem Fit.mem_matching {s : SegmentedStore UInt32 Item Seg F} (h : Fit entries ops s)
    (id : UInt32) (item : Item) :
    id ∈ (SegmentedStore.asIndex st entries opts keep doc accepts).matching s item ↔
      ∃ current, history nothing ops id = some current ∧ accepts item current = true := by
  have hpairs : s.sealed.flatMap (fun p => (entries p.2).filter fun e => s.isLiveIn p.1 e.1) ++
      s.buffer = s.livePairsOf entries := by
    have hsealed : (s.toContents.view entries).sealed =
        s.sealed.map fun p => (p.1, entries p.2) := List.zip_map_right ..
    rw [SegmentedStore.livePairsOf, Contents.livePairs, hsealed, List.flatMap_map]
    rfl
  show id ∈ ((s.sealed.flatMap _ ++ s.buffer).filter _).map Prod.fst ↔ _
  rw [hpairs, List.mem_map]
  constructor
  · rintro ⟨⟨j, current⟩, hmem, rfl⟩
    obtain ⟨hmem, haccepts⟩ := List.mem_filter.mp hmem
    exact ⟨current, (h.shown.2 j current).mp hmem, haccepts⟩
  · rintro ⟨current, hcurrent, haccepts⟩
    exact ⟨(id, current), List.mem_filter.mpr ⟨(h.shown.2 id current).mpr hcurrent, haccepts⟩, rfl⟩

end Index

/-! ## The index next to a plain map -/

section Mirror

variable {opts : Options F} {keep : Nat} {doc : UInt64 → Item} {accepts : Item → Item → Bool}

/-- The store keeps its entries and can be opened in memory, and documents of
different seeds do not match. -/
structure Conforming (st : Store UInt32 Item Seg) (entries : Seg → List (UInt32 × Item))
    (opts : Options F) (doc : UInt64 → Item) (accepts : Item → Item → Bool) : Prop where
  keeps : st.Keeps entries
  sync : opts.sync = .flush
  apart : ∀ a b, accepts (doc a) (doc b) = true ↔ a = b

/-- The index holds for each id the document that the plain map has. -/
def Mirrors (entries : Seg → List (UInt32 × Item)) (doc : UInt64 → Item)
    (docs : UInt32 → Option UInt64) (s : SegmentedStore UInt32 Item Seg F) : Prop :=
  ∃ ops, Fit entries ops s ∧ ∀ id, history nothing ops id = (docs id).map doc

variable {docs : UInt32 → Option UInt64}

theorem mem_matching_iff (hc : Conforming st entries opts doc accepts)
    {s : SegmentedStore UInt32 Item Seg F} (h : Mirrors entries doc docs s) (id : UInt32)
    (k : UInt64) :
    id ∈ (SegmentedStore.asIndex st entries opts keep doc accepts).matching s (doc k) ↔
      docs id = some k := by
  obtain ⟨ops, hfit, hdocs⟩ := h
  rw [hfit.mem_matching, hdocs]
  constructor
  · rintro ⟨item, hitem, haccepts⟩
    obtain ⟨j, hj, rfl⟩ := Option.map_eq_some_iff.mp hitem
    rw [hj, (hc.apart k j).mp haccepts]
  · intro hk
    exact ⟨doc k, by rw [hk, Option.map_some], (hc.apart k k).mpr rfl⟩

theorem reopen_achieves (hc : Conforming st entries opts doc accepts) :
    Achieves (Mirrors entries doc docs)
      (SegmentedStore.asIndex st entries opts keep doc accepts).reopen
      (fun _ => Mirrors entries doc docs) := by
  rintro s ⟨ops, hfit, hdocs⟩
  obtain ⟨t, d, hopen, ht⟩ := Fit.openAgain hc.keeps hc.sync keep hfit.sound
  rw [Proc.dir] at hopen
  refine ⟨(), t, ?_, ops, ht, hdocs⟩
  simp only [ConformanceStore.reopen, SegmentedStore.asIndex, hopen]

/-- A call that issues no operation. -/
theorem upkeep_achieves (hc : Conforming st entries opts doc accepts) (what : String)
    (cmd : Cmd UInt32 Item F) (hcmd : cmd.ops = []) :
    Achieves (Mirrors entries doc docs) (CheckM.expect what (cmd.exec st))
      (fun _ => Mirrors entries doc docs) := by
  refine CheckM.expect_achieves ?_
  rintro s ⟨ops, hfit, hdocs⟩
  obtain ⟨a, t, hrun, ht⟩ := Fit.exec hc.keeps cmd s hfit
  rw [hcmd, List.append_nil] at ht
  exact ⟨a, t, hrun, ops, ht, hdocs⟩

theorem add_achieves (hc : Conforming st entries opts doc accepts) (what : String) (id : UInt32)
    (k : UInt64) :
    Achieves (Mirrors entries doc docs)
      (CheckM.expect what (Cmd.exec (F := F) st (.add id (doc k))))
      (fun _ => Mirrors entries doc (Function.update docs id (some k))) := by
  refine CheckM.expect_achieves ?_
  rintro s ⟨ops, hfit, hdocs⟩
  obtain ⟨a, t, hrun, ht⟩ := Fit.exec hc.keeps (.add id (doc k)) s hfit
  refine ⟨a, t, hrun, _, ht, fun j => ?_⟩
  rw [Cmd.ops, history_concat, Op.write, Write.run_apply, hdocs, Function.update_apply]
  show (if j = id then some (doc k) else _) = _
  split
  · rfl
  · rfl

theorem delete_achieves (hc : Conforming st entries opts doc accepts) (what : String)
    (id : UInt32) :
    Achieves (Mirrors entries doc docs) (CheckM.expect what (Cmd.exec (F := F) st (.delete id)))
      (fun _ => Mirrors entries doc (Function.update docs id none)) := by
  refine CheckM.expect_achieves ?_
  rintro s ⟨ops, hfit, hdocs⟩
  obtain ⟨a, t, hrun, ht⟩ := Fit.exec hc.keeps (.delete id) s hfit
  refine ⟨a, t, hrun, _, ht, fun j => ?_⟩
  rw [Cmd.ops, history_concat, Op.write, Write.run_apply, hdocs, Function.update_apply]
  show (if j = id then none else _) = _
  split
  · rfl
  · rfl

theorem assertCurrent_achieves (hc : Conforming st entries opts doc accepts) {id : UInt32}
    {k : UInt64} («when» : String) (h : docs id = some k) :
    Achieves (Mirrors (F := F) entries doc docs)
      ((SegmentedStore.asIndex st entries opts keep doc accepts).assertCurrent id k «when»)
      (fun _ => Mirrors entries doc docs) := by
  refine .get_bind fun s hs => (CheckM.assert_achieves fun t ht => ?_).mono fun _ t ht => ?_
  · obtain rfl := ht
    exact List.contains_iff_mem.mpr ((mem_matching_iff hc hs id k).mpr h)
  · exact ht ▸ hs

theorem assertRetired_achieves (hc : Conforming st entries opts doc accepts) {id : UInt32}
    {k : UInt64} («when» : String) (h : docs id ≠ some k) :
    Achieves (Mirrors (F := F) entries doc docs)
      ((SegmentedStore.asIndex st entries opts keep doc accepts).assertRetired id k «when»)
      (fun _ => Mirrors entries doc docs) := by
  refine .get_bind fun s hs => (CheckM.assert_achieves fun t ht => ?_).mono fun _ t ht => ?_
  · obtain rfl := ht
    rw [Bool.not_eq_true']
    exact Bool.eq_false_iff.mpr fun hmem =>
      h ((mem_matching_iff hc hs id k).mp (List.contains_iff_mem.mp hmem))
  · exact ht ▸ hs

/-! ## The fixed checks -/

/-- The check of a new index ends well when it does so from an empty one. -/
theorem onNew_ok (hc : Conforming st entries opts doc accepts)
    {body : CheckM (SegmentedStore UInt32 Item Seg F) Unit} {Q : Unit → _ → Prop}
    (hbody : Achieves (Mirrors entries doc fun _ => none) body Q) :
    (SegmentedStore.asIndex st entries opts keep doc accepts).onNew (.empty false) body =
      .ok () := by
  have hempty : (Proc.closed (.empty false) : Proc UInt32 Item Seg F).SoundFor entries false
      (flagged true []) := soundFor_empty entries false
  obtain ⟨s, d, hopen, hfit⟩ := Fit.openAgain hc.keeps hc.sync keep hempty
  rw [Proc.dir] at hopen
  obtain ⟨a, t, hrun, -⟩ := hbody s ⟨[], hfit, fun _ => rfl⟩
  simp only [ConformanceStore.onNew, SegmentedStore.asIndex, hopen, hrun]

theorem reAdd_ok (hc : Conforming st entries opts doc accepts) :
    (SegmentedStore.asIndex st entries opts keep doc accepts).reAddReplacesOldDocument
      (.empty false) = .ok () := by
  refine onNew_ok hc (Q := fun _ _ => True) ?_
  refine (add_achieves hc _ 7 1).bind fun _ => ?_
  refine (upkeep_achieves hc _ .checkpoint rfl).bind fun _ => ?_
  refine (add_achieves hc _ 7 2).bind fun _ => ?_
  refine (assertCurrent_achieves hc _ (by simp)).bind fun _ => ?_
  refine (assertRetired_achieves hc _ (by simp)).bind fun _ => ?_
  refine (upkeep_achieves hc _ .compact rfl).bind fun _ => ?_
  refine (assertRetired_achieves hc _ (by simp)).bind fun _ => ?_
  refine (reopen_achieves hc).bind fun _ => ?_
  refine (assertCurrent_achieves hc _ (by simp)).bind fun _ => ?_
  exact (assertRetired_achieves hc _ (by simp)).mono fun _ _ _ => trivial

theorem delete_ok (hc : Conforming st entries opts doc accepts) :
    (SegmentedStore.asIndex st entries opts keep doc accepts).deleteHidesDocument
      (.empty false) = .ok () := by
  refine onNew_ok hc (Q := fun _ _ => True) ?_
  refine (add_achieves hc _ 3 10).bind fun _ => ?_
  refine (add_achieves hc _ 4 11).bind fun _ => ?_
  refine (upkeep_achieves hc _ .checkpoint rfl).bind fun _ => ?_
  refine (delete_achieves hc _ 3).bind fun _ => ?_
  refine (assertRetired_achieves hc _ (by simp)).bind fun _ => ?_
  refine (assertCurrent_achieves hc _ (by simp)).bind fun _ => ?_
  refine (reopen_achieves hc).bind fun _ => ?_
  exact (assertRetired_achieves hc _ (by simp)).mono fun _ _ _ => trivial

/-- Adds in a loop, each id with a document of its own. -/
theorem addAll_achieves (hc : Conforming st entries opts doc accepts) (what : String)
    (k : UInt32 → UInt64) (ids : List UInt32) {docs : UInt32 → Option UInt64} :
    Achieves (Mirrors entries doc docs)
      (CheckM.forEach ids fun id =>
        CheckM.expect what (Cmd.exec (F := F) st (.add id (doc (k id)))))
      (fun _ => Mirrors entries doc fun id => if id ∈ ids then some (k id) else docs id) := by
  induction ids generalizing docs with
  | nil => exact .pure fun s hs => by simpa using hs
  | cons id ids ih =>
      refine (add_achieves hc what id (k id)).bind fun _ => ih.mono fun _ s hs => ?_
      have hdocs : (fun j => if j ∈ ids then some (k j) else
          Function.update docs id (some (k id)) j) =
            fun j => if j ∈ id :: ids then some (k j) else docs j := by
        funext j
        by_cases hj : j = id
        · subst hj
          simp
        · simp [hj]
      rwa [hdocs] at hs

theorem reopen_ok (hc : Conforming st entries opts doc accepts) :
    (SegmentedStore.asIndex st entries opts keep doc accepts).reopenWithoutCheckpointKeepsWrites
      (.empty false) = .ok () := by
  refine onNew_ok hc (Q := fun _ _ => True) ?_
  refine (addAll_achieves hc _ (fun id => 100 + id.toUInt64) [0, 1, 2, 3, 4]).bind fun _ => ?_
  refine (reopen_achieves hc).bind fun _ => ?_
  refine (CheckM.forEach_achieves (J := fun _ => Mirrors entries doc _) fun id hid n => ?_).mono
    fun _ _ _ => trivial
  exact assertCurrent_achieves hc _ (if_pos hid)

/-! ## The random check -/

/-- The index agrees with the plain map; every document that was replaced or
deleted is older than the next one, and is no longer the document of its id. -/
structure Trial.Good (entries : Seg → List (UInt32 × Item)) (doc : UInt64 → Item)
    (tr : Trial (SegmentedStore UInt32 Item Seg F)) : Prop where
  mirrors : Mirrors entries doc tr.live.lookup tr.store
  current : ∀ id k, tr.live.lookup id = some k → k ≤ tr.nextDoc
  retired : ∀ p ∈ tr.retired, p.2 ≤ tr.nextDoc ∧ tr.live.lookup p.1 ≠ some p.2

namespace Trial.Good

variable {tr : Trial (SegmentedStore UInt32 Item Seg F)}

omit [F64 F] in
/-- What is retired by giving the id another document, or none, that is new. -/
theorem retire (h : Good entries doc tr) {id : UInt32} {live : FinMap UInt32 UInt64}
    (hother : ∀ j, j ≠ id → live.lookup j = tr.live.lookup j)
    (hnew : ∀ k, live.lookup id = some k → tr.nextDoc < k) {next : UInt64}
    (hnext : tr.nextDoc ≤ next) {p : UInt32 × UInt64} (hp : p ∈ tr.retire id) :
    p.2 ≤ next ∧ live.lookup p.1 ≠ some p.2 := by
  have hold : p.2 ≤ tr.nextDoc ∧ (p.1 = id ∨ tr.live.lookup p.1 ≠ some p.2) := by
    rw [Trial.retire] at hp
    split at hp
    · rename_i old hlookup
      rcases List.mem_append.mp hp with hp | hp
      · exact ⟨(h.retired p hp).1, .inr (h.retired p hp).2⟩
      · obtain rfl := List.mem_singleton.mp hp
        exact ⟨h.current id old hlookup, .inl rfl⟩
    · exact ⟨(h.retired p hp).1, .inr (h.retired p hp).2⟩
  refine ⟨UInt64.le_trans hold.1 hnext, fun hlookup => ?_⟩
  by_cases hid : p.1 = id
  · exact absurd hold.1 (UInt64.not_le.mpr (hnew p.2 (hid ▸ hlookup)))
  · rw [hother p.1 hid] at hlookup
    exact (hold.2.resolve_left hid) hlookup

/-- The checks after a step. -/
theorem agree_achieves (hc : Conforming st entries opts doc accepts) (seed : UInt64) (n : Nat)
    {P : Trial (SegmentedStore UInt32 Item Seg F) → Prop} (hP : ∀ tr, P tr → Good entries doc tr) :
    Achieves P ((SegmentedStore.asIndex st entries opts keep doc accepts).agree seed n)
      (fun _ => P) := by
  refine .get_bind fun tr htr => ?_
  have hgood := hP tr htr
  refine Achieves.bind (R := fun _ s => s = tr) ?_ fun _ => ?_
  · refine CheckM.forEach_achieves (J := fun _ s => s = tr) fun p hp _ => ?_
    refine CheckM.assert_achieves fun _ _ => List.contains_iff_mem.mpr ?_
    refine (mem_matching_iff hc hgood.mirrors p.1 p.2).mpr ?_
    exact (FinMap.mem_pairs _ _ _).mp ((List.mem_insertionSort _).mp hp)
  · refine (CheckM.forEach_achieves (J := fun _ s => s = tr) fun p hp _ => ?_).mono
      fun _ s hs => hs ▸ htr
    refine CheckM.assert_achieves fun _ _ => ?_
    rw [Bool.not_eq_true']
    exact Bool.eq_false_iff.mpr fun hmem => (hgood.retired p hp).2
      ((mem_matching_iff hc hgood.mirrors p.1 p.2).mp (List.contains_iff_mem.mp hmem))

omit [F64 F] in
/-- A call on the index inside the trial. -/
theorem onStore_achieves {p : CheckM (SegmentedStore UInt32 Item Seg F) α}
    {tr : Trial (SegmentedStore UInt32 Item Seg F)} {docs : UInt32 → Option UInt64}
    (hp : Achieves (Mirrors entries doc tr.live.lookup) p fun _ => Mirrors entries doc docs)
    (htr : Good entries doc tr) :
    Achieves (· = tr) (Trial.onStore p)
      (fun _ tr' => ∃ s, tr' = { tr with store := s } ∧ Mirrors entries doc docs s) := by
  refine .zoom fun tr' htr' => ?_
  obtain rfl := htr'
  have hstart : ∀ s, s = tr'.store → Mirrors entries doc tr'.live.lookup s := by
    rintro s rfl
    exact htr.mirrors
  exact (hp.strengthen hstart).mono fun _ s hs => ⟨s, rfl, hs⟩

omit [F64 F] in
/-- A call that keeps the documents keeps the trial. -/
theorem upkeep {p : CheckM (SegmentedStore UInt32 Item Seg F) Unit} {text : String}
    (hp : ∀ docs, Achieves (Mirrors entries doc docs) p fun _ => Mirrors entries doc docs)
    {r : Nat} :
    Achieves (fun tr => Good entries doc tr ∧ tr.nextDoc.toNat + (r + 1) < UInt64.size)
      (do
        Trial.onStore p
        pure text)
      (fun _ tr => Good entries doc tr ∧ tr.nextDoc.toNat + r < UInt64.size) := by
  rintro tr ⟨hgood, hroom⟩
  refine ((onStore_achieves (hp _) hgood).bind fun _ => .pure ?_) tr rfl
  rintro _ ⟨s, rfl, hs⟩
  exact ⟨⟨hs, hgood.current, hgood.retired⟩, Nat.lt_of_succ_lt hroom⟩

omit [F64 F] in
/-- Documents that are counted get newer. -/
theorem count (h : Good entries doc tr) (hroom : tr.nextDoc.toNat + 1 < UInt64.size) :
    Achieves (· = tr) Trial.countDoc (fun k tr' => tr.nextDoc < k ∧ k.toNat =
      tr.nextDoc.toNat + 1 ∧ tr' = { tr with nextDoc := k } ∧ Good entries doc tr') := by
  intro tr' htr'
  subst tr'
  have hnext : (tr.nextDoc + 1).toNat = tr.nextDoc.toNat + 1 := by
    rw [UInt64.toNat_add, Nat.mod_eq_of_lt (by simpa using hroom)]
    rfl
  have hlt : tr.nextDoc < tr.nextDoc + 1 := by
    rw [UInt64.lt_iff_toNat_lt, hnext]
    exact Nat.lt_succ_self _
  have hle : ∀ {k}, k ≤ tr.nextDoc → k ≤ tr.nextDoc + 1 := fun hk =>
    UInt64.le_trans hk (UInt64.le_of_lt hlt)
  refine ⟨tr.nextDoc + 1, { tr with nextDoc := tr.nextDoc + 1 }, ?_, hlt, hnext, rfl,
    h.mirrors, fun id k hk => hle (h.current id k hk), fun p hp => ?_⟩
  · show (if tr.nextDoc.toNat + 1 < UInt64.size then _ else _ : CheckM _ UInt64) tr = _
    rw [if_pos hroom]
    rfl
  · exact ⟨hle (h.retired p hp).1, (h.retired p hp).2⟩

theorem add_keeps (hc : Conforming st entries opts doc accepts) (h : Good entries doc tr)
    (hroom : tr.nextDoc.toNat + 1 < UInt64.size) (id : UInt32) :
    Achieves (· = tr)
      (do
        let k ← Trial.countDoc
        Trial.onStore (CheckM.expect "add" (Cmd.exec (F := F) st (.add id (doc k))))
        Eff.update fun (tr : Trial (SegmentedStore UInt32 Item Seg F)) =>
          { tr with live := tr.live.insert id k, retired := tr.retire id }
        pure ("add(" ++ toString id ++ ", doc " ++ toString k ++ ")"))
      (fun _ tr' => Good entries doc tr' ∧ tr'.nextDoc.toNat = tr.nextDoc.toNat + 1) := by
  refine (h.count hroom).bind fun k => ?_
  rintro _ ⟨hlt, hk, rfl, hgood⟩
  refine ((onStore_achieves (add_achieves hc _ id k) hgood).bind fun _ =>
    Achieves.bind (R := fun _ tr' => Good entries doc tr' ∧ tr'.nextDoc = k) ?_ fun _ =>
      .pure fun tr' htr' => ?_) _ rfl
  · refine .update ?_
    rintro _ ⟨s, rfl, hs⟩
    have hlookup : ∀ j, (tr.live.insert id k).lookup j =
        Function.update (fun j => tr.live.lookup j) id (some k) j := by
      intro j
      rw [FinMap.lookup_insert_eq, Function.update_apply]
    refine ⟨⟨?_, fun j n hj => ?_, fun p hp => ?_⟩, rfl⟩
    · show Mirrors entries doc (tr.live.insert id k).lookup s
      rwa [show (tr.live.insert id k).lookup = _ from funext hlookup]
    · rw [FinMap.lookup_insert_eq] at hj
      split at hj
      · cases hj
        exact UInt64.le_refl _
      · exact hgood.current j n hj
    · refine h.retire (fun j hj => ?_) (fun n hn => ?_) (UInt64.le_of_lt hlt) hp
      · rw [FinMap.lookup_insert_eq, if_neg hj]
      · rw [FinMap.lookup_insert_eq, if_pos rfl] at hn
        cases hn
        exact hlt
  · rw [htr'.2]
    exact ⟨htr'.1, hk⟩

theorem delete_keeps (hc : Conforming st entries opts doc accepts) (h : Good entries doc tr)
    (id : UInt32) :
    Achieves (· = tr)
      (do
        Trial.onStore (CheckM.expect "delete" (Cmd.exec (F := F) st (.delete id)))
        Eff.update fun (tr : Trial (SegmentedStore UInt32 Item Seg F)) =>
          { tr with live := tr.live.erase id, retired := tr.retire id }
        pure ("delete(" ++ toString id ++ ")"))
      (fun _ tr' => Good entries doc tr' ∧ tr'.nextDoc = tr.nextDoc) := by
  refine (onStore_achieves (delete_achieves hc _ id) h).bind fun _ =>
    Achieves.bind (R := fun _ tr' => Good entries doc tr' ∧ tr'.nextDoc = tr.nextDoc) ?_ fun _ =>
      .pure fun tr' htr' => htr'
  refine .update ?_
  rintro _ ⟨s, rfl, hs⟩
  have hlookup : ∀ j, (tr.live.erase id).lookup j =
      Function.update (fun j => tr.live.lookup j) id none j := by
    intro j
    rw [FinMap.lookup_erase_eq, Function.update_apply]
  refine ⟨⟨?_, fun j n hj => ?_, fun p hp => ?_⟩, rfl⟩
  · show Mirrors entries doc (tr.live.erase id).lookup s
    rwa [show (tr.live.erase id).lookup = _ from funext hlookup]
  · rw [FinMap.lookup_erase_eq] at hj
    split at hj
    · cases hj
    · exact h.current j n hj
  · refine h.retire (fun j hj => ?_) (fun n hn => ?_) (UInt64.le_refl _) hp
    · rw [FinMap.lookup_erase_eq, if_neg hj]
    · rw [FinMap.lookup_erase_eq, if_pos rfl] at hn
      cases hn

/-- The trial is good, and there is room for as many documents as steps to come. -/
def Ready (entries : Seg → List (UInt32 × Item)) (doc : UInt64 → Item) (r : Nat)
    (tr : Trial (SegmentedStore UInt32 Item Seg F)) : Prop :=
  Good entries doc tr ∧ tr.nextDoc.toNat + r < UInt64.size

theorem turn_achieves (hc : Conforming st entries opts doc accepts) (id : UInt32)
    (roll : UInt64) (r : Nat) :
    Achieves (Ready entries doc (r + 1))
      ((SegmentedStore.asIndex st entries opts keep doc accepts).turn id roll)
      (fun _ => Ready entries doc r) := by
  have hupkeep : ∀ {p : CheckM (SegmentedStore UInt32 Item Seg F) Unit} (text : String),
      (∀ docs, Achieves (Mirrors entries doc docs) p fun _ => Mirrors entries doc docs) →
      Achieves (Ready entries doc (r + 1))
        (do
          Trial.onStore p
          pure text)
        (fun _ => Ready entries doc r) := fun _ hp => upkeep hp
  rw [ConformanceStore.turn]
  split
  · rintro tr ⟨hgood, hroom⟩
    refine ((add_keeps hc hgood (by omega) id).mono fun _ tr' htr' => ⟨htr'.1, ?_⟩) tr rfl
    omega
  · split
    · rintro tr ⟨hgood, hroom⟩
      refine ((delete_keeps hc hgood id).mono fun _ tr' htr' => ⟨htr'.1, ?_⟩) tr rfl
      rw [htr'.2]
      omega
    · split
      · exact hupkeep _ fun _ => upkeep_achieves hc _ .checkpoint rfl
      · split
        · exact hupkeep _ fun _ => upkeep_achieves hc _ .compact rfl
        · split
          · exact hupkeep _ fun _ => upkeep_achieves hc _ .compactTiers rfl
          · split
            · exact hupkeep _ fun _ => upkeep_achieves hc _ (.reclaimTombstones _) rfl
            · exact hupkeep _ fun _ => reopen_achieves hc

omit [F64 F] in
theorem draw_achieves (bound : UInt64) (r : Nat) :
    Achieves (Ready (F := F) entries doc r) (Trial.draw bound) (fun _ => Ready entries doc r) := by
  refine .get_bind fun tr htr => Achieves.bind (R := fun _ => Ready entries doc r) ?_ fun _ =>
    .pure fun _ h => h
  refine .update fun tr' htr' => ?_
  subst tr'
  exact ⟨⟨htr.1.mirrors, htr.1.current, htr.1.retired⟩, htr.2⟩

/-- A step draws, acts and checks. -/
theorem step_achieves (hc : Conforming st entries opts doc accepts) (seed : UInt64) (n r : Nat) :
    Achieves (Ready entries doc (r + 1))
      ((SegmentedStore.asIndex st entries opts keep doc accepts).step seed n)
      (fun _ => Ready entries doc r) := by
  refine (draw_achieves 12 _).bind fun id => (draw_achieves 16 _).bind fun roll => ?_
  refine (turn_achieves hc id.toUInt32 roll r).bind fun op => ?_
  refine Achieves.bind (R := fun _ => Ready entries doc r) (.update fun tr htr => ?_) fun _ => ?_
  · exact ⟨⟨htr.1.mirrors, htr.1.current, htr.1.retired⟩, htr.2⟩
  · exact agree_achieves hc seed n fun _ h => h.1

end Trial.Good

theorem random_ok (hc : Conforming st entries opts doc accepts) (seed : UInt64) (steps : Nat)
    (hroom : seed.toNat * 1000000 + steps < UInt64.size) :
    (SegmentedStore.asIndex st entries opts keep doc accepts).randomOperationsMatchModel
      (.empty false) seed steps = .ok () := by
  have hseed : seed.toNat * 1000000 < UInt64.size :=
    Nat.lt_of_le_of_lt (Nat.le_add_right _ _) hroom
  have hfirst : (seed * 1000000).toNat = seed.toNat * 1000000 := by
    rw [UInt64.toNat_mul]
    exact Nat.mod_eq_of_lt hseed
  rw [ConformanceStore.randomOperationsMatchModel, if_pos hseed]
  refine onNew_ok hc (Q := fun _ _ => True) (.get_bind fun s hs => ?_)
  have hloop : Achieves (Trial.Good.Ready entries doc (List.range steps).length)
      (CheckM.forEach (List.range steps)
        ((SegmentedStore.asIndex st entries opts keep doc accepts).step seed)) _ :=
    CheckM.forEach_achieves (J := Trial.Good.Ready entries doc) fun n _ r =>
      Trial.Good.step_achieves hc seed n r
  have hstart : Trial.Good.Ready entries doc (List.range steps).length (Trial.start s seed) := by
    refine ⟨⟨hs, ?_, ?_⟩, ?_⟩
    · rintro id k ⟨⟩
    · rintro p ⟨⟩
    · rw [List.length_range]
      exact lt_of_eq_of_lt (congrArg (· + steps) hfirst) hroom
  refine .zoom fun _ _ => (hloop.strengthen ?_).mono fun _ _ _ => trivial
  rintro tr rfl
  exact hstart

/-- An index over any store that keeps its entries passes the suite: the fixed
checks, and the random check for every seed and every number of steps that do not
overflow the document counter.  The index may seal, merge and compact under any
options. -/
theorem conformance_suite_passes (opts : Options F) (keep : Nat) (doc : UInt64 → Item)
    (accepts : Item → Item → Bool) (hc : Conforming st entries opts doc accepts) :
    let index := SegmentedStore.asIndex st entries opts keep doc accepts
    index.reAddReplacesOldDocument (.empty false) = .ok () ∧
    index.deleteHidesDocument (.empty false) = .ok () ∧
    index.reopenWithoutCheckpointKeepsWrites (.empty false) = .ok () ∧
    ∀ (seed : UInt64) (steps : Nat), seed.toNat * 1000000 + steps < UInt64.size →
      index.randomOperationsMatchModel (.empty false) seed steps = .ok () :=
  ⟨reAdd_ok hc, delete_ok hc, reopen_ok hc, random_ok hc⟩

/-- The last random check of the suite, on an index over maps that seals every
second document. -/
theorem conformance_suite_passes_maps :
    (SegmentedStore.asIndex (mapStore UInt32 UInt64) FinMap.pairs (.new 2 : Options Rat) 0 id
      (· == ·)).randomOperationsMatchModel (.empty false) 8 160 = .ok () :=
  (conformance_suite_passes (.new 2 : Options Rat) 0 id (· == ·)
    ⟨mapStore_keeps, rfl, fun _ _ => beq_iff_eq⟩).2.2.2 8 160 (by decide)

end Mirror

end Segstore
