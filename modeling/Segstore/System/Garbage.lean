import Segstore.System.Hosted
import Segstore.System.Identity
import Segstore.Writer.Housekeeping

/-!
# Garbage collection is exact

Over runs in which listing and deleting do not fail, in a directory that others
use as well: what is in the directory after an open and after a checkpoint, and
what these never delete.
-/

namespace Segstore

variable {Id Item Seg F : Type}

/-- Listing and deleting do not fail; stops are allowed. -/
def Obliging (fates : List (Call → Fate)) : Prop :=
  ∀ fate ∈ fates, ∀ e landed, fate .list ≠ .failed e landed ∧ fate .delete ≠ .failed e landed

/-- An act of a run that is looked at here. -/
def Act.Allowed : Act Id Item Seg F → Prop
  | .own (.call _ fates) => Obliging fates
  | .own (.reopen _ _ fates) => Obliging fates
  | .write name _ => Foreign name
  | .remove name => Foreign name

/-- The directory holds exactly what the manifest names. -/
structure Collected (m : LoadedManifest Id) (files : Files Id Item Seg) : Prop where
  present : ∀ k ∈ m.segmentIds, (files.lookup (segPath k)).isSome
  segments : ∀ name, (files.lookup name).isSome → ∀ k, segId name = some k →
    name = segPath k ∧ k ∈ m.segmentIds
  wal : ∀ name, (files.lookup name).isSome → ∀ k, walEpoch name = some k →
    name = walPath m.epoch
  sidecars : ∀ name, (files.lookup name).isSome → ∀ k, idxSegId name = some k →
    k ∈ m.segmentIds

/-! ## Opening -/

section Open

variable [DecidableEq Id] (st : Store Id Item Seg)
variable {d : Directory Id Item Seg} {im : Image Id Seg}

omit [DecidableEq Id] in
theorem Shows.present {files : Files Id Item Seg} (h : Shows files im) :
    ∀ k ∈ im.segmentIds, (files.lookup (segPath k)).isSome := by
  intro k hk
  obtain ⟨seg, hseg⟩ : ∃ seg, segFile files k = some seg := by
    obtain ⟨i, hi, rfl⟩ := List.mem_iff_getElem.mp hk
    exact ⟨_, (List.forall₂_iff_get.mp h.segs).2 i hi (h.length_eq ▸ hi)⟩
  rw [segFile] at hseg
  split at hseg
  · rename_i hlookup
    rw [hlookup]
    rfl
  · cases hseg

omit [DecidableEq Id] in
/-- What is no garbage to `open`. -/
theorem not_openGarbage {epoch : Nat} {keep : List Nat} {name : String}
    (h : isOpenGarbage epoch keep name = false) :
    (∀ k, walEpoch name = some k → k = epoch) ∧ isSegTmp name = false ∧
      (∀ k, segId name = some k → k ∈ keep) ∧ ∀ k, idxSegId name = some k → k ∈ keep := by
  rw [isOpenGarbage] at h
  cases hw : walEpoch name with
  | some k =>
      have hfam := familyOf_of_walEpoch hw
      have hs : familyOf name ≠ some 's' := by simp [hfam]
      rw [isSegTmp_eq_false hs, segId_eq_none hs, idxSegId_eq_none (by simp [hfam])]
      simpa [hw] using h
  | none =>
      rw [hw] at h
      cases htmp : isSegTmp name with
      | true => simp [htmp] at h
      | false =>
          simp only [htmp, Bool.false_eq_true, if_false] at h
          cases hs : segId name with
          | some k =>
              have hi : familyOf name ≠ some 'i' := by simp [familyOf_of_segId hs]
              simpa [hs, idxSegId_eq_none hi] using h
          | none =>
              cases hi : idxSegId name with
              | some k => simpa [hs, hi] using h
              | none => simp

/-! The lock file is never deleted. -/

omit [DecidableEq Id] in
/-- If there was a lock file there still is. -/
def KeepsLock (d d' : Directory Id Item Seg) : Prop :=
  (d.files.lookup LOCK_PATH).isSome → (d'.files.lookup LOCK_PATH).isSome

instance : Std.Refl (KeepsLock : Directory Id Item Seg → _ → Prop) := ⟨fun _ => id⟩

instance : IsTrans (Directory Id Item Seg) KeepsLock := ⟨fun _ _ _ h h' hd => h' (h hd)⟩

omit [DecidableEq Id] in
theorem observe_keepsLock {α : Type} (call : Call)
    (f : Files Id Item Seg → Except PersistenceError α) :
    Respects KeepsLock (Directory.observe call f) :=
  fun d => (Directory.observe_same call f d).mono fun _ _ h hd => h.1 ▸ hd

omit [DecidableEq Id] in
theorem acquireStoreLock_keepsLock :
    Respects (KeepsLock : Directory Id Item Seg → _ → Prop) Directory.acquireStoreLock := by
  have hlock : ∀ files : Files Id Item Seg, (files.lookup LOCK_PATH).isSome →
      ((if (files.lookup LOCK_PATH).isSome then files
        else files.insert LOCK_PATH (.raw [])).lookup LOCK_PATH).isSome := by
    intro files h
    rwa [if_pos h]
  refine .read_bind fun backed => ?_
  split
  · intro d
    apply Directory.perform_leaves
    · exact fun r => hlock _
    · exact fun r hr hd => hd
    · exact fun r hr hd => hd
  · exact .pure ()

omit [DecidableEq Id] in
theorem readManifest_keepsLock :
    Respects (KeepsLock : Directory Id Item Seg → _ → Prop) Directory.readManifest := by
  have hread : ∀ {α : Type} {f : Nat × Payload Id Seg → DirM Id Item Seg α},
      (∀ v, Respects KeepsLock (f v)) →
        Respects KeepsLock (Directory.readCheckpoint MANIFEST_PATH >>= f) :=
    fun hf => .bind (observe_keepsLock _ _) hf
  refine .read_bind fun there => ?_
  split
  · refine .bind (.attempt_bind (hread fun v => ?_) fun x => ?_) fun _ => .pure _
    · split
      · split
        · exact .pure _
        · exact .fail _
      · exact .fail _
    · split
      · split
        · exact .fail _
        · exact .pure _
      · refine .bind (hread fun v => ?_) fun _ => .pure _
        split
        · exact .pure _
        · exact .fail _
      · exact .fail _
  · exact .pure _

omit [DecidableEq Id] in
theorem readSegments_keepsLock (ids : List Nat) :
    Respects (KeepsLock : Directory Id Item Seg → _ → Prop) (Directory.readSegments ids) := by
  induction ids with
  | nil => exact .pure []
  | cons id ids ih =>
      refine .bind (.bind (observe_keepsLock _ _) fun v => ?_) fun _ => .bind ih fun _ => .pure _
      split
      · exact .pure _
      · exact .fail _

theorem open_keepsLock (opts : Options F) :
    Respects KeepsLock (openWithOptions st opts : DirM Id Item Seg _) := by
  refine .bind (.read_bind fun backed => ?_) fun _ => .bind acquireStoreLock_keepsLock fun _ =>
    .bind readManifest_keepsLock fun loaded => .bind (readSegments_keepsLock _) fun segs =>
    .bind ?_ fun boot => .bind (.read_bind fun there => ?_) fun ops => .bind (fun d => ?_) fun _ =>
    .get_bind fun d => .pure _
  · split
    · exact .fail _
    refine .get_bind fun d => ?_
    split
    · exact .fail _
    · split
      · exact .fail _
      · exact .pure ()
  · cases (loaded.getD .absent).boot st segs with
    | ok boot => exact .pure boot
    | error e => exact .fail e
  · split
    · exact observe_keepsLock _ _
    · exact .pure _
  · refine (Directory.collectGarbage_deletes _ _ d).mono fun _ _ h hd => ?_
    rwa [h.1.trimmed.eq]
    rw [isOpenGarbage_eq_false (by simp) (by simp) (by simp)]
    simp

/-- Where listing and deleting do not fail, a writer finds no garbage. -/
theorem open_cleans (hd : d.Coherent im) (opts : Options F) :
    Ends (openWithOptions st opts) d (fun r d' => d.Obliging → ∀ s, r = .ok s → ∀ name,
      (d'.files.lookup name).isSome → isOpenGarbage im.epoch im.segmentIds name = false) := by
  refine (Directory.open_ends st opts hd.shows hd.noLegacyWal hd.noLegacyCkpt hd.walLog).mono ?_
  rintro r d' (⟨hr, -, -⟩ | ⟨boot, d₂, r', hboot, h, hgc, hr⟩) hobliging s hs
  · exact absurd hs (hr s)
  · intro name hsome
    have hdeletes := Directory.collectGarbage_deletes [] (isOpenGarbage im.epoch im.segmentIds) d₂
    obtain ⟨-, -, hgone⟩ := hdeletes.of_run hgc
    have hok : r' = .ok () := by
      rcases hr with ⟨hr', -⟩ | ⟨e, -, hr⟩ | ⟨-, hr⟩
      · exact hr'
      · cases hs.symm.trans hr
      · cases hs.symm.trans hr
    by_contra hbad
    rw [hgone (hobliging.suffix h.fates) hok name (.inr (by simpa using hbad))] at hsome
    cases hsome

/-- What `open` leaves, on a coherent directory. -/
theorem open_leaves (hd : d.Coherent im) (hnames : OwnNames d.files) (opts : Options F) :
    Ends (openWithOptions st opts) d (fun r d' => d.Careful d' ∧ OwnNames d'.files ∧
      (d.Obliging → ∀ s, r = .ok s → Shows d'.files im ∧ ∀ name,
        (d'.files.lookup name).isSome → isOpenGarbage im.epoch im.segmentIds name = false)) := by
  have hlocked : ∀ {d₂ : Directory Id Item Seg}, Directory.Locked d d₂ → KeepsLock d d₂ →
      d.Careful d₂ ∧ OwnNames d₂.files := by
    intro d₂ h hlock
    refine ⟨?_, hnames.agreeOff h.agree fun name hname => ?_⟩
    · rcases h.states with ⟨hpast, hfiles⟩ | hpast
      · exact .of_same hfiles hpast
      · refine ⟨[d₂.files], by rw [Directory.states, hpast]; rfl,
          List.isChain_cons_cons.mpr ⟨fun m _ name _ hsome => ?_, .singleton _⟩⟩
        by_cases hname : name = LOCK_PATH
        · rw [hname] at hsome ⊢
          exact hlock hsome
        · rwa [h.agree name (by simpa using hname)]
    · rw [List.mem_singleton.mp hname]
      exact wellNamed_of_family (by simp) (by simp)
  refine (((Directory.open_ends st opts hd.shows hd.noLegacyWal hd.noLegacyCkpt hd.walLog).and
    (open_keepsLock st opts d)).and (open_cleans st hd opts)).mono ?_
  rintro r d' ⟨⟨⟨hr, h, -⟩ | ⟨boot, d₂, r', hboot, h, hgc, hr⟩, hlock⟩, hclears⟩
  · exact ⟨(hlocked h hlock).1, (hlocked h hlock).2, fun _ s hs => absurd hs (hr s)⟩
  · have hdeletes := Directory.collectGarbage_deletes [] (isOpenGarbage im.epoch im.segmentIds) d₂
    have hclean := (Directory.collectGarbage_ends (Directory.dispensable_openGarbage im)
      (h.coherent hd)).of_run hgc
    obtain ⟨hsteps, -, -⟩ := hdeletes.of_run hgc
    obtain ⟨hcareful, hnames₂⟩ := hlocked h fun hsome => by
      have hsome := hlock hsome
      rcases hsteps.trimmed LOCK_PATH with heq | ⟨hnone, -⟩
      · rwa [← heq]
      · rw [hnone] at hsome
        cases hsome
    have hspared : d₂.Careful d' := by
      have hbad : ∀ name, name ∈ ([] : List String) ∨
          isOpenGarbage im.epoch im.segmentIds name = true →
            ¬ Protected im.toLoadedManifest name := by
        rintro name (hname | hname) hprot
        · exact List.not_mem_nil hname
        · rw [hprot.not_openGarbage] at hname
          cases hname
      refine hsteps.careful (fun hman => hbad _ hman .manifest) fun m hm => ?_
      cases (h.shows hd.shows).loaded.symm.trans hm
      exact hbad
    exact ⟨IsTrans.trans _ _ _ hcareful hspared, hnames₂.trimmed hsteps.trimmed,
      fun hobliging s hs => ⟨hclean.1.coherent.shows, hclears hobliging s hs⟩⟩

end Open

/-! ## Runs -/

section Runs

variable [DecidableEq Id] [F64 F] (st : Store Id Item Seg)

namespace Proc

/-- Between two acts the directory is in order; `lists` says whether listing and
deleting have never failed. -/
structure Kept (fileBacked : Bool) (lists : Prop) (p : Proc Id Item Seg F) : Prop where
  agrees : p.Agrees fileBacked (fun _ _ => True) (fun _ _ _ => True) []
  names : OwnNames p.dir.files
  onlyWal : lists → ∀ s, p = .running s → ∀ name, (s.dir.files.lookup name).isSome →
    ∀ k, walEpoch name = some k → name = s.wal

variable {st} {fileBacked : Bool} {lists : Prop} {p : Proc Id Item Seg F}

omit [DecidableEq Id] [F64 F] in
theorem Kept.housed {s : SegmentedStore Id Item Seg F}
    (h : (Proc.running s).Kept fileBacked lists) {fates : List (Call → Fate)}
    (hfates : lists → Obliging fates) : (armed s fates).Housed lists (fun _ => False) := by
  obtain ⟨-, im, hframed, -, -, -⟩ := h.agrees
  exact ⟨hframed.wal, h.names, hfates, fun hlists name hsome k hk =>
    .inr (h.onlyWal hlists s rfl name hsome k hk)⟩

omit [DecidableEq Id] [F64 F] in
theorem ownNames_settle {d : Directory Id Item Seg} (h : OwnNames d.files) (keep : Nat)
    (fates : List (Call → Fate)) : OwnNames (d.settle keep fates).files := by
  intro name hsome
  rw [Directory.lookup_settle, Option.isSome_map] at hsome
  exact h name hsome

omit [DecidableEq Id] [F64 F] in
/-- Others may do what they like with their files. -/
theorem Kept.meddle (h : p.Kept fileBacked lists)
    {f : Files Id Item Seg → Files Id Item Seg} (hsame : SameOwn p.dir.files (f p.dir.files)) :
    (p.meddle f).Kept fileBacked lists where
  agrees := by
    cases p with
    | closed d =>
        obtain ⟨hback, im, hcoh, -⟩ := h.agrees
        exact ⟨hback, im, hcoh.harmless (hsame.harmless im), trivial⟩
    | running s =>
        obtain ⟨hback, im, hframed, hcur, hb, -⟩ := h.agrees
        exact ⟨hback, im, hframed.foreign hsame, hcur, hb, trivial⟩
  names := by
    intro n hsome
    rw [meddle_dir] at hsome
    by_cases hn : Foreign n
    · exact wellNamed_of_none hn.segId_eq_none hn.walEpoch_eq_none
    · exact h.names n (hsame n hn ▸ hsome)
  onlyWal := by
    cases p with
    | closed d => rintro - s ⟨⟩
    | running s =>
        rintro hlists _ ⟨⟩ n hsome k hk
        by_cases hn : Foreign n
        · rw [hn.walEpoch_eq_none] at hk
          cases hk
        · exact h.onlyWal hlists s rfl n (hsame n hn ▸ hsome) k hk

/-- What a process finds in the directory it has opened. -/
theorem Kept.reopened (h : p.Kept fileBacked lists) {opts : Options F} {keep : Nat}
    {fates : List (Call → Fate)} (hfates : Obliging fates) {s : SegmentedStore Id Item Seg F}
    (hs : (step st p (.reopen opts keep fates)).1 = .running s) :
    ∃ m, loadedOf s.dir.files = some m ∧ Collected m s.dir.files ∧
      (∀ name, (s.dir.files.lookup name).isSome → isSegTmp name = false) ∧
        s.wal = walPath m.epoch := by
  obtain ⟨-, im, hcoh, -⟩ := (resilient_frame st).drop h.agrees
  obtain ⟨-, hnames, hok⟩ := open_leaves st (hcoh.settle keep fates)
    (ownNames_settle h.names keep fates) opts
  obtain ⟨-, -, -, -, hopened⟩ := reopen_ends st (hcoh.settle keep fates) opts
  rw [step_reopen] at hs
  generalize openWithOptions st opts (p.dir.settle keep fates) = q at *
  obtain ⟨r, d⟩ := q
  cases r with
  | err e => cases hs
  | crash => cases hs
  | ok t =>
      obtain rfl : t = s := by
        cases hs
        rfl
      obtain ⟨hshows, hgood⟩ := hok hfates _ rfl
      obtain ⟨boot, -, ht⟩ := hopened _ rfl
      have hdir : t.dir = d := by
        rw [ht]
        rfl
      have hwal : t.wal = walPath im.epoch := by
        rw [ht]
        rfl
      rw [hdir]
      refine ⟨im.toLoadedManifest, hshows.loaded, ⟨hshows.present, ?_, ?_, ?_⟩, ?_, hwal⟩
      · exact fun name hsome k hk => ⟨(hnames name hsome).segment k hk,
          (not_openGarbage (hgood name hsome)).2.2.1 k hk⟩
      · intro name hsome k hk
        rw [(hnames name hsome).wal k hk, (not_openGarbage (hgood name hsome)).1 k hk]
      · exact fun name hsome => (not_openGarbage (hgood name hsome)).2.2.2
      · exact fun name hsome => (not_openGarbage (hgood name hsome)).2.1

/-- One event of the store. -/
theorem Kept.step (h : p.Kept fileBacked lists) {e : Event Id Item F}
    (he : lists → (Act.own e : Act Id Item Seg F).Allowed) :
    (step st p e).1.Kept fileBacked lists := by
  have hagrees : (Proc.step st p e).1.Agrees fileBacked (fun _ _ => True)
      (fun _ _ _ => True) [] := by
    have hstep := (resilient_frame st).step h.agrees e
    generalize (Proc.step st p e).1 = q at hstep
    cases q <;> exact hstep
  cases e with
  | call cmd fates =>
      cases p with
      | closed d => exact h
      | running s =>
          obtain ⟨hcrash, hreturn, -⟩ :=
            (SegmentedStore.partwise_housed st).exec cmd _ (h.housed he)
          simp only [Proc.step] at hagrees ⊢
          generalize (cmd.exec st (armed s fates)).1 = r at *
          generalize (cmd.exec st (armed s fates)).2 = t at *
          have hreturned : (running t).Agrees fileBacked (fun _ _ => True) (fun _ _ _ => True) [] →
              r ≠ .crash → (running t).Kept fileBacked lists := by
            intro hagrees hr
            refine ⟨hagrees, (hreturn hr).names, ?_⟩
            rintro hlists s ⟨⟩ name hsome k hk
            exact ((hreturn hr).onlyWal hlists name hsome k hk).resolve_left id
          cases r with
          | crash => exact ⟨hagrees, hcrash rfl, fun _ s hs => by cases hs⟩
          | ok u => exact hreturned hagrees (by simp)
          | err e => exact hreturned hagrees (by simp)
  | reopen opts keep fates =>
      obtain ⟨-, im, hcoh, -⟩ := (resilient_frame st).drop h.agrees
      obtain ⟨-, hnames, -⟩ := open_leaves st (hcoh.settle keep fates)
        (ownNames_settle h.names keep fates) opts
      obtain ⟨-, -, -, -, hopened⟩ := reopen_ends st (hcoh.settle keep fates) opts
      refine ⟨hagrees, ?_, fun hlists s hs name hsome k hk => ?_⟩
      · rw [step_reopen]
        generalize openWithOptions st opts (p.dir.settle keep fates) = q at *
        obtain ⟨r, d⟩ := q
        cases r with
        | ok t =>
            obtain ⟨boot, -, hs⟩ := hopened _ rfl
            have hdir : t.dir = d := by
              rw [hs]
              rfl
            rw [afterOpen, dir, hdir]
            exact hnames
        | err e => exact hnames
        | crash => exact hnames
      · obtain ⟨m, -, hcollected, -, hwal⟩ := h.reopened (he hlists) hs
        rw [hcollected.wal name hsome k hk, hwal]

/-- One act. -/
theorem Kept.act (h : p.Kept fileBacked True) {a : Act Id Item Seg F} (ha : a.Allowed) :
    (p.act st a).Kept fileBacked True := by
  cases a with
  | own e => exact h.step fun _ => ha
  | write name file => exact h.meddle (.insert _ ha file)
  | remove name => exact h.meddle (.erase _ ha)

theorem Kept.acts (h : p.Kept fileBacked True) {as : List (Act Id Item Seg F)}
    (has : ∀ a ∈ as, a.Allowed) : (p.acts st as).Kept fileBacked True := by
  induction as generalizing p with
  | nil => exact h
  | cons a as ih =>
      exact ih (h.act (has a List.mem_cons_self)) fun a' ha' => has a' (List.mem_cons_of_mem _ ha')

omit [DecidableEq Id] [F64 F] in
theorem kept_fresh (fileBacked : Bool) (lists : Prop) :
    (Proc.closed (.empty fileBacked) : Proc Id Item Seg F).Kept fileBacked lists where
  agrees := ⟨rfl, emptyImage, coherent_empty fileBacked, trivial⟩
  names := by
    intro name hsome
    cases hsome
  onlyWal := by
    rintro - s ⟨⟩

end Proc

/-! ## Checkpoints -/

/-- A call on a writer, or the first part of a batch: of the rest an item may fail
after a checkpoint has succeeded. -/
inductive Stretch : StoreM Id Item Seg F Unit → Prop
  | call (cmd : Cmd Id Item F) : Stretch (cmd.exec st)
  | batch (items : List (Id × Item)) : Stretch (do
      SegmentedStore.checkPoisoned
      SegmentedStore.extendItems st items)

variable {st} in
theorem Stretch.swept {c : StoreM Id Item Seg F Unit} (h : Stretch st c) :
    Upholds (SegmentedStore.Housed True fun _ => False) SegmentedStore.LeavesOwn
      SegmentedStore.Swept c := by
  cases h with
  | call cmd => exact SegmentedStore.exec_swept st cmd
  | batch items =>
      exact SegmentedStore.bind_swept SegmentedStore.checkPoisoned_swept fun _ =>
        SegmentedStore.extendItems_swept st items

variable {st} in
theorem Stretch.framed {c : StoreM Id Item Seg F Unit} (h : Stretch st c)
    {s : SegmentedStore Id Item Seg F} {im : Image Id Seg} (hs : Framed s im)
    (hcur : Current s im) (hb : Bounded s) :
    Ends c s (fun r t => r ≠ .crash → ∃ im', Framed t im' ∧ Current t im') := by
  cases h with
  | call cmd =>
      exact (exec_ends st hs hcur hb cmd).mono fun r t ⟨im', ht, hcur', _⟩ hr =>
        ⟨im', ht, hcur' hr⟩
  | batch items =>
      refine Ends.bind (checkPoisoned_ends s) ?_ ?_ fun _ _ hr => absurd rfl hr
      · rintro ⟨⟩ t ⟨rfl, -, hhealthy⟩
        exact (extendItems_ends st items hs hcur (hhealthy rfl) hb).mono
          fun r u ⟨im', hu, hcur', _⟩ hr => ⟨im', hu, hcur' hr⟩
      · rintro e t ⟨rfl, -, -⟩ -
        exact ⟨im, hs, hcur⟩

omit [DecidableEq Id] [F64 F] in
/-- A directory that is housed and neat holds exactly what the manifest names. -/
theorem collected_of_neat {t : SegmentedStore Id Item Seg F} {im : Image Id Seg}
    (ht : Framed t im) (hcur : Current t im) (hhoused : t.Housed True fun _ => False)
    (hneat : t.Neat) :
    loadedOf t.dir.files = some im.toLoadedManifest ∧
      Collected im.toLoadedManifest t.dir.files := by
  refine ⟨ht.disk.shows.loaded, ht.disk.shows.present, fun name hsome k hk => ?_,
    fun name hsome k hk => ?_, fun name hsome k hk => ?_⟩
  · exact ⟨(hhoused.names name hsome).segment k hk,
      hneat.named _ ht.disk.shows.loaded name hsome k (.inl hk)⟩
  · rw [(hhoused.onlyWal trivial name hsome k hk).resolve_left id, hhoused.path,
      hcur hneat.healthy]
  · exact hneat.named _ ht.disk.shows.loaded name hsome k (.inr hk)

/-- Over every run in which listing and deleting do not fail: what is there after
every open and every checkpoint is exactly what the manifest names, and neither
deletes anything else that is protected, whatever fails in it. -/
theorem garbage_collection_exact (fileBacked : Bool) (as : List (Act Id Item Seg F))
    (has : ∀ a ∈ as, a.Allowed) :
    let p := Proc.acts st (.closed (.empty fileBacked)) as
    (∀ opts keep fates, Obliging fates → ∀ s,
      (Proc.step st p (.reopen opts keep fates)).1 = .running s →
        ∃ m, loadedOf s.dir.files = some m ∧ Collected m s.dir.files ∧
          ∀ name, (s.dir.files.lookup name).isSome → isSegTmp name = false) ∧
    (∀ s, p = .running s → ∀ fates, Obliging fates → ∀ t,
      SegmentedStore.checkpoint st (Proc.armed s fates) = (.ok (), t) →
        ∃ m, loadedOf t.dir.files = some m ∧ Collected m t.dir.files) ∧
    (∀ s, p = .running s → ∀ fates, Obliging fates → ∀ c, Stretch st c → ∀ t,
      c (Proc.armed s fates) = (.ok (), t) → t.epoch ≠ s.epoch →
        ∃ m, loadedOf t.dir.files = some m ∧ Collected m t.dir.files) ∧
    (∀ opts : Options F, ∀ keep fates, (p.dir.settle keep fates).Careful
      (openWithOptions st opts (p.dir.settle keep fates)).2) ∧
    ∀ s, p = .running s → ∀ fates, ∀ c, Stretch st c →
      (Proc.armed s fates).dir.Careful (c (Proc.armed s fates)).2.dir := by
  intro p
  have hp : p.Kept fileBacked True := (Proc.kept_fresh fileBacked True).acts has
  have hneat : ∀ s, p = .running s → ∀ fates, Obliging fates → ∀ c, Stretch st c → ∀ t,
      c (Proc.armed s fates) = (.ok (), t) → t.Neat →
        ∃ m, loadedOf t.dir.files = some m ∧ Collected m t.dir.files := by
    intro s hs fates hfates c hc t ht hneat
    rw [hs] at hp
    obtain ⟨-, im, hframed, hcur, hb, -⟩ := hp.agrees
    obtain ⟨harmed, -⟩ := Resilient.armed_framed hframed fates
    have hframed' := hc.framed harmed hcur hb
    have hswept := (hc.swept _ (hp.housed fun _ => hfates)).of_run ht
    obtain ⟨im', ht', hcur'⟩ := hframed'.of_run ht (by simp)
    exact ⟨_, collected_of_neat ht' hcur' (hswept.2.1 (by simp)) hneat⟩
  refine ⟨?_, ?_, ?_, ?_, ?_⟩
  · intro opts keep fates hfates s hs
    obtain ⟨m, hm, hcollected, htmp, -⟩ := hp.reopened hfates hs
    exact ⟨m, hm, hcollected, htmp⟩
  · intro s hs fates hfates t ht
    have hend := SegmentedStore.checkpoint_neat st _ ((hs ▸ hp).housed fun _ => hfates)
    exact hneat s hs fates hfates _ (.call .checkpoint) t ht
      ((hend.of_run ht).2.2 () rfl trivial)
  · intro s hs fates hfates c hc t ht hepoch
    have hend := hc.swept _ ((hs ▸ hp).housed fun _ => hfates)
    rcases (hend.of_run ht).2.2 () rfl with ⟨hsame, -⟩ | h
    · exact absurd hsame hepoch
    · exact hneat s hs fates hfates c hc t ht h
  · intro opts keep fates
    obtain ⟨-, im, hcoh, -⟩ := (resilient_frame st).drop hp.agrees
    exact (open_leaves st (hcoh.settle keep fates)
      (Proc.ownNames_settle hp.names keep fates) opts).1
  · intro s hs fates c hc
    have hparts := SegmentedStore.partwise_careful (F := F) st
    cases hc with
    | call cmd => exact hparts.exec cmd _
    | batch items => exact hparts.bind hparts.checkPoisoned (fun _ => hparts.extendItems items) _

end Runs

/-- A checkpoint, after a stop left a segment behind and with a sidecar of a
segment that does not exist. -/
theorem garbage_collection_exact_stopped :
    ∃ s t : SegmentedStore Nat Nat (List (Nat × Nat)) Rat,
      Proc.acts (defaultStore Nat Nat) (.closed (.empty false))
        [.own (.reopen (.new 1) 0 []), .own (.call (.add 1 5) []),
          .own (.call .checkpoint [fun _ => .done, fun _ => .stopped .nothing]),
          .own (.reopen (.new 1) 0 []), .write "segstore.idx.7.hnsw.v2" (.raw [])] =
            .running s ∧
      SegmentedStore.checkpoint (defaultStore Nat Nat) (Proc.armed s []) = (.ok (), t) ∧
      ∃ m, loadedOf t.dir.files = some m ∧ Collected m t.dir.files := by
  have hobliging : Obliging [] := fun fate hfate => absurd hfate List.not_mem_nil
  have hstopped : Obliging [fun _ => .done, fun _ => .stopped .nothing] := by
    simp [Obliging]
  have hforeign : Foreign "segstore.idx.7.hnsw.v2" := .inr (by decide)
  obtain ⟨s, hs, hok⟩ := Proc.holds_iff.mp
    (show (Proc.acts (F := Rat) (defaultStore Nat Nat) (.closed (.empty false))
      [.own (.reopen (.new 1) 0 []), .own (.call (.add 1 5) []),
        .own (.call .checkpoint [fun _ => .done, fun _ => .stopped .nothing]),
        .own (.reopen (.new 1) 0 []), .write "segstore.idx.7.hnsw.v2" (.raw [])]).holds
          (fun s => decide ((SegmentedStore.checkpoint (defaultStore Nat Nat)
            (Proc.armed s [])).1 = .ok ())) = true by decide +kernel)
  have ht : SegmentedStore.checkpoint (defaultStore Nat Nat) (Proc.armed s []) = (.ok (), _) :=
    Prod.ext (of_decide_eq_true hok) rfl
  have hexact := (garbage_collection_exact (defaultStore Nat Nat) (F := Rat) false
    [.own (.reopen (.new 1) 0 []), .own (.call (.add 1 5) []),
      .own (.call .checkpoint [fun _ => .done, fun _ => .stopped .nothing]),
      .own (.reopen (.new 1) 0 []), .write "segstore.idx.7.hnsw.v2" (.raw [])]
    (by simp [Act.Allowed, hobliging, hstopped, hforeign])).2.1
  exact ⟨s, _, hs, ht, hexact s hs [] hobliging _ ht⟩

end Segstore
