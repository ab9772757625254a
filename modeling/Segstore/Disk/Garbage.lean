import Segstore.Disk.Calls

/-!
# Garbage collection

Deleting is a sequence of steps, each of which erases one bad name at most,
whatever fails on the way: `Deletes bad d d'`.  What the steps preserve follows
by induction.  When neither listing nor deleting fails, everything that was to
be deleted is gone.
-/

namespace Segstore

variable {Id Item Seg : Type}

namespace Directory

/-! ## Steps of a deletion -/

/-- One call of a deletion. -/
inductive Deletion (bad : String → Prop) :
    Directory Id Item Seg → Directory Id Item Seg → Prop
  | pass (d : Directory Id Item Seg) : Deletion bad d { d with fates := d.fates.tail }
  | keep (d : Directory Id Item Seg) : Deletion bad d (d.become d.files)
  | erase (d : Directory Id Item Seg) {name : String} (h : bad name) :
      Deletion bad d (d.become (d.files.erase name))

/-- Some calls of a deletion. -/
abbrev Deletes (bad : String → Prop) :
    Directory Id Item Seg → Directory Id Item Seg → Prop :=
  Relation.ReflTransGen (Deletion bad)

/-- Neither listing nor deleting fails. -/
def Obliging (d : Directory Id Item Seg) : Prop :=
  ∀ fate ∈ d.fates, ∀ e landed, fate .list ≠ .failed e landed ∧ fate .delete ≠ .failed e landed

variable {bad : String → Prop} {d d' : Directory Id Item Seg}

theorem Obliging.suffix (h : d.Obliging) (hfates : d'.fates <:+ d.fates) : d'.Obliging :=
  fun fate hfate => h fate (hfates.subset hfate)

theorem Obliging.nextFate (h : d.Obliging) (e : PersistenceError) (landed : Landed) :
    d.nextFate .list ≠ .failed e landed ∧ d.nextFate .delete ≠ .failed e landed := by
  rw [Obliging] at h
  rw [Directory.nextFate, Directory.nextFate]
  cases hfates : d.fates with
  | nil => exact ⟨by simp, by simp⟩
  | cons fate rest => exact h fate (hfates ▸ List.mem_cons_self) e landed

namespace Deletes

theorem trimmed (h : Deletes bad d d') : Trimmed bad d.files d'.files := by
  induction h with
  | refl => exact .refl _ _
  | tail _ hstep ih =>
      cases hstep with
      | pass => exact ih
      | keep => exact ih
      | @erase name hname =>
          refine ih.trans fun n => ?_
          rw [become, FinMap.lookup_erase_eq]
          split
          · rename_i hn
            exact .inr ⟨rfl, hn ▸ hname⟩
          · exact .inl rfl

theorem fileBacked (h : Deletes bad d d') : d'.fileBacked = d.fileBacked := by
  induction h with
  | refl => rfl
  | tail _ hstep ih =>
      cases hstep with
      | pass => exact ih
      | keep => exact ih
      | erase _ => exact ih

theorem fates (h : Deletes bad d d') : d'.fates <:+ d.fates := by
  induction h with
  | refl => exact List.suffix_rfl
  | tail _ hstep ih =>
      refine List.IsSuffix.trans ?_ ih
      cases hstep with
      | pass => exact List.tail_suffix _
      | keep => exact List.tail_suffix _
      | erase _ => exact List.tail_suffix _

/-- What is gone stays gone. -/
theorem gone (h : Deletes bad d d') {name : String} (hnone : d.files.lookup name = none) :
    d'.files.lookup name = none := by
  rcases h.trimmed name with heq | ⟨heq, -⟩
  · exact heq.trans hnone
  · exact heq

end Deletes

/-! ## The calls -/

/-- A deletion of the given names ends, without an error. -/
structure Deleted (bad : String → Prop) (names : List String) (d : Directory Id Item Seg)
    {α : Type} (r : Outcome PersistenceError α) (d' : Directory Id Item Seg) : Prop where
  steps : Deletes bad d d'
  noError : ∀ e, r ≠ .err e
  gone : d.Obliging → r ≠ .crash → ∀ name ∈ names, d'.files.lookup name = none

theorem deleteIfThere_ends {name : String} (hname : bad name) (d : Directory Id Item Seg) :
    Ends (deleteIfThere name) d (Deleted bad [name] d) := by
  rw [deleteIfThere, Ends.read_bind_iff]
  split
  · refine Ends.attempt_bind (R := fun r d' => Deletes bad d d' ∧
      (d.Obliging → (∀ e, r ≠ .err e) ∧ (r ≠ .crash → d'.files.lookup name = none))) ?_ ?_ ?_ ?_
    · have herased : (d.become (d.files.erase name)).files.lookup name = none := by
        rw [become, FinMap.lookup_erase_eq, if_pos rfl]
      have hland : ∀ landed, Deletes bad d
          (d.become (landing id (fun files => files.erase name) d.files landed)) := by
        intro landed
        cases landed with
        | nothing => exact .single (.keep d)
        | temporary => exact .single (.keep d)
        | everything => exact .single (.erase d hname)
      unfold delete Ends perform
      cases hfate : d.nextFate .delete with
      | done => exact ⟨.single (.erase d hname), fun _ => ⟨by simp, fun _ => herased⟩⟩
      | failed e landed =>
          exact ⟨hland landed, fun ho => absurd hfate (ho.nextFate e landed).2⟩
      | stopped landed => exact ⟨hland landed, fun _ => ⟨by simp, fun hr => absurd rfl hr⟩⟩
    · rintro ⟨⟩ t ⟨ht, hgone⟩
      exact Ends.pure_iff.mpr ⟨ht, by simp, fun ho _ => by simpa using (hgone ho).2 (by simp)⟩
    · rintro e t ⟨ht, hgone⟩
      exact Ends.pure_iff.mpr ⟨ht, by simp, fun ho _ => absurd rfl ((hgone ho).1 e)⟩
    · rintro t ⟨ht, -⟩
      exact ⟨ht, by simp, fun _ hr => absurd rfl hr⟩
  · rename_i hthere
    refine Ends.pure_iff.mpr ⟨.refl, by simp, fun _ _ => ?_⟩
    simpa [«exists»] using hthere

theorem deleteEach_ends {names : List String} (hnames : ∀ name ∈ names, bad name)
    (d : Directory Id Item Seg) : Ends (deleteEach names) d (Deleted bad names d) := by
  induction names generalizing d with
  | nil => exact Ends.pure_iff.mpr ⟨.refl, by simp, by simp⟩
  | cons name names ih =>
      rw [deleteEach]
      refine Ends.bind (deleteIfThere_ends (hnames name List.mem_cons_self) d) ?_ ?_ ?_
      · rintro now t ht
        refine Ends.bind (ih (fun n hn => hnames n (List.mem_cons_of_mem _ hn)) t) ?_ ?_ ?_
        · rintro later u hu
          refine Ends.pure_iff.mpr ⟨ht.steps.trans hu.steps, by simp, fun ho _ n hn => ?_⟩
          rcases List.mem_cons.mp hn with rfl | hn
          · exact hu.steps.gone (ht.gone ho (by simp) n List.mem_cons_self)
          · exact hu.gone (ho.suffix ht.steps.fates) (by simp) n hn
        · exact fun e u hu => absurd rfl (hu.noError e)
        · exact fun u hu => ⟨ht.steps.trans hu.steps, by simp, fun _ hr => absurd rfl hr⟩
      · exact fun e t ht => absurd rfl (ht.noError e)
      · exact fun t ht => ⟨ht.steps, by simp, fun _ hr => absurd rfl hr⟩

/-- A synced parent directory holds what it held. -/
theorem syncParentDir_ends (bad : String → Prop) (d : Directory Id Item Seg) :
    Ends syncParentDir d (fun _ d' => Deletes bad d d') := by
  unfold syncParentDir
  apply perform_leaves
  · exact fun r => .single (.keep d)
  · exact fun r hr => .single (.keep d)
  · exact fun r hr => .single (.keep d)

theorem deleteFilesBestEffort_ends {names : List String} (hnames : ∀ name ∈ names, bad name)
    (durable : Bool) (d : Directory Id Item Seg) :
    Ends (deleteFilesBestEffort names durable) d (Deleted bad names d) := by
  refine Ends.bind (deleteEach_ends hnames d) ?_ ?_ ?_
  · rintro deleted t ht
    have hdone : ∀ {r : Outcome PersistenceError Unit} {u : Directory Id Item Seg},
        Deletes bad t u → (∀ e, r ≠ .err e) → Deleted bad names d r u := fun hu hr =>
      ⟨ht.steps.trans hu, hr, fun ho _ name hname =>
        hu.gone (ht.gone ho (by simp) name hname)⟩
    split
    · refine Ends.attempt_bind (syncParentDir_ends bad t) ?_ ?_ ?_
      · exact fun _ u hu => Ends.pure_iff.mpr (hdone hu (by simp))
      · exact fun _ u hu => Ends.pure_iff.mpr (hdone hu (by simp))
      · exact fun u hu => hdone hu (by simp)
    · exact Ends.pure_iff.mpr (hdone .refl (by simp))
  · exact fun e t ht => absurd rfl (ht.noError e)
  · exact fun t ht => ⟨ht.steps, by simp, fun _ hr => absurd rfl hr⟩

/-- Garbage collection deletes the given names and what the test picks, at most;
all of it, when neither listing nor deleting fails. -/
theorem collectGarbage_deletes (garbage : List String) (test : String → Bool)
    (d : Directory Id Item Seg) :
    Ends (collectGarbage garbage test) d (fun r d' =>
      Deletes (fun name => name ∈ garbage ∨ test name = true) d d' ∧ (∀ e, r ≠ .err e) ∧
        (d.Obliging → r = .ok () → ∀ name, name ∈ garbage ∨ test name = true →
          d'.files.lookup name = none)) := by
  have hrest : ∀ (listed : Except PersistenceError (List String)),
      (d.Obliging → listed = .ok d.files.keys) →
      Ends (deleteFilesBestEffort (garbage ++ (listed.toOption.getD []).filter test)
        d.fileBacked) { d with fates := d.fates.tail } (fun r d' =>
          Deletes (fun name => name ∈ garbage ∨ test name = true) d d' ∧ (∀ e, r ≠ .err e) ∧
            (d.Obliging → r = .ok () → ∀ name, name ∈ garbage ∨ test name = true →
              d'.files.lookup name = none)) := by
    intro listed hlisted
    have hnames : ∀ name ∈ garbage ++ (listed.toOption.getD []).filter test,
        name ∈ garbage ∨ test name = true := fun name hname =>
      (List.mem_append.mp hname).imp_right fun hname => (List.mem_filter.mp hname).2
    refine (deleteFilesBestEffort_ends hnames _ _).mono fun r u hu => ?_
    refine ⟨.head (.pass d) hu.steps, hu.noError, fun ho hr name hbad => ?_⟩
    by_cases hmem : name ∈ garbage ++ (listed.toOption.getD []).filter test
    · exact hu.gone (ho.suffix (List.tail_suffix _)) (by simp [hr]) name hmem
    · -- a name that was not listed was not there
      refine hu.steps.gone (Option.eq_none_iff_forall_ne_some.mpr fun file hfile => hmem ?_)
      rw [hlisted ho, List.mem_append, List.mem_filter]
      refine hbad.imp_right fun htest => ⟨?_, htest⟩
      exact AList.mem_keys.mpr (AList.lookup_isSome.mp (Option.isSome_iff_exists.mpr ⟨file, hfile⟩))
  rw [collectGarbage]
  refine Ends.attempt_bind (R := fun r t => t = { d with fates := d.fates.tail } ∧
    (d.Obliging → r = .ok d.files.keys ∨ r = .crash)) ?_ ?_ ?_ ?_
  · unfold listDir Ends observe
    cases hfate : d.nextFate .list with
    | done => exact ⟨rfl, fun _ => .inl rfl⟩
    | failed e landed => exact ⟨rfl, fun ho => absurd hfate (ho.nextFate e landed).1⟩
    | stopped landed => exact ⟨rfl, fun _ => .inr rfl⟩
  · rintro names t ⟨rfl, hr⟩
    exact hrest (.ok names) fun ho => by simpa using hr ho
  · rintro e t ⟨rfl, hr⟩
    exact hrest (.error e) fun ho => by simpa using hr ho
  · rintro t ⟨rfl, -⟩
    exact ⟨.single (.pass d), by simp, by simp⟩

/-! ## On a coherent directory -/

variable {im : Image Id Seg}

/-- The names that must stay: manifest, named segments, WAL. -/
structure Dispensable (im : Image Id Seg) (bad : String → Prop) : Prop where
  manifest : ¬ bad MANIFEST_PATH
  named : ∀ k ∈ im.segmentIds, ¬ bad (segPath k)
  wal : ¬ bad (walPath im.epoch)

theorem Dispensable.harmless (hbad : Dispensable im bad) (h : d.Coherent im)
    {files : Files Id Item Seg} (ht : Trimmed bad d.files files) :
    Coherent.Harmless im d.files files := by
  have hnone : ∀ name, d.files.lookup name = none → files.lookup name = d.files.lookup name := by
    intro name hname
    rcases ht name with heq | ⟨heq, _⟩
    · exact heq
    · rw [heq, hname]
  refine ⟨ht.eq hbad.manifest, fun k hk => ht.eq (hbad.named k hk), fun k _ => ?_,
    ht.eq hbad.wal, fun k _ => ?_, hnone _ h.noLegacyWal, ?_⟩
  · exact (ht (segPath k)).imp_right And.left
  · exact (ht (walPath k)).imp_right And.left
  · exact (ht LEGACY_CKPT_PATH).imp_right And.left

/-- Deleting names that the image does not need. -/
structure Cleaned (im : Image Id Seg) (bad : String → Prop) (d d' : Directory Id Item Seg) :
    Prop where
  coherent : d'.Coherent im
  fileBacked : d'.fileBacked = d.fileBacked
  trimmed : Trimmed bad d.files d'.files

theorem Deletes.cleaned (h : Deletes bad d d') (hbad : Dispensable im bad)
    (hd : d.Coherent im) : Cleaned im bad d d' := by
  refine ⟨?_, h.fileBacked, h.trimmed⟩
  induction h with
  | refl => exact hd
  | tail _ hstep ih =>
      have hsteps := Relation.ReflTransGen.single hstep
      cases hstep with
      | pass => exact ih.congr rfl rfl
      | keep => exact ih.harmless (hbad.harmless ih (.refl _ _))
      | erase _ => exact ih.harmless (hbad.harmless ih (trimmed hsteps))

/-- Deleting what the image does not need leaves the image, and is part of one history
with what was there. -/
theorem Deletes.lineage (h : Deletes bad d d') (hbad : Dispensable im bad)
    (hs : Shows d.files im) (hnum : im.Numbered) (hl : Lineage d.states) :
    Shows d'.files im ∧ Lineage d'.states := by
  induction h with
  | refl => exact ⟨hs, hl⟩
  | tail _ hstep ih =>
      obtain ⟨hs', hl'⟩ := ih
      have hstep' := hstep
      cases hstep with
      | pass => exact ⟨hs', hl'⟩
      | keep => exact ⟨hs', hl'.cons hs' hs' hnum (.refl _ _)⟩
      | @erase name hname =>
          have ht := trimmed (Relation.ReflTransGen.single hstep')
          have hs'' := hs'.congr (ht.eq hbad.manifest) fun k hk => ht.eq (hbad.named k hk)
          refine ⟨hs'', hl'.cons hs' hs'' hnum ⟨Nat.le_refl _, fun _ _ hk => hk, fun k _ => ?_⟩⟩
          rcases ht (segPath k) with heq | ⟨hnone, -⟩
          · exact .inl (segFile_congr heq)
          · exact .inr (by rw [segFile, hnone])

/-- Garbage collection keeps a directory coherent. -/
theorem collectGarbage_ends {garbage : List String} {test : String → Bool}
    (hbad : Dispensable im (fun name => name ∈ garbage ∨ test name = true))
    (h : d.Coherent im) :
    Ends (collectGarbage garbage test) d (fun r d' =>
      Cleaned im (fun name => name ∈ garbage ∨ test name = true) d d' ∧ ∀ e, r ≠ .err e) :=
  (collectGarbage_deletes garbage test d).mono fun _ _ hu => ⟨hu.1.cleaned hbad h, hu.2.1⟩

end Directory

end Segstore
