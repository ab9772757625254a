import Segstore.Writer.Sparing

/-!
# What checkpoints leave in the directory

A writer keeps its directory `Housed` between calls: no file has a name that
looks like a segment's or a WAL's and is not, and as long as listing and deleting
do not fail, there is no further WAL.  A checkpoint that returns then leaves the
directory `Neat`: no segment or sidecar of an id that the manifest does not name.
-/

namespace Segstore

variable {Id Item Seg F α : Type}

/-! ## Names -/

/-- A name that looks like that of a segment or a WAL is the one the store gives. -/
structure WellNamed (name : String) : Prop where
  segment : ∀ k, segId name = some k → name = segPath k
  wal : ∀ k, walEpoch name = some k → name = walPath k

theorem wellNamed_of_none {name : String} (hs : segId name = none) (hw : walEpoch name = none) :
    WellNamed name :=
  ⟨by simp [hs], by simp [hw]⟩

theorem wellNamed_segPath (k : Nat) : WellNamed (segPath k) where
  segment := fun _ h => congrArg segPath (segId_segPath h).symm
  wal := by simp [walEpoch_eq_none]

theorem wellNamed_walPath (k : Nat) : WellNamed (walPath k) where
  segment := by simp [segId_eq_none]
  wal := fun _ h => congrArg walPath (walEpoch_walPath h).symm

theorem wellNamed_tmp_segPath (k : Nat) : WellNamed (tmpPath (segPath k)) :=
  wellNamed_of_none (segId_tmp_segPath k) (walEpoch_eq_none (by simp))

theorem wellNamed_of_family {name : String} (hs : familyOf name ≠ some 's')
    (hw : familyOf name ≠ some 'w') : WellNamed name :=
  wellNamed_of_none (segId_eq_none hs) (walEpoch_eq_none hw)

/-- Every name in the directory is such. -/
def OwnNames (files : Files Id Item Seg) : Prop :=
  ∀ name, (files.lookup name).isSome → WellNamed name

theorem OwnNames.agreeOff {files files' : Files Id Item Seg} (h : OwnNames files)
    {names : List String} (hagree : AgreeOff names files files')
    (hnames : ∀ name ∈ names, WellNamed name) : OwnNames files' := by
  intro name hsome
  by_cases hname : name ∈ names
  · exact hnames name hname
  · exact h name (hagree name hname ▸ hsome)

theorem OwnNames.trimmed {files files' : Files Id Item Seg} (h : OwnNames files)
    {bad : String → Prop} (htrimmed : Trimmed bad files files') : OwnNames files' := by
  intro name hsome
  rcases htrimmed name with heq | ⟨hnone, -⟩
  · exact h name (heq ▸ hsome)
  · rw [hnone] at hsome
    cases hsome

namespace Directory

/-- A call that changes only the listed names. -/
theorem perform_agreeOff {call : Call} {torn whole : Files Id Item Seg → Files Id Item Seg}
    {names : List String} (htorn : ∀ f, AgreeOff names f (torn f))
    (hwhole : ∀ f, AgreeOff names f (whole f)) (d : Directory Id Item Seg) :
    Ends (perform call torn whole) d (fun _ d' =>
      ∃ files, d' = d.become files ∧ AgreeOff names d.files files) := by
  apply perform_leaves
  · exact fun r => ⟨_, rfl, hwhole d.files⟩
  · exact fun r hr => ⟨_, rfl, .refl _ _⟩
  · exact fun r hr => ⟨_, rfl, htorn d.files⟩

theorem agreeOff_insert (name : String) (file : File Id Item Seg) (files : Files Id Item Seg) :
    AgreeOff [name] files (files.insert name file) := by
  intro n hn
  rw [FinMap.lookup_insert_eq, if_neg (by simpa using hn)]

theorem appendLog_agreeOff (name : String) (op : Op Id Item) (d : Directory Id Item Seg) :
    Ends (appendLog name op) d (fun _ d' =>
      ∃ files, d' = d.become files ∧ AgreeOff [name] d.files files) :=
  perform_agreeOff (.refl _) (fun f => agreeOff_insert name _ f) d

theorem flushLog_agreeOff (name : String) (d : Directory Id Item Seg) :
    Ends (flushLog name) d (fun _ d' =>
      ∃ files, d' = d.become files ∧ AgreeOff [name] d.files files) := by
  refine perform_agreeOff (.refl _) (fun f => ?_) d
  split
  · exact agreeOff_insert name _ f
  · exact .refl _ _

theorem writeCheckpoint_agreeOff (name : String) (lastAppliedId : Nat)
    (payload : Payload Id Seg) (d : Directory Id Item Seg) :
    Ends (writeCheckpoint name lastAppliedId payload) d (fun _ d' =>
      ∃ files, d' = d.become files ∧ AgreeOff [name, tmpPath name] d.files files) := by
  refine (writeCheckpoint_ends name lastAppliedId payload d).mono ?_
  rintro r _ ⟨files, rfl, ⟨-, hagree⟩ | ⟨hagree, -⟩⟩
  · exact ⟨files, rfl, fun n hn => hagree n fun hmem => hn (List.mem_cons_of_mem _ hmem)⟩
  · exact ⟨files, rfl, hagree⟩

end Directory

/-! ## Housed and neat -/

namespace SegmentedStore

/-- No name that only looks like one of the store's.  If `lists`, listing and
deleting will not fail, and there is no WAL but the writer's and `stale` ones. -/
structure Housed (lists : Prop) (stale : String → Prop)
    (s : SegmentedStore Id Item Seg F) : Prop where
  path : s.wal = walPath s.epoch
  names : OwnNames s.dir.files
  obliging : lists → s.dir.Obliging
  onlyWal : lists → ∀ name, (s.dir.files.lookup name).isSome → ∀ k, walEpoch name = some k →
    stale name ∨ name = s.wal

/-- No segment and no sidecar of an id that the manifest does not name. -/
structure Neat (s : SegmentedStore Id Item Seg F) : Prop where
  healthy : s.poisoned = false
  named : ∀ m, loadedOf s.dir.files = some m → ∀ name, (s.dir.files.lookup name).isSome →
    ∀ k, segId name = some k ∨ idxSegId name = some k → k ∈ m.segmentIds

/-- What a stopped writer leaves. -/
abbrev LeavesOwn (s : SegmentedStore Id Item Seg F) : Prop := OwnNames s.dir.files

/-- The call has checkpointed and left the directory neat, or has not checkpointed
and kept it as neat as it was. -/
def Swept (s : SegmentedStore Id Item Seg F) (_ : α) (t : SegmentedStore Id Item Seg F) : Prop :=
  t.epoch = s.epoch ∧ (Neat s → Neat t) ∨ Neat t

section Relation

variable {s t u : SegmentedStore Id Item Seg F} {β : Type}

theorem Swept.refl (s : SegmentedStore Id Item Seg F) (a : α) : Swept s a s := .inl ⟨rfl, id⟩

theorem Swept.trans {a : α} {b : β} (h : Swept s a u) (h' : Swept u b t) : Swept s b t := by
  rcases h' with ⟨hepoch', hneat'⟩ | hneat'
  · rcases h with ⟨hepoch, hneat⟩ | hneat
    · exact .inl ⟨hepoch'.trans hepoch, fun hs => hneat' (hneat hs)⟩
    · exact .inr (hneat' hneat)
  · exact .inr hneat'

end Relation

variable {lists : Prop} {stale : String → Prop}

/-- A change of files with names of its own. -/
theorem Housed.agreeOff {s t : SegmentedStore Id Item Seg F} (h : Housed lists stale s)
    {names : List String} {files : Files Id Item Seg} (hdir : t.dir = s.dir.become files)
    (hpath : t.wal = s.wal) (hepoch : t.epoch = s.epoch)
    (hagree : AgreeOff names s.dir.files files)
    (hnames : ∀ name ∈ names, WellNamed name ∧ ∀ k, walEpoch name = some k → name = s.wal) :
    Housed lists stale t where
  path := by rw [hpath, hepoch, h.path]
  names := by
    rw [hdir]
    exact h.names.agreeOff hagree fun name hname => (hnames name hname).1
  obliging := by
    rw [hdir]
    exact fun hlists => (h.obliging hlists).suffix (List.tail_suffix _)
  onlyWal := by
    rw [hdir, hpath]
    intro hlists name hsome k hk
    by_cases hname : name ∈ names
    · exact .inr ((hnames name hname).2 k hk)
    · rw [Directory.become, hagree name hname] at hsome
      exact h.onlyWal hlists name hsome k hk

/-- The WAL is neither manifest nor segment nor sidecar. -/
theorem Neat.agreeOff {s t : SegmentedStore Id Item Seg F} (h : Neat s)
    {names : List String} {files : Files Id Item Seg} (hdir : t.dir = s.dir.become files)
    (hpoisoned : t.poisoned = s.poisoned) (hagree : AgreeOff names s.dir.files files)
    (hnames : ∀ name ∈ names, familyOf name = some 'w') : Neat t where
  healthy := hpoisoned.trans h.healthy
  named := by
    rw [hdir]
    intro m hm name hsome k hk
    have hother : ∀ n, familyOf n ≠ some 'w' → files.lookup n = s.dir.files.lookup n :=
      fun n hn => hagree n fun hmem => hn (hnames n hmem)
    have hfam : familyOf name ≠ some 'w' := by
      rcases hk with hk | hk
      · simp [familyOf_of_segId hk]
      · simp [familyOf_of_idxSegId hk]
    rw [Directory.become, hother name hfam] at hsome
    exact h.named m ((loadedOf_congr (hother _ (by simp))).symm.trans hm) name hsome k hk

/-! ## The parts of a call -/

theorem checkPoisoned_swept :
    Upholds (Housed lists stale) LeavesOwn Swept (checkPoisoned : StoreM Id Item Seg F Unit) := by
  refine .read_bind fun poisoned => ?_
  split
  · exact .fail _
  · exact .pure () fun s => .refl s ()

theorem onContents_swept (f : Contents Id Item Seg → Contents Id Item Seg) :
    Upholds (Housed lists stale) LeavesOwn Swept (onContents (F := F) f) :=
  .update (fun _ hs => ⟨hs.path, hs.names, hs.obliging, hs.onlyWal⟩)
    fun _ => .inl ⟨rfl, fun hs => ⟨hs.healthy, hs.named⟩⟩

/-- A call that changes the WAL only. -/
theorem onWal_swept {call : Call} {p : String → DirM Id Item Seg Unit}
    (hp : ∀ name d, Ends (p name) d (fun _ d' =>
      ∃ files, d' = d.become files ∧ AgreeOff [name] d.files files)) :
    Upholds (Housed lists stale) LeavesOwn Swept (onWal (F := F) call p) := by
  intro s hs
  refine (onWal_runs (hp s.wal s.dir)).mono ?_
  rintro r t (⟨-, rfl, rfl⟩ | ⟨-, _, b, rfl, ⟨files, rfl, hagree⟩, -⟩)
  · exact ⟨by simp, fun _ => hs, by simp⟩
  have hhoused : Housed lists stale
      { s with dir := s.dir.become files, walPoisoned := b } := by
    refine hs.agreeOff rfl rfl rfl hagree fun name hname => ?_
    rw [List.mem_singleton.mp hname]
    exact ⟨hs.path ▸ wellNamed_walPath s.epoch, fun _ _ => rfl⟩
  refine ⟨fun _ => hhoused.names, fun _ => hhoused, fun _ _ => .inl ⟨rfl, fun hneat => ?_⟩⟩
  refine hneat.agreeOff rfl rfl hagree fun name hname => ?_
  rw [List.mem_singleton.mp hname, hs.path, familyOf_walPath]

theorem appendWal_swept (op : Op Id Item) :
    Upholds (Housed lists stale) LeavesOwn Swept (appendWal op : StoreM Id Item Seg F Unit) :=
  onWal_swept fun name d => Directory.appendLog_agreeOff name op d

theorem syncWal_swept :
    Upholds (Housed lists stale) LeavesOwn Swept (syncWal : StoreM Id Item Seg F Unit) :=
  onWal_swept Directory.flushLog_agreeOff

theorem persistSegment_housed (id : Nat) (seg : Seg) :
    Upholds (Housed lists stale) LeavesOwn (fun s _ t => t.poisoned = s.poisoned)
      (persistSegment id seg : StoreM Id Item Seg F Unit) := by
  have hwrite : Upholds (Housed lists stale) LeavesOwn (fun s _ t => t.poisoned = s.poisoned)
      (onDir (F := F) (Directory.writeCheckpoint (segPath id) 0
        (.segment seg : Payload Id Seg)) : StoreM Id Item Seg F Unit) := by
    intro s hs
    refine Ends.zoom ((Directory.writeCheckpoint_agreeOff (segPath id) 0 (.segment seg)
      s.dir).mono ?_)
    rintro r _ ⟨files, rfl, hagree⟩
    have hhoused : Housed lists stale { s with dir := s.dir.become files } := by
      refine hs.agreeOff rfl rfl rfl hagree fun name hname => ?_
      rcases List.mem_cons.mp hname with rfl | hname
      · exact ⟨wellNamed_segPath id, by simp [walEpoch_eq_none]⟩
      · rw [List.mem_singleton.mp hname]
        exact ⟨wellNamed_tmp_segPath id, by simp [walEpoch_eq_none]⟩
    exact ⟨fun _ => hhoused.names, fun _ => hhoused, fun _ _ => rfl⟩
  have hrecord : Upholds (Housed lists stale) LeavesOwn (fun s _ t => t.poisoned = s.poisoned)
      (Eff.update (fun s => { s with persistedIds := s.persistedIds.insert id }) :
        StoreM Id Item Seg F Unit) :=
    .update (fun _ hs => ⟨hs.path, hs.names, hs.obliging, hs.onlyWal⟩) fun _ => rfl
  exact .bind hwrite.mapErr (fun _ => hrecord) fun h h' => h'.trans h

theorem persistAll_housed (todo : List (Nat × Seg)) :
    Upholds (Housed lists stale) LeavesOwn (fun s _ t => t.poisoned = s.poisoned)
      (persistAll todo : StoreM Id Item Seg F Unit) := by
  induction todo with
  | nil => exact .pure () fun _ => rfl
  | cons p todo ih =>
      exact .bind (persistSegment_housed p.1 p.2) (fun _ => ih) fun h h' => h'.trans h

/-! ## Checkpoints -/

theorem checkPoisoned_healthy :
    Upholds (Housed lists stale) LeavesOwn (fun _ _ t => t.poisoned = false)
      (checkPoisoned : StoreM Id Item Seg F Unit) := by
  intro s hs
  rw [checkPoisoned, Ends.read_bind_iff]
  split
  · exact Ends.fail_iff.mpr ⟨by simp, fun _ => hs, by simp⟩
  · rename_i hhealthy
    exact Ends.pure_iff.mpr ⟨by simp, fun _ => hs, fun _ _ => by simpa using hhealthy⟩

/-- Where the manifest names exactly what is kept, and the old WAL is the only one
but for stale ones, garbage collection leaves the directory neat. -/
theorem gcOrphanSegments_neat {s : SegmentedStore Id Item Seg F} {m : LoadedManifest Id}
    {old : Nat} (hpath : s.wal = walPath s.epoch) (hnames : OwnNames s.dir.files)
    (hobliging : lists → s.dir.Obliging) (hhealthy : s.poisoned = false)
    (hwal : lists → ∀ name, (s.dir.files.lookup name).isSome → ∀ k, walEpoch name = some k →
      stale name ∨ name = walPath old)
    (hm : loadedOf s.dir.files = some m) :
    Ends (gcOrphanSegments m.segmentIds [walPath old]) s (fun r t =>
      (r = .crash → LeavesOwn t) ∧ (r ≠ .crash → Housed lists stale t ∧ (lists → Neat t))) := by
  rw [gcOrphanSegments, Ends.update_bind_iff]
  refine Ends.zoom ((Directory.collectGarbage_deletes _ _ s.dir).mono ?_)
  rintro r d ⟨hdeletes, hnoError, hgone⟩
  have htrimmed := hdeletes.trimmed
  have hfound : ∀ name, (d.files.lookup name).isSome → (s.dir.files.lookup name).isSome := by
    intro name hsome
    rcases htrimmed name with heq | ⟨hnone, -⟩
    · rwa [← heq]
    · rw [hnone] at hsome
      cases hsome
  refine ⟨fun _ => hnames.trimmed htrimmed, fun hr => ?_⟩
  have hok : r = .ok () := by
    cases r with
    | ok u => rfl
    | err e => exact absurd rfl (hnoError e)
    | crash => exact absurd rfl hr
  have hgood : lists → ∀ name, (d.files.lookup name).isSome →
      name ≠ walPath old ∧ isOrphan m.segmentIds name = false := by
    intro hlists name hsome
    by_contra hbad
    rw [hgone (hobliging hlists) hok name (by simpa [or_iff_not_imp_left] using hbad)] at hsome
    cases hsome
  refine ⟨⟨hpath, hnames.trimmed htrimmed, fun hlists =>
    (hobliging hlists).suffix hdeletes.fates, fun hlists name hsome k hk => ?_⟩,
      fun hlists => ⟨hhealthy, ?_⟩⟩
  · rcases hwal hlists name (hfound name hsome) k hk with hstale | hold
    · exact .inl hstale
    · exact absurd hold (hgood hlists name hsome).1
  · intro m' hm' name hsome k hk
    have hman : loadedOf d.files = loadedOf s.dir.files := by
      refine loadedOf_congr (htrimmed.eq ?_)
      rw [isOrphan_eq_false (by simp) (by simp)]
      simpa using ne_of_familyOf (by simp)
    cases hm.symm.trans (hman.symm.trans hm')
    have horphan := (hgood hlists name hsome).2
    rcases hk with hk | hk
    · simpa [isOrphan, hk] using horphan
    · simpa [isOrphan_of_idxSegId hk] using horphan

variable [DecidableEq Id] (st : Store Id Item Seg)

theorem checkpoint_neat : Upholds (Housed lists stale) LeavesOwn (fun _ _ t => lists → Neat t)
    (checkpoint st : StoreM Id Item Seg F Unit) := by
  intro s hs
  refine Ends.bind (checkPoisoned_healthy s hs) ?_ (fun _ _ h => ⟨h.1, h.2.1, by simp⟩)
    fun _ h => ⟨h.1, h.2.1, by simp⟩
  rintro ⟨⟩ t ⟨-, ht, hhealthy⟩
  have hflushed : Housed lists stale { t with toContents := t.toContents.flushBuffer st } :=
    have ht := ht (by simp)
    ⟨ht.path, ht.names, ht.obliging, ht.onlyWal⟩
  rw [onContents, Ends.update_bind_iff, Ends.get_bind_iff]
  refine Ends.bind ((persistAll_housed _ _ hflushed).and (persistAll_onlyFiles _ _)) ?_
    (fun _ _ h => ⟨h.1.1, h.1.2.1, by simp⟩) fun _ h => ⟨h.1.1, h.1.2.1, by simp⟩
  rintro ⟨⟩ u ⟨⟨-, hu, hpoisoned⟩, honly⟩
  replace hu := hu (by simp)
  have hstep : ∀ {v : SegmentedStore Id Item Seg F} {files : Files Id Item Seg}
      {written : Bool}, v.dir = u.dir.become files → v.wal = u.wal → v.epoch = u.epoch →
        ManifestStep u written files → Housed lists stale v := by
    intro v files written hdir hwal hepoch hstep
    have hagree : AgreeOff [MANIFEST_PATH, tmpPath MANIFEST_PATH] u.dir.files files := by
      rcases hstep with ⟨-, hagree⟩ | ⟨hagree, -⟩
      · exact fun n hn => hagree n fun hmem => hn (List.mem_cons_of_mem _ hmem)
      · exact hagree
    refine hu.agreeOff hdir hwal hepoch hagree fun name hname => ?_
    have hfam : familyOf name = some 'm' := by
      rcases List.mem_cons.mp hname with rfl | hname
      · simp
      · rw [List.mem_singleton.mp hname]
        simp
    exact ⟨wellNamed_of_family (by simp [hfam]) (by simp [hfam]), by
      simp [walEpoch_eq_none, hfam]⟩
  refine Ends.bind (writeManifest_files u) ?_ ?_ ?_
  · rintro ⟨⟩ v ⟨files, hdir, hwal, hepoch, hhealthy', written, hwritten, hmanifest⟩
    have hv := hstep hdir hwal hepoch hmanifest
    rcases hmanifest with ⟨hno, -⟩ | ⟨-, -, m, hm, hmepoch, hmids⟩
    · rw [hwritten rfl] at hno
      cases hno
    · have hids : (t.toContents.flushBuffer st).segmentIds = m.segmentIds := by
        rw [hmids, honly.memory]
      have hold : v.wal = walPath t.epoch := by
        rw [hv.path, hepoch, honly.epoch]
      have hm' : loadedOf v.dir.files = some m := by
        rw [hdir]
        exact hm
      have hhealthy'' : v.poisoned = false := by
        rw [hhealthy' rfl, hpoisoned () rfl]
        exact hhealthy () rfl
      rw [rotateWal, Ends.update_bind_iff]
      show Ends (gcOrphanSegments (t.toContents.flushBuffer st).segmentIds [walPath t.epoch] >>=
        fun _ => republish) _ _
      rw [hids]
      refine Ends.bind (gcOrphanSegments_neat (s := { v with
          wal := walPath (v.epoch + 1)
          walPoisoned := false
          epoch := v.epoch + 1 }) rfl hv.names hv.obliging hhealthy'' (hold ▸ hv.onlyWal) hm')
        ?_ (fun _ _ h => ⟨by simp, fun _ => (h.2 (by simp)).1, by simp⟩)
        fun _ h => ⟨h.1, by simp, by simp⟩
      rintro ⟨⟩ w ⟨-, hw⟩
      obtain ⟨hhoused, hneat⟩ := hw (by simp)
      exact Ends.update_iff.mpr ⟨by simp, fun _ => ⟨hhoused.path, hhoused.names,
        hhoused.obliging, hhoused.onlyWal⟩,
        fun _ _ hlists => ⟨(hneat hlists).healthy, (hneat hlists).named⟩⟩
  · rintro e v ⟨files, hdir, hwal, hepoch, -, written, -, h⟩
    exact ⟨by simp, fun _ => hstep hdir hwal hepoch h, by simp⟩
  · rintro v ⟨files, hdir, hwal, hepoch, -, written, -, h⟩
    exact ⟨fun _ => (hstep hdir hwal hepoch h).names, by simp, by simp⟩

/-- Every call keeps the directory housed. -/
theorem partwise_housed : Partwise st (fun {_} p => Upholds
    (Housed lists stale : SegmentedStore Id Item Seg F → Prop) LeavesOwn
      (fun _ _ _ => True) p) where
  toCompositional := Upholds.compositional (Housed lists stale) LeavesOwn
  checkPoisoned := checkPoisoned_swept.mono fun _ _ _ _ => trivial
  contents := fun f => (onContents_swept f).mono fun _ _ _ _ => trivial
  append := fun op => (appendWal_swept op).mono fun _ _ _ _ => trivial
  sync := syncWal_swept.mono fun _ _ _ _ => trivial
  persist := fun id seg => (persistSegment_housed id seg).mono fun _ _ _ _ => trivial
  checkpoint := (checkpoint_neat st).mono fun _ _ _ _ => trivial

/-! ## Calls that return -/

omit [DecidableEq Id] in
theorem bind_swept {β : Type} {p : StoreM Id Item Seg F α} {f : α → StoreM Id Item Seg F β}
    (hp : Upholds (Housed True stale) LeavesOwn Swept p)
    (hf : ∀ a, Upholds (Housed True stale) LeavesOwn Swept (f a)) :
    Upholds (Housed True stale) LeavesOwn Swept (p >>= f) :=
  .bind hp hf Swept.trans

omit [DecidableEq Id] in
theorem pure_swept (a : α) :
    Upholds (Housed True stale) LeavesOwn Swept (pure a : StoreM Id Item Seg F α) :=
  .pure a fun s => .refl s a

omit [DecidableEq Id] in
theorem withSegmentsAfter_same (stats : CompactionStats) :
    Upholds (Housed True stale) LeavesOwn (fun s _ t => t = s)
      (withSegmentsAfter stats : StoreM Id Item Seg F _) :=
  .get_bind fun _ => .pure _ fun _ _ => rfl

/-- A checkpoint after which a compaction ends. -/
theorem checkpointed_neat (stats : CompactionStats) :
    Upholds (Housed True stale) LeavesOwn (fun _ _ t => Neat t)
      (checkpoint st >>= fun _ => (withSegmentsAfter stats : StoreM Id Item Seg F _)) :=
  .bind (checkpoint_neat st) (fun _ => withSegmentsAfter_same stats)
    fun (h : True → Neat _) (h' : _ = _) => h' ▸ h trivial

theorem compact_neat :
    Upholds (Housed True stale) LeavesOwn (fun _ _ t => Neat t)
      (compact st : StoreM Id Item Seg F _) :=
  .bind ((partwise_housed st).mergewise.compactMerging st)
    (fun stats => checkpointed_neat st stats) fun _ h => h

/-- The end of a partial compaction: a checkpoint, or nothing. -/
theorem finishCompaction_swept (stats : CompactionStats) :
    Upholds (Housed True stale) LeavesOwn (fun s _ t => stats.merges = 0 ∧ t = s ∨ Neat t)
      (finishCompaction st stats : StoreM Id Item Seg F _) := by
  rw [finishCompaction]
  split
  · exact (checkpointed_neat st stats).mono fun _ _ _ => .inr
  · rename_i hzero
    exact (withSegmentsAfter_same _).mono fun _ _ _ h => .inl ⟨Nat.eq_zero_of_not_pos hzero, h⟩

/-- The merges of a loop are counted. -/
def Counted (stats : CompactionStats) (s : SegmentedStore Id Item Seg F)
    (stats' : CompactionStats) (t : SegmentedStore Id Item Seg F) : Prop :=
  stats.merges ≤ stats'.merges ∧ (stats'.merges = stats.merges → t = s)

omit [DecidableEq Id] in
theorem Counted.refl (stats : CompactionStats) (s : SegmentedStore Id Item Seg F) :
    Counted stats s stats s :=
  ⟨Nat.le_refl _, fun _ => rfl⟩

omit [DecidableEq Id] in
/-- After a merge the count has gone up. -/
theorem Counted.of_more {stats more stats' : CompactionStats}
    {s t u : SegmentedStore Id Item Seg F} (hmore : stats.merges < more.merges)
    (h : Counted more u stats' t) : Counted stats s stats' t :=
  ⟨Nat.le_of_lt (hmore.trans_le h.1), fun heq => absurd heq (Nat.ne_of_gt (hmore.trans_le h.1))⟩

theorem mergeLoop_counted (next : Options F → Contents Id Item Seg → Option (List Nat))
    (fuel : Nat) (stats : CompactionStats) :
    Upholds (Housed True stale) LeavesOwn (Counted stats)
      (mergeLoop st next fuel stats : StoreM Id Item Seg F _) := by
  induction fuel generalizing stats with
  | zero => exact .pure _ fun _ => .refl _ _
  | succ fuel ih =>
      refine .get_bind fun s => ?_
      split
      · exact .pure _ fun _ _ => .refl _ _
      · exact .bind ((partwise_housed st).mergewise.mergeGroup st _) (fun _ => ih _)
          fun _ h _ => .of_more (Nat.lt_succ_self _) h

/-- Merges that their count owns up to, and the end of the compaction. -/
theorem finished_swept {p : StoreM Id Item Seg F CompactionStats}
    (hp : Upholds (Housed True stale) LeavesOwn
      (fun s stats t => stats.merges = 0 → Swept s stats t) p) :
    Upholds (Housed True stale) LeavesOwn Swept (p >>= finishCompaction st) := by
  refine .bind hp (fun stats => finishCompaction_swept st stats) ?_
  rintro s stats u stats' t hu (⟨hnone, rfl⟩ | hneat)
  · exact hu hnone
  · exact .inr hneat

/-- Merges after a seal. -/
theorem sealed_swept {p : SegmentedStore Id Item Seg F → StoreM Id Item Seg F CompactionStats}
    (hp : ∀ u, Upholds (Housed True stale) LeavesOwn
      (fun s stats t => stats.merges = 0 → t = s) (p u)) :
    Upholds (Housed True stale) LeavesOwn (fun s stats t => stats.merges = 0 → Swept s stats t)
      (onContents (Contents.flushBuffer st) >>= fun _ => Eff.get >>= p) := by
  have hget : ∀ _ : Unit, Upholds (Housed True stale) LeavesOwn
      (fun s stats t => stats.merges = 0 → t = s) (Eff.get >>= p) :=
    fun _ => .get_bind fun u => (hp u).mono fun _ _ _ h _ => h
  exact .bind (onContents_swept _) hget fun h hsame hnone => hsame hnone ▸ h

/-- The rounds of a partial compaction, and its end. -/
theorem compactBy_swept (next : Options F → Contents Id Item Seg → Option (List Nat)) :
    Upholds (Housed True stale) LeavesOwn Swept
      (compactBy st next : StoreM Id Item Seg F _) := by
  refine finished_swept st (sealed_swept st fun u => ?_)
  exact (mergeLoop_counted st next _ _).mono fun _ _ _ h => h.2

theorem forceMergeTo_swept (maxSegments : Nat) :
    Upholds (Housed True stale) LeavesOwn Swept
      (forceMergeTo st maxSegments : StoreM Id Item Seg F _) := by
  rw [forceMergeTo_eq]
  split
  · exact (compact_neat st).mono fun _ _ _ => .inr
  · exact compactBy_swept st _

variable [F64 F]

theorem compactTiers_swept :
    Upholds (Housed True stale) LeavesOwn Swept (compactTiers st : StoreM Id Item Seg F _) := by
  rw [compactTiers_eq]
  exact compactBy_swept st _

theorem reclaimTombstones_swept (minLiveRatio : F) :
    Upholds (Housed True stale) LeavesOwn Swept
      (reclaimTombstones st minLiveRatio : StoreM Id Item Seg F _) := by
  refine finished_swept st (sealed_swept st fun u => ?_)
  dsimp only
  split
  · exact .pure _ fun _ _ => rfl
  · exact .pure _ fun _ _ => rfl
  · have hone : ∀ n : Nat, Upholds (Housed True stale) LeavesOwn (fun _ stats _ => stats.merges = 1)
        (pure { segmentsBefore := u.segments.length, itemsMerged := n, merges := 1 } :
          StoreM Id Item Seg F CompactionStats) :=
      fun _ => .pure _ fun _ => rfl
    exact .bind ((partwise_housed st).mergewise.mergeGroup st _) hone
      fun _ hmerges hnone => absurd (hmerges.symm.trans hnone) Nat.one_ne_zero

theorem sealAndCompact_swept {beforeCompact : StoreM Id Item Seg F Unit}
    (hbefore : Upholds (Housed True stale) LeavesOwn Swept beforeCompact) :
    Upholds (Housed True stale) LeavesOwn Swept (sealAndCompact st beforeCompact) := by
  refine .get_bind fun s => ?_
  split
  · refine (bind_swept (onContents_swept _) fun _ => .get_bind fun s' => ?_).mono
      fun _ _ _ h _ => h
    split
    · exact (bind_swept hbefore fun _ => bind_swept (compactTiers_swept st) fun _ =>
        pure_swept ()).mono fun _ _ _ h _ => h
    · exact (pure_swept ()).mono fun _ _ _ h _ => h
  · exact (pure_swept ()).mono fun _ _ _ h _ => h

theorem extendItems_swept (items : List (Id × Item)) :
    Upholds (Housed True stale) LeavesOwn Swept
      (extendItems st items : StoreM Id Item Seg F _) := by
  induction items with
  | nil => exact pure_swept ()
  | cons e items ih =>
      refine bind_swept ?_ fun _ => ih
      exact bind_swept (appendWal_swept _) fun _ => bind_swept (onContents_swept _) fun _ =>
        sealAndCompact_swept st syncWal_swept

theorem exec_swept (cmd : Cmd Id Item F) :
    Upholds (Housed True stale) LeavesOwn Swept (cmd.exec st : StoreM Id Item Seg F Unit) := by
  cases cmd with
  | add id item =>
      exact bind_swept checkPoisoned_swept fun _ => bind_swept (appendWal_swept _) fun _ =>
        bind_swept syncWal_swept fun _ => bind_swept (onContents_swept _) fun _ =>
          sealAndCompact_swept st (pure_swept ())
  | extend items =>
      refine bind_swept checkPoisoned_swept fun _ =>
        bind_swept (extendItems_swept st items) fun _ => ?_
      split
      · exact pure_swept ()
      · exact syncWal_swept
  | delete id =>
      exact bind_swept checkPoisoned_swept fun _ => bind_swept (appendWal_swept _) fun _ =>
        bind_swept syncWal_swept fun _ => onContents_swept _
  | checkpoint => exact (checkpoint_neat st).mono fun _ _ _ h => .inr (h trivial)
  | compact =>
      exact bind_swept ((compact_neat st).mono fun _ _ _ => .inr) fun _ => pure_swept ()
  | compactTiers => exact bind_swept (compactTiers_swept st) fun _ => pure_swept ()
  | forceMergeTo maxSegments =>
      exact bind_swept (forceMergeTo_swept st maxSegments) fun _ => pure_swept ()
  | reclaimTombstones minLiveRatio =>
      exact bind_swept (reclaimTombstones_swept st minLiveRatio) fun _ => pure_swept ()

end SegmentedStore

end Segstore
