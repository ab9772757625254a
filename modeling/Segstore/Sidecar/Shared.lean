import Segstore.Sidecar.Calls

/-!
# A cache that threads share

The steps of calls that run at the same time.  `get_or_build` and `retain` are
one step under the lock.  `persist`, `persist_missing` and `invalidate` have a
step under the lock and leave work on files, one call on the directory at a
time, to be done after the lock is released.  A run is any order of such steps;
between them the files may change in any way.
-/

namespace Segstore

variable {Id Item Seg Index : Type} [LinearOrder Id]

/-! ## Work on files -/

/-- What a call has still to do once it has released the lock. -/
inductive FileWork (Id Index : Type) [LinearOrder Id]
  | store (key : SidecarKey Id) (index : Index)
  | look (pending : List (SidecarKey Id × Index))
  | fill (key : SidecarKey Id) (index : Index) (name : String)
      (pending : List (SidecarKey Id × Index))
  | find (segmentId : UInt64)
  | erase (name : String)

namespace FileWork

variable (codec : SidecarCodec Id Index) (crc32 : List UInt8 → UInt32) (host : SidecarHost)

/-- One call on the directory.  What is left to do afterwards, if anything. -/
def next : FileWork Id Index → DirM Id Item Seg (Option (FileWork Id Index))
  | .store key index => do
      codec.writeEntry crc32 host key index
      pure none
  | .look [] => pure none
  | .look ((key, index) :: pending) => do
      let name ← Eff.ofExcept (host key.segmentId codec.kind)
      if ← Eff.read (Directory.exists name) then
        pure (some (.look pending))
      else
        pure (some (.fill key index name pending))
  | .fill key index name pending => do
      let bytes ← Eff.ofExcept (codec.encodeEnvelope crc32 key index)
      Directory.writeSidecar name bytes
      pure (some (.look pending))
  | .find segmentId => do
      let name ← Eff.ofExcept (host segmentId codec.kind)
      if ← Eff.read (Directory.exists name) then pure (some (.erase name)) else pure none
  | .erase name => do
      Directory.delete name
      pure none

/-- Work that nothing interrupts, one call after the other. -/
def finish : Nat → FileWork Id Index → DirM Id Item Seg Unit
  | 0, _ => pure ()
  | calls + 1, work => do
      match ← work.next codec crc32 host with
      | none => pure ()
      | some rest => finish calls rest

end FileWork

/-! ## Steps and runs -/

/-- A cache, its directory, and the work that calls have left. -/
structure Shared (Id Item Seg Index : Type) [LinearOrder Id]
    extends Cached Id Item Seg Index where
  works : List (SidecarHost × FileWork Id Index)

/-- One step of some thread, or a change of the files by others. -/
inductive SharedStep (Id Item Seg Index : Type) [LinearOrder Id]
  | getOrBuild (host : SidecarHost) (key : SidecarKey Id) (build : Unit → Option Index)
  | persist (host : SidecarHost) (key : SidecarKey Id)
  | persistMissing (host : SidecarHost) (segmentIds : List UInt64) (rank : SidecarKey Id → Nat)
  | invalidate (host : SidecarHost) (segmentId : UInt64)
  | retain (segmentIds : List UInt64)
  | work (i : Nat)
  | files (dir : Directory Id Item Seg)

/-- A step that was taken: the state it found, and what `get_or_build` returned
in it. -/
structure Taken (Id Item Seg Index : Type) [LinearOrder Id] where
  before : Shared Id Item Seg Index
  step : SharedStep Id Item Seg Index
  got : Option (Got Index)

namespace Shared

/-- A new cache. -/
def start (dir : Directory Id Item Seg) : Shared Id Item Seg Index where
  entries := ∅
  dir := dir
  works := []

/-- Leave work for after the lock. -/
def leave (host : SidecarHost) (work : FileWork Id Index) (s : Shared Id Item Seg Index) :
    Shared Id Item Seg Index :=
  { s with works := s.works ++ [(host, work)] }

/-- Change the entries. -/
def mapEntries (f : EntryMap Id Index → EntryMap Id Index) (s : Shared Id Item Seg Index) :
    Shared Id Item Seg Index :=
  { s with entries := f s.entries }

variable (codec : SidecarCodec Id Index) (crc32 : List UInt8 → UInt32)

/-- One call on the directory for the work at position `i`. -/
def doWork (i : Nat) (s : Shared Id Item Seg Index) : Shared Id Item Seg Index :=
  match s.works[i]? with
  | none => s
  | some (host, work) =>
      match work.next codec crc32 host s.dir with
      | (.ok (some rest), dir) => { s with dir := dir, works := s.works.set i (host, rest) }
      | (_, dir) => { s with dir := dir, works := s.works.eraseIdx i }

/-- One step: the next state, and what `get_or_build` returned. -/
def step (s : Shared Id Item Seg Index) :
    SharedStep Id Item Seg Index → Shared Id Item Seg Index × Option (Got Index)
  | .getOrBuild host key build =>
      let run := SidecarCache.getOrBuild codec crc32 host key build s.toCached
      ({ s with toCached := run.2 },
        match run.1 with
        | .ok got => some got
        | _ => none)
  | .persist host key =>
      match s.entries.lookup key with
      | none => (s, none)
      | some index => (s.leave host (.store key index), none)
  | .persistMissing host segmentIds rank =>
      (s.leave host (.look (s.entries.pending segmentIds rank)), none)
  | .invalidate host segmentId =>
      ((s.mapEntries (EntryMap.dropSegment segmentId)).leave host (.find segmentId), none)
  | .retain segmentIds => (s.mapEntries (EntryMap.retainSegments segmentIds), none)
  | .work i => (s.doWork codec crc32 i, none)
  | .files dir => ({ s with dir := dir }, none)

/-- The state after some steps. -/
def after (s : Shared Id Item Seg Index) :
    List (SharedStep Id Item Seg Index) → Shared Id Item Seg Index
  | [] => s
  | a :: steps => (s.step codec crc32 a).1.after steps

/-- A step from the state `s`, as it was taken. -/
def taken (s : Shared Id Item Seg Index) (a : SharedStep Id Item Seg Index) :
    Taken Id Item Seg Index where
  before := s
  step := a
  got := (s.step codec crc32 a).2

/-- The steps of a run as they were taken. -/
def trace (s : Shared Id Item Seg Index) :
    List (SharedStep Id Item Seg Index) → List (Taken Id Item Seg Index)
  | [] => []
  | a :: steps => s.taken codec crc32 a :: (s.step codec crc32 a).1.trace steps

end Shared
/-! ## Calls that nothing interrupts -/

namespace FileWork

variable (codec : SidecarCodec Id Index) (crc32 : List UInt8 → UInt32) (host : SidecarHost)

theorem finish_store (key : SidecarKey Id) (index : Index) (calls : Nat) :
    (FileWork.store key index).finish codec crc32 host (calls + 1) =
      (codec.writeEntry crc32 host key index : DirM Id Item Seg Unit) := by
  simp [finish, next]

theorem finish_look (pending : List (SidecarKey Id × Index)) {calls : Nat}
    (hcalls : 2 * pending.length < calls) :
    (FileWork.look pending).finish codec crc32 host calls =
      (do
        let _ ← codec.writeMissing crc32 host pending
        pure () : DirM Id Item Seg Unit) := by
  induction pending generalizing calls with
  | nil =>
      obtain ⟨calls, rfl⟩ := Nat.exists_eq_add_one_of_ne_zero (Nat.ne_of_gt hcalls)
      simp [finish, next, SidecarCodec.writeMissing]
  | cons p pending ih =>
      obtain ⟨key, index⟩ := p
      obtain ⟨calls, rfl⟩ : ∃ n, calls = n + 2 := ⟨calls - 2, by grind⟩
      have ih' := @ih calls (by grind)
      have ih'' := @ih (calls + 1) (by grind)
      rw [finish]
      simp only [next, SidecarCodec.writeMissing, bind_assoc]
      congr 1
      funext name
      congr 1
      funext there
      cases there with
      | true => simp [ih'']
      | false => simp [finish, next, ih']

theorem finish_find (segmentId : UInt64) (calls : Nat) :
    (FileWork.find segmentId : FileWork Id Index).finish codec crc32 host (calls + 2) =
      (codec.dropSidecar host segmentId : DirM Id Item Seg Unit) := by
  rw [finish]
  simp only [next, SidecarCodec.dropSidecar, Directory.deleteSidecar, bind_assoc]
  congr 1
  funext name
  congr 1
  funext there
  cases there with
  | true => simp [finish, next]
  | false => simp

end FileWork

/-! ## One step -/

namespace EntryMap

/-- No two entries are for one segment. -/
def Single (entries : EntryMap Id Index) : Prop :=
  ∀ key key' index index', entries.lookup key = some index →
    entries.lookup key' = some index' → key.segmentId = key'.segmentId → key = key'

variable {entries : EntryMap Id Index}

/-- Fewer entries. -/
theorem Single.mono {entries' : EntryMap Id Index} (h : entries.Single)
    (hsub : ∀ key index, entries'.lookup key = some index → entries.lookup key = some index) :
    entries'.Single := fun key key' index index' hkey hkey' =>
  h key key' index index' (hsub key index hkey) (hsub key' index' hkey')

theorem Single.put (h : entries.Single) (key : SidecarKey Id) (index : Index) :
    (entries.put key index).Single := by
  intro k k' x x' hk hk' hseg
  rcases of_lookup_put hk with ⟨rfl, -⟩ | ⟨hne, hk⟩
  · rcases of_lookup_put hk' with ⟨rfl, -⟩ | ⟨hne, -⟩
    · rfl
    · exact absurd hseg.symm hne
  · rcases of_lookup_put hk' with ⟨rfl, -⟩ | ⟨-, hk'⟩
    · exact absurd hseg hne
    · exact h k k' x x' hk hk' hseg

end EntryMap

namespace Taken

/-- In this step `get_or_build` returned an index for the key. -/
def Returns (t : Taken Id Item Seg Index) (key : SidecarKey Id) (index : Index) : Prop :=
  ∃ host build got, t.step = .getOrBuild host key build ∧ t.got = some got ∧
    got.index? = some index

/-- In this step a build for the key succeeded. -/
def Builds (t : Taken Id Item Seg Index) (key : SidecarKey Id) : Prop :=
  ∃ host build index, t.step = .getOrBuild host key build ∧ t.got = some (.built index)

/-- In this step the index was obtained for the key: it was built by the closure
that was passed with the key, or it was decoded from a file whose envelope has the
key's segment id, and accepted for the key's live ids. -/
def Obtains (codec : SidecarCodec Id Index) (crc32 : List UInt8 → UInt32)
    (t : Taken Id Item Seg Index) (key : SidecarKey Id) (index : Index) : Prop :=
  ∃ host build, t.step = .getOrBuild host key build ∧
    (t.got = some (.built index) ∧ build () = some index ∨
      t.got = some (.loaded index) ∧ codec.Finds crc32 host key t.before.dir index)

end Taken

/-- A step that leaves the entry of the key alone, unless it serves that key. -/
def SharedStep.Calm (key : SidecarKey Id) : SharedStep Id Item Seg Index → Prop
  | .getOrBuild _ other _ => other.segmentId = key.segmentId → other = key
  | .invalidate _ segmentId => segmentId ≠ key.segmentId
  | .retain segmentIds => key.segmentId ∈ segmentIds
  | _ => True

namespace Shared

variable (codec : SidecarCodec Id Index) (crc32 : List UInt8 → UInt32)
variable (s : Shared Id Item Seg Index)

theorem step_getOrBuild (host : SidecarHost) (key : SidecarKey Id)
    (build : Unit → Option Index) : ∃ r, SidecarCache.Serves codec crc32 host key build s.toCached
        r (s.step codec crc32 (.getOrBuild host key build)).1.entries ∧
      ∀ got, (s.step codec crc32 (.getOrBuild host key build)).2 = some got ↔ r = .ok got := by
  refine ⟨_, (SidecarCache.getOrBuild_ends codec crc32 host key build s.toCached).2,
    fun got => ?_⟩
  rw [step]
  cases (SidecarCache.getOrBuild codec crc32 host key build s.toCached).1 <;> simp

/-- Every other step drops entries at most. -/
theorem step_other {a : SharedStep Id Item Seg Index}
    (ha : ∀ host key build, a ≠ .getOrBuild host key build) :
    (s.step codec crc32 a).2 = none ∧ ((s.step codec crc32 a).1.entries = s.entries ∨
      (∃ host segmentId, a = .invalidate host segmentId ∧
        (s.step codec crc32 a).1.entries = s.entries.dropSegment segmentId) ∨
      ∃ segmentIds, a = .retain segmentIds ∧
        (s.step codec crc32 a).1.entries = s.entries.retainSegments segmentIds) := by
  cases a with
  | getOrBuild host key build => exact absurd rfl (ha host key build)
  | persist host key =>
      rw [step]
      split
      · exact ⟨rfl, .inl rfl⟩
      · exact ⟨rfl, .inl rfl⟩
  | persistMissing host segmentIds rank => exact ⟨rfl, .inl rfl⟩
  | invalidate host segmentId => exact ⟨rfl, .inr (.inl ⟨host, segmentId, rfl, rfl⟩)⟩
  | retain segmentIds => exact ⟨rfl, .inr (.inr ⟨segmentIds, rfl, rfl⟩)⟩
  | work i =>
      refine ⟨rfl, .inl ?_⟩
      rw [step, doWork]
      split
      · rfl
      · split <;> rfl
  | files dir => exact ⟨rfl, .inl rfl⟩

variable {codec crc32 s}

theorem step_single (h : s.entries.Single) (a : SharedStep Id Item Seg Index) :
    (s.step codec crc32 a).1.entries.Single := by
  by_cases ha : ∃ host key build, a = .getOrBuild host key build
  · obtain ⟨host, key, build, rfl⟩ := ha
    obtain ⟨r, hserves, -⟩ := s.step_getOrBuild codec crc32 host key build
    generalize (s.step codec crc32 (.getOrBuild host key build)).1.entries = entries at *
    cases hserves with
    | hit => exact h
    | loaded => exact h.put key _
    | built => exact h.put key _
    | nothing => exact h
    | stopped => exact h
  · obtain ⟨-, heq | ⟨_, segmentId, -, heq⟩ | ⟨segmentIds, -, heq⟩⟩ :=
      s.step_other codec crc32 fun host key build heq => ha ⟨host, key, build, heq⟩
    · exact heq ▸ h
    · exact heq ▸ h.mono fun _ _ => EntryMap.of_lookup_dropSegment
    · exact heq ▸ h.mono fun _ _ => EntryMap.of_lookup_retainSegments

/-- An entry was there before, or it was obtained in this step. -/
theorem step_origin {a : SharedStep Id Item Seg Index} {key : SidecarKey Id} {index : Index}
    (h : (s.step codec crc32 a).1.entries.lookup key = some index) :
    s.entries.lookup key = some index ∨ (s.taken codec crc32 a).Obtains codec crc32 key index := by
  by_cases ha : ∃ host key build, a = .getOrBuild host key build
  · obtain ⟨host, k, build, rfl⟩ := ha
    obtain ⟨r, hserves, hgot⟩ := s.step_getOrBuild codec crc32 host k build
    generalize (s.step codec crc32 (.getOrBuild host k build)).1.entries = entries at *
    cases hserves with
    | hit => exact .inl h
    | @loaded x _ hfinds =>
        rcases EntryMap.of_lookup_put h with ⟨rfl, rfl⟩ | ⟨-, h⟩
        · exact .inr ⟨host, build, rfl, .inr ⟨(hgot _).mpr rfl, hfinds⟩⟩
        · exact .inl h
    | @built x _ hbuild =>
        rcases EntryMap.of_lookup_put h with ⟨rfl, rfl⟩ | ⟨-, h⟩
        · exact .inr ⟨host, build, rfl, .inl ⟨(hgot _).mpr rfl, hbuild⟩⟩
        · exact .inl h
    | nothing => exact .inl h
    | stopped => exact .inl h
  · obtain ⟨-, heq | ⟨_, segmentId, -, heq⟩ | ⟨segmentIds, -, heq⟩⟩ :=
      s.step_other codec crc32 fun host key build heq => ha ⟨host, key, build, heq⟩
    · exact .inl (heq ▸ h)
    · rw [heq] at h
      exact .inl (EntryMap.of_lookup_dropSegment h)
    · rw [heq] at h
      exact .inl (EntryMap.of_lookup_retainSegments h)

/-- What `get_or_build` returns is cached. -/
theorem lookup_of_returns {a : SharedStep Id Item Seg Index} {key : SidecarKey Id}
    {index : Index} (h : (s.taken codec crc32 a).Returns key index) :
    (s.step codec crc32 a).1.entries.lookup key = some index := by
  obtain ⟨host, build, got, ha, hgot, hindex⟩ := h
  obtain rfl : a = .getOrBuild host key build := ha
  obtain ⟨r, hserves, hr⟩ := s.step_getOrBuild codec crc32 host key build
  obtain rfl := (hr got).mp hgot
  generalize (s.step codec crc32 (.getOrBuild host key build)).1.entries = entries at *
  have hput : ∀ {x : Index}, some x = some index →
      (s.entries.put key x).lookup key = some index := by
    rintro x ⟨⟩
    rw [EntryMap.lookup_put, if_pos rfl]
  cases hserves with
  | hit h => exact h.trans hindex
  | loaded => exact hput hindex
  | built => exact hput hindex
  | nothing => cases hindex

/-- A build that succeeds finds no entry. -/
theorem lookup_of_builds {a : SharedStep Id Item Seg Index} {key : SidecarKey Id}
    (h : (s.taken codec crc32 a).Builds key) : s.entries.lookup key = none := by
  obtain ⟨host, build, index, ha, hgot⟩ := h
  obtain rfl : a = .getOrBuild host key build := ha
  obtain ⟨r, hserves, hr⟩ := s.step_getOrBuild codec crc32 host key build
  obtain rfl := (hr _).mp hgot
  generalize (s.step codec crc32 (.getOrBuild host key build)).1.entries = entries at *
  cases hserves with
  | built hnone => exact hnone

/-- An entry stays through a calm step. -/
theorem lookup_step_calm {a : SharedStep Id Item Seg Index} {key : SidecarKey Id}
    {index : Index} (h : s.entries.lookup key = some index) (ha : a.Calm key) :
    (s.step codec crc32 a).1.entries.lookup key = some index := by
  by_cases hgob : ∃ host key build, a = .getOrBuild host key build
  · obtain ⟨host, k, build, rfl⟩ := hgob
    obtain ⟨r, hserves, -⟩ := s.step_getOrBuild codec crc32 host k build
    generalize (s.step codec crc32 (.getOrBuild host k build)).1.entries = entries at *
    have hput : ∀ {x : Index}, s.entries.lookup k = none →
        (s.entries.put k x).lookup key = some index := by
      intro x hnone
      have hne : key ≠ k := by
        rintro rfl
        rw [h] at hnone
        cases hnone
      rw [EntryMap.lookup_put, if_neg hne, if_neg fun hseg => hne (ha hseg.symm).symm]
      exact h
    cases hserves with
    | hit => exact h
    | loaded hnone => exact hput hnone
    | built hnone => exact hput hnone
    | nothing => exact h
    | stopped => exact h
  · obtain ⟨-, heq | ⟨_, segmentId, rfl, heq⟩ | ⟨segmentIds, rfl, heq⟩⟩ :=
      s.step_other codec crc32 fun host key build heq => hgob ⟨host, key, build, heq⟩
    · rw [heq]
      exact h
    · rw [heq, EntryMap.lookup_dropSegment, if_neg (Ne.symm ha)]
      exact h
    · have hmem : key.segmentId ∈ segmentIds := ha
      rw [heq, EntryMap.lookup_retainSegments, if_pos hmem]
      exact h

/-! ## Runs -/

theorem after_append (codec : SidecarCodec Id Index) (crc32 : List UInt8 → UInt32)
    (s : Shared Id Item Seg Index) (steps more : List (SharedStep Id Item Seg Index)) :
    s.after codec crc32 (steps ++ more) = (s.after codec crc32 steps).after codec crc32 more := by
  induction steps generalizing s with
  | nil => rfl
  | cons a steps ih => exact ih _

theorem after_single (h : s.entries.Single) (steps : List (SharedStep Id Item Seg Index)) :
    (s.after codec crc32 steps).entries.Single := by
  induction steps generalizing s with
  | nil => exact h
  | cons a steps ih => exact ih (step_single h a)

/-- Every entry was obtained at some step of the run. -/
theorem after_origin (past : List (Taken Id Item Seg Index))
    (h : ∀ key index, s.entries.lookup key = some index →
      ∃ t ∈ past, t.Obtains codec crc32 key index)
    (steps : List (SharedStep Id Item Seg Index)) {key : SidecarKey Id} {index : Index}
    (hkey : (s.after codec crc32 steps).entries.lookup key = some index) :
    ∃ t ∈ past ++ s.trace codec crc32 steps, t.Obtains codec crc32 key index := by
  induction steps generalizing s past with
  | nil => simpa [trace] using h key index hkey
  | cons a steps ih =>
      have hnext : ∀ key index, (s.step codec crc32 a).1.entries.lookup key = some index →
          ∃ t ∈ past ++ [s.taken codec crc32 a], t.Obtains codec crc32 key index := by
        intro key index hkey
        rcases step_origin hkey with hkey | hkey
        · obtain ⟨t, ht, hobtains⟩ := h key index hkey
          exact ⟨t, List.mem_append_left _ ht, hobtains⟩
        · exact ⟨_, List.mem_append_right _ List.mem_cons_self, hkey⟩
      simpa [trace] using ih _ hnext hkey

/-- As long as the key has an entry, it is returned, and nothing is built. -/
theorem stretch_cached {key : SidecarKey Id} {index : Index}
    (h : s.entries.lookup key = some index) {stretch : List (SharedStep Id Item Seg Index)}
    (hcalm : ∀ a ∈ stretch, a.Calm key) : ∀ t ∈ s.trace codec crc32 stretch,
      ¬ t.Builds key ∧ ∀ other, t.Returns key other → other = index := by
  induction stretch generalizing s with
  | nil => simp [trace]
  | cons a stretch ih =>
      have hnext : (s.step codec crc32 a).1.entries.lookup key = some index :=
        lookup_step_calm h (hcalm a List.mem_cons_self)
      rw [trace, List.forall_mem_cons]
      refine ⟨⟨fun hbuilds => ?_, fun other hreturns => ?_⟩,
        ih hnext fun b hb => hcalm b (List.mem_cons_of_mem _ hb)⟩
      · have hnone := lookup_of_builds hbuilds
        rw [h] at hnone
        cases hnone
      · have hother := lookup_of_returns hreturns
        rw [hnext] at hother
        exact (Option.some.inj hother).symm

/-- In a calm stretch one build succeeds at most, and one index is returned. -/
theorem stretch_agrees {key : SidecarKey Id} {stretch : List (SharedStep Id Item Seg Index)}
    (hcalm : ∀ a ∈ stretch, a.Calm key) :
    (s.trace codec crc32 stretch).Pairwise (fun t u => ¬ (t.Builds key ∧ u.Builds key)) ∧
      ∀ t ∈ s.trace codec crc32 stretch, ∀ u ∈ s.trace codec crc32 stretch,
        ∀ index other, t.Returns key index → u.Returns key other → index = other := by
  induction stretch generalizing s with
  | nil => simp [trace]
  | cons a stretch ih =>
      have hrest := fun b hb => hcalm b (List.mem_cons_of_mem a hb)
      rw [trace, List.pairwise_cons]
      generalize hentry : (s.step codec crc32 a).1.entries.lookup key = entry
      cases entry with
      | some x =>
          -- from here on the key has an entry
          have hlater : ∀ t ∈ (s.step codec crc32 a).1.trace codec crc32 stretch,
              ¬ t.Builds key ∧ ∀ other, t.Returns key other → other = x :=
            stretch_cached hentry hrest
          have hreturn : ∀ t ∈ s.taken codec crc32 a ::
              (s.step codec crc32 a).1.trace codec crc32 stretch,
              ∀ index, t.Returns key index → index = x := by
            rw [List.forall_mem_cons]
            refine ⟨fun index hreturns => ?_, fun t ht => (hlater t ht).2⟩
            exact Option.some.inj ((lookup_of_returns hreturns).symm.trans hentry)
          refine ⟨⟨fun u hu hboth => (hlater u hu).1 hboth.2, (ih hrest).1⟩, ?_⟩
          exact fun t ht u hu index other hindex hother =>
            (hreturn t ht index hindex).trans (hreturn u hu other hother).symm
      | none =>
          have hsilent : ∀ index, ¬ (s.taken codec crc32 a).Returns key index := by
            intro index hreturns
            have hsome := lookup_of_returns hreturns
            rw [hentry] at hsome
            cases hsome
          obtain ⟨hbuilds, hagree⟩ := ih hrest
          refine ⟨⟨?_, hbuilds⟩, ?_⟩
          · rintro u - ⟨⟨host, build, index, hstep, hgot⟩, -⟩
            exact hsilent index ⟨host, build, _, hstep, hgot, rfl⟩
          · intro t ht u hu index other hindex hother
            rcases List.mem_cons.mp ht with rfl | ht
            · exact absurd hindex (hsilent index)
            · rcases List.mem_cons.mp hu with rfl | hu
              · exact absurd hother (hsilent other)
              · exact hagree t ht u hu index other hindex hother

end Shared

/-- Whatever the order of the steps of threads that share a cache, and whatever
becomes of the files in between: one entry for each segment at most; an index
that is returned was obtained for the very key; and in a stretch that is calm for
a key one build succeeds at most, and all calls return one index. -/
theorem shared_cache_safe (codec : SidecarCodec Id Index) (crc32 : List UInt8 → UInt32)
    (dir : Directory Id Item Seg) (steps : List (SharedStep Id Item Seg Index)) :
    ((Shared.start dir).after codec crc32 steps).entries.Single ∧
      (∀ earlier a later, steps = earlier ++ a :: later → ∀ key index,
        (((Shared.start dir).after codec crc32 earlier).taken codec crc32 a).Returns key index →
          ∃ t ∈ (Shared.start dir).trace codec crc32 (earlier ++ [a]),
            t.Obtains codec crc32 key index) ∧
      ∀ earlier stretch later, steps = earlier ++ stretch ++ later → ∀ key,
        (∀ a ∈ stretch, a.Calm key) →
          let trace := ((Shared.start dir).after codec crc32 earlier).trace codec crc32 stretch
          trace.Pairwise (fun t u => ¬ (t.Builds key ∧ u.Builds key)) ∧
            ∀ t ∈ trace, ∀ u ∈ trace, ∀ index other,
              t.Returns key index → u.Returns key other → index = other := by
  have hnone : ∀ key, (Shared.start dir : Shared Id Item Seg Index).entries.lookup key = none :=
    fun _ => rfl
  refine ⟨Shared.after_single (fun key _ _ _ hkey => ?_) steps, ?_,
    fun _ _ _ _ key hcalm => Shared.stretch_agrees hcalm⟩
  · rw [hnone] at hkey
    cases hkey
  · intro earlier a later _ key index hreturns
    have hafter : ((Shared.start dir).after codec crc32 (earlier ++ [a])).entries.lookup key =
        some index := by
      rw [Shared.after_append]
      exact Shared.lookup_of_returns hreturns
    have horigin := Shared.after_origin [] (fun k x hk => ?_) _ hafter
    · simpa using horigin
    · rw [hnone] at hk
      cases hk

end Segstore
