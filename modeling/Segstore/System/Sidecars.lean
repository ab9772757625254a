import Segstore.Sidecar.Files
import Segstore.System.Garbage

/-!
# A writer and its sidecars

Runs that mix calls on the store, calls on a sidecar cache, stops and opens, in
a directory that others use as well.  An id that was given to a segment may be
given to another one after a stop, as long as no manifest has named it; its
sidecar is gone by then, since `open` deletes the sidecars of all ids the
manifest does not name.  `Serving` says of every sidecar and of every entry of
the cache that it was built from the live pairs of its segment, for the live ids
of some moment.
-/

namespace Segstore

/-! ## The live part of a segment -/

namespace Contents

section Reading

variable {Id Item Seg : Type} [LinearOrder Id]

/-- The segment at the position of the id. -/
def segmentAt (c : Contents Id Item Seg) (segId : Nat) : Option Seg :=
  (c.segmentIds.findIdx? (· == segId)).bind (fun position => c.segments[position]?)

/-- `live_ids`. -/
def liveIds (st : Store Id Item Seg) (c : Contents Id Item Seg) (segId : Nat) :
    Option (LiveIds Id) :=
  (c.segmentAt segId).bind (fun seg =>
    (st.itemIds seg).map (fun ids => .new (ids.filter (c.isLiveIn segId))))

/-- The live pairs of a segment. -/
def liveSegmentEntries (c : Contents Id Item (List (Id × Item))) (segId : Nat) : List (Id × Item) :=
  ((c.segmentAt segId).getD []).filter (fun e => c.isLiveIn segId e.1)

omit [LinearOrder Id] in
theorem segmentAt_eq_some {c : Contents Id Item Seg} (hc : c.Shape) {segId : Nat} {seg : Seg} :
    c.segmentAt segId = some seg ↔ (segId, seg) ∈ c.sealed := by
  have hfound : ∀ {i : Nat}, c.segmentIds.findIdx? (· == segId) = some i →
      ∀ {seg : Seg}, c.segments[i]? = some seg → (segId, seg) ∈ c.sealed := by
    intro i hi seg hseg
    obtain ⟨hlt, hid, -⟩ := List.findIdx?_eq_some_iff_getElem.mp hi
    obtain ⟨hlt', hseg⟩ := List.getElem?_eq_some_iff.mp hseg
    refine List.mem_iff_getElem.mpr ⟨i, ?_, ?_⟩
    · simp only [PubState.sealed, List.length_zip]
      omega
    · simp only [PubState.sealed, List.getElem_zip, hseg]
      rw [beq_iff_eq.mp hid]
  rw [segmentAt]
  constructor
  · intro h
    obtain ⟨i, hi, hseg⟩ := Option.bind_eq_some_iff.mp h
    exact hfound hi hseg
  · intro hmem
    cases hi : c.segmentIds.findIdx? (· == segId) with
    | none =>
        have hno := List.findIdx?_eq_none_iff.mp hi segId (fst_mem_of_mem_sealed hmem)
        simp at hno
    | some i =>
        obtain ⟨hlt, -⟩ := List.findIdx?_eq_some_iff_getElem.mp hi
        have hseg : c.segments[i]? = some (c.segments.get ⟨i, hc.len ▸ hlt⟩) :=
          List.getElem?_eq_getElem _
        rw [Option.bind_some, hseg, sealed_unique hc.sorted (hfound hi hseg) hmem]

/-- The live ids are those of the live pairs. -/
theorem liveIds_default {c : Contents Id Item (List (Id × Item))} {segId : Nat}
    {entries : List (Id × Item)} (h : c.segmentAt segId = some entries) :
    c.liveIds (defaultStore Id Item) segId =
      some (.new ((c.liveSegmentEntries segId).map Prod.fst)) := by
  rw [liveIds, liveSegmentEntries, h]
  simp only [Option.bind_some, Option.getD_some, defaultStore, Option.map_some, List.filter_map]
  rfl

end Reading

end Contents

/-! ## Runs with a cache -/

variable {Id Item F Index : Type} [LinearOrder Id]

/-- The calls on a cache whose host is the writer. -/
inductive CacheCall (Id : Type) [LinearOrder Id]
  | getOrBuild (segmentId : UInt64)
  | persist (key : SidecarKey Id)
  | persistMissing (segmentIds : List UInt64) (rank : SidecarKey Id → Nat)
  | invalidate (segmentId : UInt64)
  | retain (segmentIds : List UInt64)

/-- Execute a call.  `get_or_build` asks for the live ids of a current segment,
and builds from its live pairs. -/
def CacheCall.exec (codec : SidecarCodec Id Index) (crc32 : List UInt8 → UInt32)
    (f : List (Id × Item) → Index) (c : Contents Id Item (List (Id × Item))) :
    CacheCall Id → CacheM Id Item (List (Id × Item)) Index (Option Index)
  | .getOrBuild segmentId =>
      match c.liveIds (defaultStore Id Item) segmentId.toNat with
      | none => pure none
      | some live => do
          let got ← SidecarCache.getOrBuild codec crc32 indexSidecarName ⟨segmentId, live⟩
            (fun _ => some (f (c.liveSegmentEntries segmentId.toNat)))
          pure got.index?
  | .persist key => do
      let _ ← SidecarCache.persist codec crc32 indexSidecarName key
      pure none
  | .persistMissing segmentIds rank => do
      let _ ← SidecarCache.persistMissing codec crc32 indexSidecarName segmentIds rank
      pure none
  | .invalidate segmentId => do
      SidecarCache.invalidate codec indexSidecarName segmentId
      pure none
  | .retain segmentIds => do
      SidecarCache.retain segmentIds
      pure none

/-- A process, and the sidecar cache of its writer. -/
structure Consumer (Id Item F Index : Type) [LinearOrder Id] where
  proc : Proc Id Item (List (Id × Item)) F
  entries : EntryMap Id Index

/-- What happens: to the store and its directory, or to the cache. -/
inductive ConsumerAct (Id Item F : Type) [LinearOrder Id]
  | act (a : Act Id Item (List (Id × Item)) F)
  | cache (call : CacheCall Id) (fates : List (Call → Fate))

namespace ConsumerAct

/-- Listing and deleting do not fail in the store, and nobody else writes
sidecars of this kind. -/
def Allowed (kind : String) : ConsumerAct Id Item F → Prop
  | .act (.write name _) => Foreign name ∧ ∀ id, indexSidecarName id kind ≠ .ok name
  | .act a => a.Allowed
  | .cache _ _ => True

end ConsumerAct

namespace Consumer

variable (codec : SidecarCodec Id Index) (crc32 : List UInt8 → UInt32)
variable (f : List (Id × Item) → Index)

/-- The run of a call on the cache. -/
def call (s : SegmentedStore Id Item (List (Id × Item)) F) (entries : EntryMap Id Index)
    (c : CacheCall Id) (fates : List (Call → Fate)) :
    Outcome PersistenceError (Option Index) × Cached Id Item (List (Id × Item)) Index :=
  c.exec codec crc32 f s.toContents { entries := entries, dir := (Proc.armed s fates).dir }

/-- The process and the cache after a call on the cache. -/
def afterCall (s : SegmentedStore Id Item (List (Id × Item)) F)
    (run : Outcome PersistenceError (Option Index) × Cached Id Item (List (Id × Item)) Index) :
    Consumer Id Item F Index where
  proc := match run.1 with
    | .crash => .closed run.2.dir
    | _ => .running { s with dir := run.2.dir }
  entries := run.2.entries

variable [F64 F]

/-- One step.  Every open comes with a new cache. -/
def step (p : Consumer Id Item F Index) : ConsumerAct Id Item F → Consumer Id Item F Index
  | .act a =>
      { proc := p.proc.act (defaultStore Id Item) a
        entries := match a with
          | .own (.reopen _ _ _) => ∅
          | _ => p.entries }
  | .cache c fates =>
      match p.proc with
      | .closed _ => p
      | .running s => afterCall s (call codec crc32 f s p.entries c fates)

/-- A run. -/
def run (p : Consumer Id Item F Index) (acts : List (ConsumerAct Id Item F)) :
    Consumer Id Item F Index :=
  acts.foldl (step codec crc32 f) p

end Consumer

/-! ## The invariant -/

section Invariant

variable (f : List (Id × Item) → Index)

/-- The index was built from those of the entries whose ids are in `live`, and
their ids are all of `live`. -/
structure BuiltFor (live : LiveIds Id) (entries : List (Id × Item)) (index : Index) : Prop where
  index_eq : index = f (entries.filter (fun e => decide (e.1 ∈ live.ids)))
  live_eq : .new ((entries.filter (fun e => decide (e.1 ∈ live.ids))).map Prod.fst) = live

/-- The id was given to a segment, and the index was built from whatever segment
the view has under the id. -/
structure ValidFor (view : Nat × List (Id × Item) → Prop) (next : Nat) (segmentId : UInt64)
    (live : LiveIds Id) (index : Index) : Prop where
  lt : segmentId.toNat < next
  built : ∀ entries, view (segmentId.toNat, entries) → BuiltFor f live entries index

variable (codec : SidecarCodec Id Index) (crc32 : List UInt8 → UInt32)

/-- A directory without a writer. -/
structure Shelved (d : Directory Id Item (List (Id × Item)))
    (im : Image Id (List (Id × Item))) : Prop where
  coherent : d.Coherent im
  stored : ∀ segmentId index, codec.Stored crc32 d.files segmentId index →
    ∃ live, ∀ entries, (segmentId.toNat, entries) ∈ im.sealed → BuiltFor f live entries index

/-- The segments that the writer or the manifest has. -/
def Known (s : SegmentedStore Id Item (List (Id × Item)) F) (im : Image Id (List (Id × Item)))
    (p : Nat × List (Id × Item)) : Prop :=
  p ∈ s.sealed ∨ p ∈ im.sealed

/-- A writer with the entries of its cache. -/
structure Serving (s : SegmentedStore Id Item (List (Id × Item)) F)
    (im : Image Id (List (Id × Item))) (entries : EntryMap Id Index) : Prop where
  framed : Framed s im
  current : Current s im
  bounded : Bounded s
  stored : ∀ segmentId index, codec.Stored crc32 s.dir.files segmentId index →
    ∃ live, ValidFor f (Known s im) s.nextSegId segmentId live index
  cached : ∀ key index, entries.lookup key = some index →
    ValidFor f (Known s im) s.nextSegId key.segmentId key.liveIds index

/-- What holds between two acts. -/
def Consumer.Sound (p : Consumer Id Item F Index) : Prop :=
  match p.proc with
  | .closed d => ∃ im, Shelved f codec crc32 d im
  | .running s => ∃ im, Serving f codec crc32 s im p.entries

end Invariant

variable {f : List (Id × Item) → Index}
variable {codec : SidecarCodec Id Index} {crc32 : List UInt8 → UInt32}

omit [LinearOrder Id] in
/-- What is known later and has an id of before was known before. -/
theorem Guar.known {s t : SegmentedStore Id Item (List (Id × Item)) F}
    {im im' : Image Id (List (Id × Item))} (h : Guar s im t im') {p : Nat × List (Id × Item)}
    (hp : Known t im' p) : Known s im p ∨ s.nextSegId ≤ p.1 := by
  rcases hp with hp | hp
  · exact (h.grows.mem_sealed p hp).imp_left .inl
  · rcases h.image p hp with hp | hp | hp
    · exact .inl (.inr hp)
    · exact .inl (.inl hp)
    · exact .inr hp

/-- A view that has nothing new under the ids given out so far. -/
theorem ValidFor.mono {view view' : Nat × List (Id × Item) → Prop} {next next' : Nat}
    {segmentId : UInt64} {live : LiveIds Id} {index : Index}
    (h : ValidFor f view next segmentId live index) (hnext : next ≤ next')
    (hview : ∀ p, view' p → view p ∨ next ≤ p.1) :
    ValidFor f view' next' segmentId live index where
  lt := h.lt.trans_le hnext
  built := fun entries hentries =>
    (hview _ hentries).elim (h.built entries) fun hle => absurd h.lt (Nat.not_lt_of_le hle)

/-- Sidecars that were at most deleted. -/
theorem SidecarCodec.Stored.of_index {files files' : Files Id Item (List (Id × Item))}
    (h : ∀ name, familyOf name = some 'i' →
      files'.lookup name = files.lookup name ∨ files'.lookup name = none)
    {segmentId : UInt64} {index : Index} (hstored : codec.Stored crc32 files' segmentId index) :
    codec.Stored crc32 files segmentId index := by
  obtain ⟨name, bytes, payload, hname, hfile, hdecode⟩ := hstored
  refine ⟨name, bytes, payload, hname, ?_, hdecode⟩
  rcases h name (familyOf_of_idxSegId (idxSegId_indexSidecarName hname)) with heq | hnone
  · rw [← heq, hfile]
  · rw [hnone] at hfile
    cases hfile

/-- The filter by the live ids is the filter by life. -/
theorem builtFor_live {live : Id → Bool} (entries : List (Id × Item)) :
    BuiltFor f (.new ((entries.filter (fun e => live e.1)).map Prod.fst)) entries
      (f (entries.filter (fun e => live e.1))) := by
  have hfilter : entries.filter (fun e => decide (e.1 ∈ (LiveIds.new
      ((entries.filter (fun e => live e.1)).map Prod.fst)).ids)) =
        entries.filter (fun e => live e.1) := by
    refine List.filter_congr fun e he => ?_
    rw [Bool.eq_iff_iff, decide_eq_true_iff, LiveIds.mem_new, List.mem_map]
    constructor
    · rintro ⟨e', he', heq⟩
      rw [← heq]
      exact (List.mem_filter.mp he').2
    · exact fun hlive => ⟨e, List.mem_filter.mpr ⟨he, hlive⟩, rfl⟩
  exact ⟨congrArg f hfilter.symm, by rw [hfilter]⟩

namespace Serving

variable {s : SegmentedStore Id Item (List (Id × Item)) F} {im : Image Id (List (Id × Item))}
variable {entries : EntryMap Id Index}

theorem shelved (h : Serving f codec crc32 s im entries) : Shelved f codec crc32 s.dir im where
  coherent := h.framed.disk
  stored := fun segmentId index hstored =>
    (h.stored segmentId index hstored).imp fun _ hvalid es hes => hvalid.built es (.inr hes)

/-- The writer and the manifest agree on the segments they both have. -/
theorem known_unique (h : Serving f codec crc32 s im entries) {k : Nat}
    {es es' : List (Id × Item)} (hes : (k, es) ∈ s.sealed) (hes' : Known s im (k, es')) :
    es' = es := by
  rcases hes' with hes' | hes'
  · exact Contents.sealed_unique h.framed.shape.sorted hes' hes
  · have hlt := h.framed.disk.numbered.below k (List.of_mem_zip hes').1
    have him := h.framed.committed _ hes hlt
    have hfile := h.framed.disk.shows.segFile_of_mem him
    have hfile' := h.framed.disk.shows.segFile_of_mem hes'
    exact Option.some.inj (hfile'.symm.trans hfile)

/-- From a moment of the writer to a later one. -/
theorem later (h : Serving f codec crc32 s im entries)
    {t : SegmentedStore Id Item (List (Id × Item)) F} {im' : Image Id (List (Id × Item))}
    (ht : Framed t im') (hcur : Current t im') (hb : Bounded t) (hguar : Guar s im t im') :
    Serving f codec crc32 t im' entries := by
  refine ⟨ht, hcur, hb, fun segmentId index hstored => ?_, fun key index hentry => ?_⟩
  · exact (h.stored segmentId index (hstored.of_index hguar.index)).imp fun _ hvalid =>
      hvalid.mono hguar.grows.next_le fun _ => hguar.known
  · exact (h.cached key index hentry).mono hguar.grows.next_le fun _ => hguar.known

/-- The same for a writer that stops. -/
theorem stopped (h : Serving f codec crc32 s im entries)
    {t : SegmentedStore Id Item (List (Id × Item)) F} {im' : Image Id (List (Id × Item))}
    (ht : Framed t im') (hguar : Guar s im t im') : Shelved f codec crc32 t.dir im' := by
  refine ⟨ht.disk, fun segmentId index hstored => ?_⟩
  obtain ⟨live, hvalid⟩ := h.stored segmentId index (hstored.of_index hguar.index)
  have hlater := hvalid.mono hguar.grows.next_le fun _ => hguar.known
  exact ⟨live, fun es hes => hlater.built es (.inr hes)⟩

/-- The cache has worked on its files. -/
theorem tended (h : Serving f codec crc32 s im entries)
    (hcodec : ∀ index payload, codec.encode index = some payload →
      codec.decode payload = some index)
    {d : Directory Id Item (List (Id × Item))} (ht : Tends codec crc32 entries s.dir d) :
    Serving f codec crc32 { s with dir := d } im entries where
  framed := {
    disk := ht.coherent im h.framed.disk
    shape := h.framed.shape
    next_le := h.framed.next_le
    committed := h.framed.committed
    file := fun p hp hpers => (segFile_congr (ht.same _ (not_foreign_segPath p.1))).trans
      (h.framed.file p hp hpers)
    named := h.framed.named
    persisted_lt := h.framed.persisted_lt
    wal := h.framed.wal }
  current := h.current
  bounded := h.bounded
  stored := by
    intro segmentId index hstored
    rcases hstored.of_tends hcodec ht with hstored | ⟨key, rfl, hentry⟩
    · exact h.stored segmentId index hstored
    · exact ⟨key.liveIds, h.cached key index hentry⟩
  cached := h.cached

/-- What becomes of the next calls on the directory is left open. -/
theorem armed (h : Serving f codec crc32 s im entries) (fates : List (Call → Fate)) :
    Serving f codec crc32 (Proc.armed s fates) im entries :=
  ⟨(Resilient.armed_framed h.framed fates).1, h.current, h.bounded, h.stored, h.cached⟩

/-- Entries at most leave the cache. -/
theorem forget (h : Serving f codec crc32 s im entries) {entries' : EntryMap Id Index}
    (hsub : ∀ key index, entries'.lookup key = some index → entries.lookup key = some index) :
    Serving f codec crc32 s im entries' :=
  ⟨h.framed, h.current, h.bounded, h.stored, fun key index hentry =>
    h.cached key index (hsub key index hentry)⟩

/-- A valid index enters the cache. -/
theorem put (h : Serving f codec crc32 s im entries) {key : SidecarKey Id} {index : Index}
    (hvalid : ValidFor f (Known s im) s.nextSegId key.segmentId key.liveIds index) :
    Serving f codec crc32 s im (entries.put key index) := by
  refine ⟨h.framed, h.current, h.bounded, h.stored, fun key' index' hentry => ?_⟩
  rcases EntryMap.of_lookup_put hentry with ⟨rfl, rfl⟩ | ⟨-, hentry⟩
  · exact hvalid
  · exact h.cached key' index' hentry

/-- Others have changed files of theirs, none of them sidecars of this kind. -/
theorem meddle (h : Serving f codec crc32 s im entries)
    {files : Files Id Item (List (Id × Item))} (hsame : SameOwn s.dir.files files)
    (hstored : ∀ segmentId index, codec.Stored crc32 files segmentId index →
      codec.Stored crc32 s.dir.files segmentId index) :
    Serving f codec crc32 { s with dir := s.dir.become files } im entries :=
  ⟨h.framed.foreign hsame, h.current, h.bounded, fun segmentId index hs =>
    h.stored segmentId index (hstored segmentId index hs), h.cached⟩

/-! ## Serving an index -/

/-- A stored index that the codec accepts for the live ids of a segment. -/
theorem valid_of_finds (h : Serving f codec crc32 s im entries)
    (haccepts : ∀ pairs live, codec.accepts (f pairs) live = true ↔
      .new (pairs.map Prod.fst) = live)
    {segmentId : UInt64} {live : LiveIds Id} {index : Index} {es : List (Id × Item)}
    (hes : (segmentId.toNat, es) ∈ s.sealed)
    (hfinds : codec.Finds crc32 indexSidecarName ⟨segmentId, live⟩ s.dir index) :
    ValidFor f (Known s im) s.nextSegId segmentId live index := by
  obtain ⟨name, bytes, payload, hname, hfile, hpayload, hindex, haccept⟩ := hfinds
  obtain ⟨live', hvalid⟩ := h.stored segmentId index
    ⟨name, bytes, payload, hname, hfile, hpayload, hindex⟩
  obtain ⟨hbuilt, hlive⟩ := hvalid.built es (.inl hes)
  rw [hbuilt] at haccept
  have hsame := hlive.symm.trans ((haccepts _ _).mp haccept)
  rwa [hsame] at hvalid

/-- An index that is built now. -/
theorem valid_of_built (h : Serving f codec crc32 s im entries) {segmentId : UInt64}
    {es : List (Id × Item)} (hes : (segmentId.toNat, es) ∈ s.sealed) :
    ValidFor f (Known s im) s.nextSegId segmentId
      (.new ((s.liveSegmentEntries segmentId.toNat).map Prod.fst))
      (f (s.liveSegmentEntries segmentId.toNat)) := by
  refine ⟨h.framed.shape.below _ (Contents.fst_mem_of_mem_sealed hes), fun es' hes' => ?_⟩
  obtain rfl := h.known_unique hes hes'
  rw [Contents.liveSegmentEntries, (Contents.segmentAt_eq_some h.framed.shape).mpr hes]
  exact builtFor_live es'

/-- What is valid for the live ids of now is what a build would give now. -/
theorem fresh_of_valid (h : Serving f codec crc32 s im entries) {segmentId : UInt64}
    {es : List (Id × Item)} (hes : (segmentId.toNat, es) ∈ s.sealed) {index : Index}
    (hvalid : ValidFor f (Known s im) s.nextSegId segmentId
      (.new ((s.liveSegmentEntries segmentId.toNat).map Prod.fst)) index) :
    index = f (s.liveSegmentEntries segmentId.toNat) :=
  (hvalid.built es (.inl hes)).index_eq.trans
    ((h.valid_of_built hes).built es (.inl hes)).index_eq.symm

/-- `get_or_build` for a current segment returns what a build would give, unless
the process stops in it. -/
theorem getOrBuild (h : Serving f codec crc32 s im entries)
    (haccepts : ∀ pairs live, codec.accepts (f pairs) live = true ↔
      .new (pairs.map Prod.fst) = live)
    {segmentId : UInt64} {es : List (Id × Item)} (hes : (segmentId.toNat, es) ∈ s.sealed) :
    Ends (SidecarCache.getOrBuild codec crc32 indexSidecarName
        ⟨segmentId, .new ((s.liveSegmentEntries segmentId.toNat).map Prod.fst)⟩
        fun _ => some (f (s.liveSegmentEntries segmentId.toNat)))
      { entries := entries, dir := s.dir } (fun r c =>
        Directory.Same s.dir c.dir ∧ Serving f codec crc32 s im c.entries ∧
          (r = .crash ∨ ∃ got, r = .ok got ∧
            got.index? = some (f (s.liveSegmentEntries segmentId.toNat)))) := by
  refine (SidecarCache.getOrBuild_ends codec crc32 indexSidecarName _ _ _).mono ?_
  rintro r ⟨entries', d'⟩ ⟨hsame, hserves⟩
  refine ⟨hsame, ?_⟩
  dsimp only at hserves ⊢
  cases hserves with
  | @hit index hit =>
      have hfresh := h.fresh_of_valid hes (h.cached _ _ hit)
      exact ⟨h, .inr ⟨_, rfl, congrArg some hfresh⟩⟩
  | @loaded index hnone hfinds =>
      have hvalid := h.valid_of_finds haccepts hes hfinds
      exact ⟨h.put hvalid, .inr ⟨_, rfl, congrArg some (h.fresh_of_valid hes hvalid)⟩⟩
  | @built index hnone hbuild =>
      cases hbuild
      exact ⟨h.put (h.valid_of_built hes), .inr ⟨_, rfl, rfl⟩⟩
  | nothing hnone hbuild => cases hbuild
  | stopped hnone => exact ⟨h, .inl rfl⟩

end Serving

/-! ## Every call on the cache -/

section Calls

variable {s : SegmentedStore Id Item (List (Id × Item)) F} {im : Image Id (List (Id × Item))}
variable {entries : EntryMap Id Index}

theorem Serving.onFiles_ends (h : Serving f codec crc32 s im entries)
    (hcodec : ∀ index payload, codec.encode index = some payload →
      codec.decode payload = some index)
    {α : Type} {p : DirM Id Item (List (Id × Item)) α}
    (hp : Respects (Tends codec crc32 entries) p) :
    Ends (SidecarCache.onFiles p) { entries := entries, dir := s.dir }
      (fun _ c => Serving f codec crc32 { s with dir := c.dir } im c.entries) :=
  Ends.zoom (h.tended hcodec (hp s.dir))

theorem CacheCall.getOrBuild_ends (h : Serving f codec crc32 s im entries)
    (hcodec : ∀ index payload, codec.encode index = some payload →
      codec.decode payload = some index)
    (haccepts : ∀ pairs live, codec.accepts (f pairs) live = true ↔
      .new (pairs.map Prod.fst) = live)
    {segmentId : UInt64} {es : List (Id × Item)} (hes : (segmentId.toNat, es) ∈ s.sealed) :
    Ends ((CacheCall.getOrBuild segmentId).exec codec crc32 f s.toContents)
      { entries := entries, dir := s.dir } (fun r c =>
        Serving f codec crc32 { s with dir := c.dir } im c.entries ∧
          (r = .crash ∨ r = .ok (some (f (s.liveSegmentEntries segmentId.toNat))))) := by
  rw [exec, Contents.liveIds_default ((Contents.segmentAt_eq_some h.framed.shape).mpr hes)]
  refine Ends.bind (h.getOrBuild haccepts hes) ?_ ?_ ?_
  · rintro got c ⟨hsame, hserving, hgot⟩
    refine Ends.pure_iff.mpr ⟨hserving.tended hcodec (.of_same hsame), .inr ?_⟩
    obtain hcrash | ⟨_, ⟨⟩, hindex⟩ := hgot
    · cases hcrash
    · rw [hindex]
  · rintro e c ⟨-, -, hgot⟩
    obtain hcrash | ⟨_, hok, -⟩ := hgot
    · cases hcrash
    · cases hok
  · rintro c ⟨hsame, hserving, -⟩
    exact ⟨hserving.tended hcodec (.of_same hsame), .inl rfl⟩

/-- What a call on the cache leaves, however it ends. -/
theorem CacheCall.exec_ends (h : Serving f codec crc32 s im entries)
    (hcodec : ∀ index payload, codec.encode index = some payload →
      codec.decode payload = some index)
    (haccepts : ∀ pairs live, codec.accepts (f pairs) live = true ↔
      .new (pairs.map Prod.fst) = live) (call : CacheCall Id) :
    Ends (call.exec codec crc32 f s.toContents) { entries := entries, dir := s.dir }
      (fun _ c => Serving f codec crc32 { s with dir := c.dir } im c.entries) := by
  cases call with
  | getOrBuild segmentId =>
      cases hseg : s.segmentAt segmentId.toNat with
      | none =>
          rw [exec, Contents.liveIds, hseg]
          exact Ends.pure_iff.mpr h
      | some es =>
          have hes := (Contents.segmentAt_eq_some h.framed.shape).mp hseg
          exact (getOrBuild_ends h hcodec haccepts hes).mono fun _ _ hc => hc.1
  | persist key =>
      refine Ends.bind_pure ?_
      rw [SidecarCache.persist, Ends.read_bind_iff]
      cases hentry : entries.lookup key with
      | none => exact Ends.pure_iff.mpr h
      | some index =>
          exact Ends.bind_pure (h.onFiles_ends hcodec (SidecarCodec.writeEntry_tends hentry))
  | persistMissing segmentIds rank =>
      have hpending : ∀ p ∈ entries.pending segmentIds rank, entries.lookup p.1 = some p.2 := by
        intro p hp
        rw [EntryMap.pending, List.mem_insertionSort, List.mem_filter] at hp
        exact (FinMap.mem_pairs _ _ _).mp hp.1
      refine Ends.bind_pure ?_
      rw [SidecarCache.persistMissing, Ends.read_bind_iff]
      exact h.onFiles_ends hcodec (SidecarCodec.writeMissing_tends hpending)
  | invalidate segmentId =>
      have hforget : Serving f codec crc32 s im (entries.dropSegment segmentId) :=
        h.forget fun key index => EntryMap.of_lookup_dropSegment
      refine Ends.bind_pure ?_
      rw [SidecarCache.invalidate, SidecarCache.onEntries, Ends.update_bind_iff]
      exact hforget.onFiles_ends hcodec (SidecarCodec.dropSidecar_tends segmentId)
  | retain segmentIds =>
      have hforget : Serving f codec crc32 s im (entries.retainSegments segmentIds) :=
        h.forget fun key index => EntryMap.of_lookup_retainSegments
      exact Ends.bind_pure (Ends.update_iff.mpr hforget)

end Calls

/-! ## Every act -/

theorem SidecarCodec.Stored.of_settle {d : Directory Id Item (List (Id × Item))} {keep : Nat}
    {fates : List (Call → Fate)} {segmentId : UInt64} {index : Index}
    (h : codec.Stored crc32 (d.settle keep fates).files segmentId index) :
    codec.Stored crc32 d.files segmentId index := by
  obtain ⟨name, bytes, payload, hname, hfile, hdecode⟩ := h
  refine ⟨name, bytes, payload, hname, ?_, hdecode⟩
  rw [Directory.lookup_settle] at hfile
  obtain ⟨file, hfile, hsettle⟩ := Option.map_eq_some_iff.mp hfile
  cases file with
  | raw bytes' => exact hfile.trans (congrArg some hsettle)
  | log log => cases hsettle
  | checkpoint lastAppliedId payload => cases hsettle

namespace Consumer

variable [F64 F]

omit [F64 F] in
/-- What is left of a process. -/
theorem Sound.shelved {p : Consumer Id Item F Index} (h : p.Sound f codec crc32) :
    ∃ im, Shelved f codec crc32 p.proc.dir im := by
  obtain ⟨proc, entries⟩ := p
  cases proc with
  | closed d => exact h
  | running s =>
      obtain ⟨im, hs⟩ := h
      exact ⟨im, hs.shelved⟩

/-- An open starts with the sidecars of the segments that the manifest names. -/
theorem Sound.reopen {p : Consumer Id Item F Index} (h : p.Sound f codec crc32)
    (opts : Options F) (keep : Nat) {fates : List (Call → Fate)} (hfates : Obliging fates) :
    (p.step codec crc32 f (.act (.own (.reopen opts keep fates)))).Sound f codec crc32 := by
  obtain ⟨im, hcoh, hstored⟩ := h.shelved
  have hopen := reopen_ends (defaultStore Id Item) (hcoh.settle keep fates) opts
  have hclean := open_cleans (defaultStore Id Item) (hcoh.settle keep fates) opts
  rw [step, Proc.act, Proc.step_reopen, Sound]
  rw [Ends] at hopen hclean
  generalize openWithOptions (defaultStore Id Item) opts (p.proc.dir.settle keep fates) = q at *
  obtain ⟨r, d⟩ := q
  obtain ⟨hd, -, -, hindex, hok⟩ := hopen
  dsimp only at hd hindex hok hclean
  have hbefore : ∀ segmentId index, codec.Stored crc32 d.files segmentId index →
      codec.Stored crc32 p.proc.dir.files segmentId index := fun segmentId index hs =>
    (hs.of_index hindex).of_settle
  have hclosed : Shelved f codec crc32 d im :=
    ⟨hd, fun segmentId index hs => hstored segmentId index (hbefore segmentId index hs)⟩
  cases r with
  | err e => exact ⟨im, hclosed⟩
  | crash => exact ⟨im, hclosed⟩
  | ok s =>
      obtain ⟨boot, hboot, rfl⟩ := hok s rfl
      obtain ⟨hframed, hcur, hb⟩ := opened_framed (defaultStore Id Item) hd opts hboot
        (Directory.logOf (p.proc.dir.settle keep fates).files (walPath im.epoch)).records
      refine ⟨im, hframed, hcur, hb, fun segmentId index hs => ?_, fun key index hentry => ?_⟩
      · obtain ⟨live, hbuilt⟩ := hclosed.stored segmentId index hs
        obtain ⟨name, bytes, payload, hname, hfile, -⟩ := hs
        -- a sidecar that is still there belongs to a segment of the manifest
        have hsome : (d.files.lookup name).isSome := by
          rw [show d.files.lookup name = _ from hfile]
          rfl
        have hnamed := (not_openGarbage (hclean hfates _ rfl name hsome)).2.2.2 _
          (idxSegId_indexSidecarName hname)
        have hlt := hd.numbered.below _ hnamed
        refine ⟨live, hlt.trans_le hframed.next_le, fun entries hentries => hbuilt entries ?_⟩
        exact hentries.elim (fun hp => hframed.committed _ hp hlt) id
      · cases hentry

/-- A call on the store. -/
theorem Sound.call {s : SegmentedStore Id Item (List (Id × Item)) F} {entries : EntryMap Id Index}
    (h : (Consumer.mk (.running s) entries).Sound f codec crc32) (cmd : Cmd Id Item F)
    (fates : List (Call → Fate)) :
    ((Consumer.mk (.running s) entries).step codec crc32 f
      (.act (.own (.call cmd fates)))).Sound f codec crc32 := by
  obtain ⟨im, hs⟩ := h
  have hserving := hs.armed fates
  obtain ⟨im', ht, hcur, hguar, hb, -⟩ :=
    exec_ends (defaultStore Id Item) hserving.framed hserving.current hserving.bounded cmd
  simp only [step, Proc.act, Proc.step, Sound]
  generalize (cmd.exec (defaultStore Id Item) (Proc.armed s fates)).1 = r at *
  generalize (cmd.exec (defaultStore Id Item) (Proc.armed s fates)).2 = t at *
  cases r with
  | ok u => exact ⟨im', hserving.later ht (hcur (by simp)) hb hguar⟩
  | err e => exact ⟨im', hserving.later ht (hcur (by simp)) hb hguar⟩
  | crash => exact ⟨im', hserving.stopped ht hguar⟩

omit [F64 F] in
/-- Others change files of theirs. -/
theorem Sound.meddle {p : Consumer Id Item F Index} (h : p.Sound f codec crc32)
    {g : Files Id Item (List (Id × Item)) → Files Id Item (List (Id × Item))}
    (hsame : ∀ files, SameOwn files (g files))
    (hstored : ∀ files segmentId index, codec.Stored crc32 (g files) segmentId index →
      codec.Stored crc32 files segmentId index) :
    (Consumer.mk (p.proc.meddle g) p.entries).Sound f codec crc32 := by
  obtain ⟨proc, entries⟩ := p
  cases proc with
  | closed d =>
      obtain ⟨im, hcoh, hd⟩ := h
      exact ⟨im, hcoh.harmless ((hsame _).harmless im), fun segmentId index hs =>
        hd segmentId index (hstored _ segmentId index hs)⟩
  | running s =>
      obtain ⟨im, hs⟩ := h
      exact ⟨im, hs.meddle (hsame _) (hstored _)⟩

/-- A call on the cache. -/
theorem Sound.cache {p : Consumer Id Item F Index} (h : p.Sound f codec crc32)
    (hcodec : ∀ index payload, codec.encode index = some payload →
      codec.decode payload = some index)
    (haccepts : ∀ pairs live, codec.accepts (f pairs) live = true ↔
      .new (pairs.map Prod.fst) = live) (c : CacheCall Id) (fates : List (Call → Fate)) :
    (p.step codec crc32 f (.cache c fates)).Sound f codec crc32 := by
  obtain ⟨proc, entries⟩ := p
  cases proc with
  | closed d => exact h
  | running s =>
      obtain ⟨im, hs⟩ := h
      have hcall := CacheCall.exec_ends (hs.armed fates) hcodec haccepts c
      simp only [step, afterCall, Sound]
      rw [Ends] at hcall
      cases hr : (Consumer.call codec crc32 f s entries c fates).1 with
      | ok u => exact ⟨im, hcall⟩
      | err e => exact ⟨im, hcall⟩
      | crash => exact ⟨im, hcall.shelved⟩

/-- One step. -/
theorem Sound.step {p : Consumer Id Item F Index} (h : p.Sound f codec crc32)
    (hcodec : ∀ index payload, codec.encode index = some payload →
      codec.decode payload = some index)
    (haccepts : ∀ pairs live, codec.accepts (f pairs) live = true ↔
      .new (pairs.map Prod.fst) = live) {a : ConsumerAct Id Item F}
    (ha : a.Allowed codec.kind) : (p.step codec crc32 f a).Sound f codec crc32 := by
  cases a with
  | cache c fates => exact h.cache hcodec haccepts c fates
  | act a =>
      cases a with
      | own e =>
          cases e with
          | call cmd fates =>
              obtain ⟨proc, entries⟩ := p
              cases proc with
              | closed d => exact h
              | running s => exact h.call cmd fates
          | reopen opts keep fates => exact h.reopen opts keep ha
      | write name file =>
          refine h.meddle (fun _ => .insert _ ha.1 _) fun files segmentId index hs => ?_
          obtain ⟨n, bytes, payload, hn, hfile, hdecode⟩ := hs
          have hne : n ≠ name := by
            rintro rfl
            exact ha.2 segmentId hn
          rw [FinMap.lookup_insert_eq, if_neg hne] at hfile
          exact ⟨n, bytes, payload, hn, hfile, hdecode⟩
      | remove name =>
          refine h.meddle (fun _ => .erase _ ha) fun files segmentId index hs => ?_
          obtain ⟨n, bytes, payload, hn, hfile, hdecode⟩ := hs
          rw [FinMap.lookup_erase_eq] at hfile
          split at hfile
          · cases hfile
          · exact ⟨n, bytes, payload, hn, hfile, hdecode⟩

/-- Every run. -/
theorem Sound.run {p : Consumer Id Item F Index} (h : p.Sound f codec crc32)
    (hcodec : ∀ index payload, codec.encode index = some payload →
      codec.decode payload = some index)
    (haccepts : ∀ pairs live, codec.accepts (f pairs) live = true ↔
      .new (pairs.map Prod.fst) = live) {acts : List (ConsumerAct Id Item F)}
    (hacts : ∀ a ∈ acts, a.Allowed codec.kind) :
    (p.run codec crc32 f acts).Sound f codec crc32 := by
  induction acts generalizing p with
  | nil => exact h
  | cons a acts ih =>
      exact ih (h.step hcodec haccepts (hacts a List.mem_cons_self))
        fun b hb => hacts b (List.mem_cons_of_mem _ hb)

omit [F64 F] in
/-- An empty directory. -/
theorem sound_empty (fileBacked : Bool) (entries : EntryMap Id Index) :
    (Consumer.mk (.closed (.empty fileBacked)) entries : Consumer Id Item F Index).Sound
      f codec crc32 := by
  refine ⟨emptyImage, coherent_empty fileBacked, ?_⟩
  rintro segmentId index ⟨name, bytes, payload, -, hfile, -⟩
  cases hfile

end Consumer

/-- Whatever is done to a store and to the cache of its writer from an empty
directory on, `get_or_build` for a segment that the store has returns what a
build from the live pairs of the segment would give, unless the process stops in
it. -/
theorem served_sidecar_is_fresh [F64 F] (codec : SidecarCodec Id Index)
    (crc32 : List UInt8 → UInt32) (f : List (Id × Item) → Index)
    (hcodec : ∀ index payload, codec.encode index = some payload →
      codec.decode payload = some index)
    (haccepts : ∀ pairs live, codec.accepts (f pairs) live = true ↔
      .new (pairs.map Prod.fst) = live) (fileBacked : Bool)
    (acts : List (ConsumerAct Id Item F)) (hacts : ∀ a ∈ acts, a.Allowed codec.kind) :
    let p := (Consumer.mk (.closed (.empty fileBacked)) ∅ : Consumer Id Item F Index).run
      codec crc32 f acts
    ∀ s, p.proc = .running s → ∀ segmentId : UInt64, segmentId.toNat ∈ s.segmentIds → ∀ fates,
      let got := (Consumer.call codec crc32 f s p.entries (.getOrBuild segmentId) fates).1
      got = .crash ∨ got = .ok (some (f (s.liveSegmentEntries segmentId.toNat))) := by
  intro p s hs segmentId hmem fates got
  have hsound : p.Sound f codec crc32 :=
    (Consumer.sound_empty fileBacked ∅).run hcodec haccepts hacts
  rw [Consumer.Sound, hs] at hsound
  obtain ⟨im, hserving⟩ := hsound
  obtain ⟨es, hes⟩ := Contents.exists_mem_sealed hserving.framed.shape.len hmem
  exact (CacheCall.getOrBuild_ends (hserving.armed fates) hcodec haccepts hes).2

/-! ## The codec of the documentation -/

/-- The check sum of `crc32fast`. -/
def crc32Fast (bytes : List UInt8) : UInt32 :=
  let shift (crc : UInt32) : UInt32 :=
    if crc &&& 1 = 1 then (crc >>> 1) ^^^ 0xEDB88320 else crc >>> 1
  ~~~ bytes.foldl (fun crc b => shift^[8] (crc ^^^ b.toUInt32)) 0xFFFFFFFF

/-- A number of four bytes. -/
abbrev U32 := Fin (2 ^ 32)

namespace IdList

/-- The numbers in the chunks of four bytes. -/
def chunksExact : List UInt8 → List U32
  | a :: b :: c :: d :: rest => Fin.ofNat (2 ^ 32) (leValue [a, b, c, d]) :: chunksExact rest
  | _ => []

/-- `IdListCodec`. -/
def idListCodec : SidecarCodec U32 (List U32) where
  magic := #v[84, 79, 89, 73, 68, 88, 48, 49]
  version := 1
  kind := "toy"
  recipe := "u32-id-list-v1".toList.map (fun c => UInt8.ofNat c.toNat)
  encode := fun index => some (index.flatMap (fun id => leBytes 4 id.val))
  decode := fun payload => if payload.length % 4 ≠ 0 then none else some (chunksExact payload)
  accepts := fun index live => decide (index = live.ids)

/-- The ids of the pairs. -/
def build {Item : Type} (pairs : List (U32 × Item)) : List U32 :=
  (LiveIds.new (pairs.map Prod.fst)).ids

theorem length_encoded (index : List U32) :
    (index.flatMap (fun id => leBytes 4 id.val)).length = 4 * index.length := by
  induction index with
  | nil => rfl
  | cons id index ih =>
      rw [List.flatMap_cons, List.length_append, length_leBytes, ih, List.length_cons]
      omega

theorem chunksExact_encoded (index : List U32) :
    chunksExact (index.flatMap (fun id => leBytes 4 id.val)) = index := by
  induction index with
  | nil => rfl
  | cons id index ih =>
      have hvalue : leValue (leBytes 4 id.val) = id.val := leValue_leBytes id.isLt
      have hid : Fin.ofNat (2 ^ 32) id.val = id := Fin.ext (Nat.mod_eq_of_lt id.isLt)
      calc chunksExact (leBytes 4 id.val ++ index.flatMap (fun id => leBytes 4 id.val))
        _ = Fin.ofNat (2 ^ 32) (leValue (leBytes 4 id.val)) ::
            chunksExact (index.flatMap (fun id => leBytes 4 id.val)) := rfl
        _ = id :: index := by rw [hvalue, hid, ih]

theorem decode_encode {index : List U32} {payload : List UInt8}
    (h : idListCodec.encode index = some payload) :
    idListCodec.decode payload = some index := by
  obtain rfl := Option.some.inj h
  show (if _ then _ else _) = _
  rw [length_encoded, Nat.mul_mod_right, if_neg (by decide), chunksExact_encoded]

theorem accepts_build {Item : Type} (pairs : List (U32 × Item)) (live : LiveIds U32) :
    idListCodec.accepts (build pairs) live = true ↔ .new (pairs.map Prod.fst) = live := by
  refine decide_eq_true_iff.trans ⟨fun h => ?_, fun h => congrArg LiveIds.ids h⟩
  cases live
  cases h
  rfl

end IdList

/-- The sidecar of a segment of two ids is written, one of them is deleted, the
store is opened again, and the sidecar is not served. -/
theorem served_sidecar_is_fresh_reopened :
    let p := (Consumer.mk (.closed (.empty true)) ∅ : Consumer U32 Nat Rat (List U32)).run
      IdList.idListCodec crc32Fast IdList.build
      [.act (.own (.reopen (.new 2) 0 [])), .act (.own (.call (.add 1 5) [])),
        .act (.own (.call (.add 2 6) [])), .act (.own (.call .checkpoint [])),
        .cache (.getOrBuild 0) [], .cache (.persist ⟨0, .new [1, 2]⟩) [],
        .act (.own (.call (.delete 1) [])), .act (.own (.reopen (.new 2) 0 []))]
    ∃ s, p.proc = .running s ∧
      (Consumer.call IdList.idListCodec crc32Fast IdList.build s p.entries
        (.getOrBuild 0) []).1 = .ok (some [2]) := by
  intro p
  have hrun : p.proc.holds (fun s => decide ((0 : UInt64).toNat ∈ s.segmentIds ∧
      IdList.build (s.liveSegmentEntries (0 : UInt64).toNat) = [2] ∧
      (Consumer.call IdList.idListCodec crc32Fast IdList.build s p.entries
        (.getOrBuild 0) []).1 ≠ .crash)) = true := by
    decide +kernel +zetaReduce
  obtain ⟨s, hs, htest⟩ := Proc.holds_iff.mp hrun
  obtain ⟨hmem, hbuild, hcrash⟩ := of_decide_eq_true htest
  have hfresh := served_sidecar_is_fresh IdList.idListCodec crc32Fast IdList.build
    (fun _ _ => IdList.decode_encode) IdList.accepts_build true _
    (by simp [ConsumerAct.Allowed, Act.Allowed, Obliging]) s hs 0 hmem []
  refine ⟨s, hs, ?_⟩
  rw [hbuild] at hfresh
  exact hfresh.resolve_left hcrash

end Segstore
