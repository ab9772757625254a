import Segstore.Disk.Reads
import Segstore.Sidecar.Cache

/-!
# Calls on a sidecar cache

What `get_or_build` can return, and what the entries are afterwards.
-/

namespace Segstore

variable {Id Item Seg Index : Type} [LinearOrder Id]

/-! ## Entries -/

namespace EntryMap

variable {entries : EntryMap Id Index} {key key' : SidecarKey Id} {index : Index}

theorem lookup_dropSegment (segmentId : UInt64) :
    (entries.dropSegment segmentId).lookup key =
      if key.segmentId = segmentId then none else entries.lookup key := by
  rw [dropSegment, FinMap.lookup_retain]
  by_cases h : key.segmentId = segmentId
  · simp [h]
  · simp [h]

theorem lookup_put : (entries.put key index).lookup key' =
    if key' = key then some index
    else if key'.segmentId = key.segmentId then none else entries.lookup key' := by
  rw [put, FinMap.lookup_insert_eq, lookup_dropSegment]

theorem lookup_retainSegments (segmentIds : List UInt64) :
    (entries.retainSegments segmentIds).lookup key =
      if key.segmentId ∈ segmentIds then entries.lookup key else none := by
  rw [retainSegments, FinMap.lookup_retain]
  by_cases h : key.segmentId ∈ segmentIds
  · simp [h]
  · simp [h]

/-- Dropping adds nothing. -/
theorem of_lookup_dropSegment {segmentId : UInt64}
    (h : (entries.dropSegment segmentId).lookup key = some index) :
    entries.lookup key = some index := by
  rw [lookup_dropSegment] at h
  split at h
  · cases h
  · exact h

theorem of_lookup_retainSegments {segmentIds : List UInt64}
    (h : (entries.retainSegments segmentIds).lookup key = some index) :
    entries.lookup key = some index := by
  rw [lookup_retainSegments] at h
  split at h
  · exact h
  · cases h

/-- An entry is the new one or one of another segment. -/
theorem of_lookup_put {index' : Index} (h : (entries.put key index).lookup key' = some index') :
    key' = key ∧ index' = index ∨
      key'.segmentId ≠ key.segmentId ∧ entries.lookup key' = some index' := by
  rw [lookup_put] at h
  split at h
  · rename_i hkey
    exact .inl ⟨hkey, (Option.some.inj h).symm⟩
  · split at h
    · cases h
    · rename_i hseg
      exact .inr ⟨hseg, h⟩

end EntryMap

/-! ## Loading -/

namespace SidecarCodec

variable {codec : SidecarCodec Id Index} {crc32 : List UInt8 → UInt32} {host : SidecarHost}
variable {key : SidecarKey Id}

/-- An index is admitted from an envelope with the tags of the key's segment, if
the codec accepts it for the key's live ids. -/
theorem admitted_eq_some {bytes : List UInt8} {index : Index} :
    codec.admitted crc32 key bytes = some index ↔ ∃ payload,
      SidecarEnvelope.decode crc32 (codec.tags key.segmentId) bytes = some (.ok payload) ∧
        codec.decode payload = some index ∧ codec.accepts index key.liveIds = true := by
  obtain ⟨r, hr, -⟩ := SidecarEnvelope.decode_total crc32 (codec.tags key.segmentId) bytes
  rw [admitted, Checked.result_eq hr, hr]
  cases r with
  | ok payload =>
      rw [Option.filter_eq_some_iff]
      refine ⟨fun h => ⟨payload, rfl, h⟩, ?_⟩
      rintro ⟨_, ⟨⟩, h⟩
      exact h
  | error e =>
      refine iff_of_false (by simp) ?_
      rintro ⟨_, ⟨⟩, -⟩

/-- The file of the key holds an envelope for its segment, with an index that the
codec accepts for its live ids. -/
def Finds (codec : SidecarCodec Id Index) (crc32 : List UInt8 → UInt32) (host : SidecarHost)
    (key : SidecarKey Id) (d : Directory Id Item Seg) (index : Index) : Prop :=
  ∃ name bytes payload, host key.segmentId codec.kind = .ok name ∧
    d.files.lookup name = some (.raw bytes) ∧
    SidecarEnvelope.decode crc32 (codec.tags key.segmentId) bytes = some (.ok payload) ∧
    codec.decode payload = some index ∧ codec.accepts index key.liveIds = true

/-- The sidecar of the key can be read, and is the envelope of a payload that the
codec decodes as the index and accepts. -/
def Trusted (codec : SidecarCodec Id Index) (crc32 : List UInt8 → UInt32) (host : SidecarHost)
    (key : SidecarKey Id) (d : Directory Id Item Seg) (index : Index) : Prop :=
  ∃ name bytes payload, host key.segmentId codec.kind = .ok name ∧
    d.files.lookup name = some (.raw bytes) ∧ d.nextFate .read = .done ∧
    SidecarEnvelope.encode crc32 (codec.tags key.segmentId) payload = some (.ok bytes) ∧
    codec.decode payload = some index ∧ codec.accepts index key.liveIds = true

theorem Trusted.finds {d : Directory Id Item Seg} {index : Index}
    (h : codec.Trusted crc32 host key d index) : codec.Finds crc32 host key d index := by
  obtain ⟨name, bytes, payload, hname, hfile, -, hencode, hindex⟩ := h
  exact ⟨name, bytes, payload, hname, hfile,
    SidecarEnvelope.decode_iff_encode.mpr hencode, hindex⟩

omit [LinearOrder Id] in
/-- A file of bytes is read when the environment allows it, and nothing else is. -/
theorem readSidecar_ends (name : String) (d : Directory Id Item Seg) :
    Ends (Directory.readSidecar name) d (fun r d' => Directory.Same d d' ∧
      (r = .crash → ∃ landed, d.nextFate .read = .stopped landed) ∧
      ∀ bytes, r = .ok (some bytes) ↔
        d.files.lookup name = some (.raw bytes) ∧ d.nextFate .read = .done) := by
  rw [Directory.readSidecar, Ends.read_bind_iff, Directory.exists]
  cases hlookup : d.files.lookup name with
  | none => exact Ends.pure_iff.mpr ⟨.refl d, by simp, by simp⟩
  | some file =>
      refine Ends.bind (R := fun r d' => Directory.Same d d' ∧
        (r = .crash → ∃ landed, d.nextFate .read = .stopped landed) ∧
        ∀ bytes, r = .ok bytes ↔ some file = some (.raw bytes) ∧ d.nextFate .read = .done)
        ((Directory.observe_exact .read _ d).mono fun r d' h => ?_) ?_ ?_ ?_
      · refine ⟨h.1, h.2.1, fun bytes => (h.2.2 bytes).trans (and_congr_left' ?_)⟩
        rw [hlookup]
        cases file <;> simp
      · rintro bytes d' ⟨hsame, -, hread⟩
        refine Ends.pure_iff.mpr ⟨hsame, by simp, fun bytes' => ?_⟩
        rw [← hread bytes', Outcome.ok.injEq, Outcome.ok.injEq, Option.some_inj]
      · rintro e d' ⟨hsame, -, hread⟩
        refine ⟨hsame, by simp, fun bytes => iff_of_false (by simp) fun h => ?_⟩
        cases (hread bytes).mpr h
      · rintro d' ⟨hsame, hstop, hread⟩
        refine ⟨hsame, fun _ => hstop rfl, fun bytes => iff_of_false (by simp) fun h => ?_⟩
        cases (hread bytes).mpr h

/-- `load` changes no file, and comes up with the trusted index unless it is
stopped. -/
theorem load_trusts (codec : SidecarCodec Id Index) (crc32 : List UInt8 → UInt32)
    (host : SidecarHost) (key : SidecarKey Id) (d : Directory Id Item Seg) :
    Ends (codec.load crc32 host key) d (fun r d' => Directory.Same d d' ∧
      (r = .crash ∧ (∃ landed, d.nextFate .read = .stopped landed) ∨
        ∃ found, r = .ok found ∧
          ∀ index, found = some index ↔ codec.Trusted crc32 host key d index)) := by
  rw [load]
  cases hname : host key.segmentId codec.kind with
  | error e =>
      refine Ends.pure_iff.mpr ⟨.refl d, .inr ⟨none, rfl, fun index => ?_⟩⟩
      refine iff_of_false (by simp) ?_
      rintro ⟨name, -, -, hname', -⟩
      cases hname.symm.trans hname'
  | ok name =>
      -- Without bytes there is nothing to trust.
      have hnothing : (∀ bytes, ¬ (d.files.lookup name = some (.raw bytes) ∧
          d.nextFate .read = .done)) → ∀ index, (none : Option Index) = some index ↔
            codec.Trusted crc32 host key d index := by
        intro hno index
        refine iff_of_false (by simp) ?_
        rintro ⟨name', bytes, -, hname', hfile, hfate, -⟩
        cases hname.symm.trans hname'
        exact hno bytes ⟨hfile, hfate⟩
      refine Ends.attempt_bind (readSidecar_ends name d) ?_ ?_ ?_
      · rintro (_ | bytes) d' ⟨hsame, -, hread⟩
        · refine Ends.pure_iff.mpr ⟨hsame, .inr ⟨none, rfl, hnothing fun bytes h => ?_⟩⟩
          cases (hread bytes).mpr h
        · obtain ⟨hfile, hfate⟩ := (hread bytes).mp rfl
          refine Ends.pure_iff.mpr ⟨hsame, .inr ⟨_, rfl, fun index => ?_⟩⟩
          rw [admitted_eq_some]
          constructor
          · rintro ⟨payload, hpayload, hindex⟩
            exact ⟨name, bytes, payload, hname, hfile, hfate,
              SidecarEnvelope.decode_iff_encode.mp hpayload, hindex⟩
          · rintro ⟨name', bytes', payload, hname', hfile', -, hencode, hindex⟩
            cases hname.symm.trans hname'
            cases hfile.symm.trans hfile'
            exact ⟨payload, SidecarEnvelope.decode_iff_encode.mpr hencode, hindex⟩
      · rintro e d' ⟨hsame, -, hread⟩
        refine Ends.pure_iff.mpr ⟨hsame, .inr ⟨none, rfl, hnothing fun bytes h => ?_⟩⟩
        cases (hread bytes).mpr h
      · exact fun d' h => ⟨h.1, .inl ⟨rfl, h.2.1 rfl⟩⟩

/-- `load` changes no file, does not fail, and finds what is there to find. -/
theorem load_ends (codec : SidecarCodec Id Index) (crc32 : List UInt8 → UInt32)
    (host : SidecarHost) (key : SidecarKey Id) (d : Directory Id Item Seg) :
    Ends (codec.load crc32 host key) d (fun r d' => Directory.Same d d' ∧ (∀ e, r ≠ .err e) ∧
      ∀ index, r = .ok (some index) → codec.Finds crc32 host key d index) := by
  refine (codec.load_trusts crc32 host key d).mono ?_
  rintro r d' ⟨hsame, ⟨rfl, -⟩ | ⟨found, rfl, htrusted⟩⟩
  · exact ⟨hsame, by simp, by simp⟩
  · refine ⟨hsame, by simp, fun index h => ?_⟩
    exact ((htrusted index).mp (Outcome.ok.inj h)).finds

end SidecarCodec

/-! ## Serving -/

namespace SidecarCache

/-- What `get_or_build` came up with, and the entries it left. -/
inductive Serves (codec : SidecarCodec Id Index) (crc32 : List UInt8 → UInt32)
    (host : SidecarHost) (key : SidecarKey Id) (build : Unit → Option Index)
    (c : Cached Id Item Seg Index) :
    Outcome PersistenceError (Got Index) → EntryMap Id Index → Prop
  | hit {index : Index} (h : c.entries.lookup key = some index) :
      Serves codec crc32 host key build c (.ok (.hit index)) c.entries
  | loaded {index : Index} (hnone : c.entries.lookup key = none)
      (h : codec.Finds crc32 host key c.dir index) :
      Serves codec crc32 host key build c (.ok (.loaded index)) (c.entries.put key index)
  | built {index : Index} (hnone : c.entries.lookup key = none) (h : build () = some index) :
      Serves codec crc32 host key build c (.ok (.built index)) (c.entries.put key index)
  | nothing (hnone : c.entries.lookup key = none) (h : build () = none) :
      Serves codec crc32 host key build c (.ok .nothing) c.entries
  | stopped (hnone : c.entries.lookup key = none) :
      Serves codec crc32 host key build c .crash c.entries

theorem getOrBuild_ends (codec : SidecarCodec Id Index) (crc32 : List UInt8 → UInt32)
    (host : SidecarHost) (key : SidecarKey Id) (build : Unit → Option Index)
    (c : Cached Id Item Seg Index) :
    Ends (getOrBuild codec crc32 host key build) c (fun r c' =>
      Directory.Same c.dir c'.dir ∧ Serves codec crc32 host key build c r c'.entries) := by
  have hread : (onCache (Eff.read Cached.entries) :
      Eff PersistenceError (Cached Id Item Seg Index × Unit) _) (c, ()) =
        (.ok c.entries, c, ()) := rfl
  refine Ends.zoom ?_
  rw [getOrBuildOnce, Ends.of_ok hread]
  cases hlookup : c.entries.lookup key with
  | some index => exact Ends.pure_iff.mpr ⟨.refl _, .hit hlookup⟩
  | none =>
      have hload := codec.load_ends crc32 host key c.dir
      refine Ends.bind (R := fun r s => Directory.Same c.dir s.1.dir ∧
        s.1.entries = c.entries ∧ (∀ e, r ≠ .err e) ∧ ∀ index, r = .ok (some index) →
          codec.Finds crc32 host key c.dir index) ?_ ?_ ?_ ?_
      · exact Ends.zoom (Ends.zoom (hload.mono fun r d' h => ⟨h.1, rfl, h.2⟩))
      · rintro (_ | index) ⟨⟨entries, d⟩, ⟨⟩⟩ ⟨hsame, hentries, -, hfound⟩
        · dsimp only at hentries
          subst hentries
          have hcall : callBuild (fun _ => (build (), ())) (⟨c.entries, d⟩, ()) =
              (.ok (build ()), (⟨c.entries, d⟩ : Cached Id Item Seg Index), ()) := rfl
          rw [Ends.of_ok hcall]
          cases hbuild : build () with
          | none => exact ⟨hsame, .nothing hlookup hbuild⟩
          | some index => exact ⟨hsame, .built hlookup hbuild⟩
        · dsimp only at hentries
          subst hentries
          exact ⟨hsame, .loaded hlookup (hfound index rfl)⟩
      · exact fun e s h => absurd rfl (h.2.2.1 e)
      · exact fun s h => ⟨h.1, h.2.1 ▸ .stopped hlookup⟩

end SidecarCache

end Segstore
