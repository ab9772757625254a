import Segstore.System.Sidecars

/-!
# Trust in sidecars

`get_or_build` for a key that is not cached: the sidecar is loaded if it is an
envelope of the key's segment with an index that the codec accepts, and in every
other case `build` is called once.  What `persist` writes is loaded by a new
cache, and `persist_missing` changes no file.
-/

namespace Segstore

variable {Id Item Seg Index τ : Type} [LinearOrder Id]

/-! ## Entries -/

namespace EntryMap

/-- The index is cached under the key, in place of the entries of its segment. -/
structure Replaced (key : SidecarKey Id) (index : Index)
    (entries entries' : EntryMap Id Index) : Prop where
  cached : entries'.lookup key = some index
  dropped : ∀ key', key' ≠ key → key'.segmentId = key.segmentId → entries'.lookup key' = none
  others : ∀ key', key'.segmentId ≠ key.segmentId → entries'.lookup key' = entries.lookup key'

theorem replaced_put (key : SidecarKey Id) (index : Index) (entries : EntryMap Id Index) :
    Replaced key index entries (entries.put key index) where
  cached := by rw [lookup_put, if_pos rfl]
  dropped := fun key' hkey hseg => by rw [lookup_put, if_neg hkey, if_pos hseg]
  others := fun key' hseg => by
    have hkey : key' ≠ key := by
      rintro rfl
      exact hseg rfl
    rw [lookup_put, if_neg hkey, if_neg hseg]

end EntryMap

/-! ## Loading or building -/

namespace SidecarCodec

variable {codec : SidecarCodec Id Index} {crc32 : List UInt8 → UInt32} {host : SidecarHost}
variable {key : SidecarKey Id} {d : Directory Id Item Seg} {index index' : Index}

/-- A sidecar is trusted as one index only. -/
theorem Trusted.unique (h : codec.Trusted crc32 host key d index)
    (h' : codec.Trusted crc32 host key d index') : index = index' := by
  obtain ⟨name, bytes, payload, hname, hfile, -, hencode, hindex, -⟩ := h
  obtain ⟨name', bytes', payload', hname', hfile', -, hencode', hindex', -⟩ := h'
  cases hname.symm.trans hname'
  cases hfile.symm.trans hfile'
  rw [← SidecarEnvelope.decode_iff_encode] at hencode hencode'
  cases hencode.symm.trans hencode'
  exact Option.some.inj (hindex.symm.trans hindex')

end SidecarCodec

namespace SidecarCache

variable {codec : SidecarCodec Id Index} {crc32 : List UInt8 → UInt32} {host : SidecarHost}

/-- What `get_or_build` returns for a key that is not cached, the entries it
leaves, and what `build` has made of `t`. -/
inductive Answers (codec : SidecarCodec Id Index) (crc32 : List UInt8 → UInt32)
    (host : SidecarHost) (key : SidecarKey Id) (build : τ → Option Index × τ)
    (c : Cached Id Item Seg Index) (t : τ) :
    Outcome PersistenceError (Got Index) → EntryMap Id Index → τ → Prop
  | loaded {index : Index} (h : codec.Trusted crc32 host key c.dir index) :
      Answers codec crc32 host key build c t (.ok (.loaded index)) (c.entries.put key index) t
  | built {index : Index} (hno : ∀ i, ¬ codec.Trusted crc32 host key c.dir i)
      (h : (build t).1 = some index) :
      Answers codec crc32 host key build c t (.ok (.built index)) (c.entries.put key index)
        (build t).2
  | nothing (hno : ∀ i, ¬ codec.Trusted crc32 host key c.dir i) (h : (build t).1 = none) :
      Answers codec crc32 host key build c t (.ok .nothing) c.entries (build t).2
  | stopped {landed : Landed} (h : c.dir.nextFate .read = .stopped landed) :
      Answers codec crc32 host key build c t .crash c.entries t

namespace Answers

variable {key : SidecarKey Id} {build : τ → Option Index × τ} {c : Cached Id Item Seg Index}
variable {t t' : τ} {r : Outcome PersistenceError (Got Index)} {entries : EntryMap Id Index}
variable {index : Index}

theorem trusted (h : Answers codec crc32 host key build c t r entries t')
    (hr : r = .ok (.loaded index)) : codec.Trusted crc32 host key c.dir index := by
  cases h with
  | loaded htrusted =>
      cases hr
      exact htrusted
  | built hno hbuild => cases hr
  | nothing hno hbuild => cases hr
  | stopped hstop => cases hr

/-- A trusted sidecar is loaded. -/
theorem of_trusted (h : Answers codec crc32 host key build c t r entries t')
    (htrusted : codec.Trusted crc32 host key c.dir index) :
    r = .ok (.loaded index) ∧ entries = c.entries.put key index ∧ t' = t := by
  cases h with
  | loaded htrusted' =>
      cases htrusted'.unique htrusted
      exact ⟨rfl, rfl, rfl⟩
  | built hno hbuild => exact absurd htrusted (hno index)
  | nothing hno hbuild => exact absurd htrusted (hno index)
  | stopped hstop =>
      obtain ⟨-, -, -, -, -, hread, -⟩ := htrusted
      cases hread.symm.trans hstop

/-- Without a trusted sidecar `build` is called, unless the process stops before. -/
theorem of_untrusted (h : Answers codec crc32 host key build c t r entries t')
    (hno : ∀ i, ¬ codec.Trusted crc32 host key c.dir i) :
    (r = .crash ∧ ∃ landed, c.dir.nextFate .read = .stopped landed) ∨
      t' = (build t).2 ∧
        (∀ i, (build t).1 = some i → r = .ok (.built i) ∧ entries = c.entries.put key i) ∧
        ((build t).1 = none → r = .ok .nothing ∧ entries = c.entries) := by
  cases h with
  | loaded htrusted => exact absurd htrusted (hno _)
  | built hno hbuild =>
      rw [hbuild]
      refine .inr ⟨rfl, ?_, fun h => (by cases h)⟩
      rintro _ ⟨⟩
      exact ⟨rfl, rfl⟩
  | nothing hno hbuild =>
      rw [hbuild]
      exact .inr ⟨rfl, fun i h => (by cases h), fun _ => ⟨rfl, rfl⟩⟩
  | stopped hstop => exact .inl ⟨rfl, _, hstop⟩

end Answers

theorem getOrBuildOnce_ends (codec : SidecarCodec Id Index) (crc32 : List UInt8 → UInt32)
    (host : SidecarHost) {key : SidecarKey Id} (build : τ → Option Index × τ)
    {c : Cached Id Item Seg Index} (t : τ) (hmiss : c.entries.lookup key = none) :
    Ends (getOrBuildOnce codec crc32 host key build) (c, t) (fun r s =>
      Directory.Same c.dir s.1.dir ∧
        Answers codec crc32 host key build c t r s.1.entries s.2) := by
  have hload := codec.load_trusts crc32 host key c.dir
  have hread : (onCache (Eff.read Cached.entries) :
      Eff PersistenceError (Cached Id Item Seg Index × τ) _) (c, t) = (.ok c.entries, c, t) := rfl
  rw [getOrBuildOnce, Ends.of_ok hread]
  simp only [hmiss]
  refine Ends.bind (R := fun r s => Directory.Same c.dir s.1.dir ∧ s.1.entries = c.entries ∧
    s.2 = t ∧ (r = .crash ∧ (∃ landed, c.dir.nextFate .read = .stopped landed) ∨
      ∃ found, r = .ok found ∧
        ∀ index, found = some index ↔ codec.Trusted crc32 host key c.dir index)) ?_ ?_ ?_ ?_
  · exact Ends.zoom (Ends.zoom (hload.mono fun r d' h => ⟨h.1, rfl, rfl, h.2⟩))
  · rintro found ⟨⟨entries, d⟩, t'⟩ ⟨hsame, hentries, ht, ⟨⟨⟩, -⟩ | ⟨_, ⟨⟩, htrusted⟩⟩
    dsimp only at hsame hentries ht
    subst hentries ht
    cases found with
    | some index => exact ⟨hsame, .loaded ((htrusted index).mp rfl)⟩
    | none =>
        have hno : ∀ i, ¬ codec.Trusted crc32 host key c.dir i :=
          fun i hi => by cases (htrusted i).mpr hi
        have hcall : callBuild build (⟨c.entries, d⟩, t') =
            (.ok (build t').1, ⟨c.entries, d⟩, (build t').2) := rfl
        rw [Ends.of_ok hcall]
        cases hbuild : (build t').1 with
        | none => exact ⟨hsame, .nothing hno hbuild⟩
        | some index => exact ⟨hsame, .built hno hbuild⟩
  · rintro e s ⟨-, -, -, ⟨⟨⟩, -⟩ | ⟨_, ⟨⟩, -⟩⟩
  · rintro s ⟨hsame, hentries, ht, ⟨-, landed, hstop⟩ | ⟨_, ⟨⟩, -⟩⟩
    exact ⟨hsame, hentries ▸ ht ▸ .stopped hstop⟩

end SidecarCache

/-! ## Writing -/

namespace SidecarCodec

variable {codec : SidecarCodec Id Index} {crc32 : List UInt8 → UInt32} {host : SidecarHost}

/-- A sidecar that was written can be read. -/
theorem writeEntry_ends {key : SidecarKey Id} {index : Index} (d : Directory Id Item Seg) :
    Ends (codec.writeEntry crc32 host key index) d (fun r d' => r = .ok () →
      ∃ name bytes, host key.segmentId codec.kind = .ok name ∧
        codec.encodeEnvelope crc32 key index = .ok bytes ∧
        d'.files.lookup name = some (.raw bytes)) := by
  rw [writeEntry]
  cases hbytes : codec.encodeEnvelope crc32 key index with
  | error e => exact Ends.fail_iff.mpr (by simp)
  | ok bytes =>
      cases hname : host key.segmentId codec.kind with
      | error e => exact Ends.fail_iff.mpr (by simp)
      | ok name =>
          show Ends (Directory.atomicWrite name (.raw bytes)) d _
          rw [Directory.atomicWrite]
          apply Directory.perform_leaves
          · exact fun r _ => ⟨name, bytes, rfl, rfl, AList.lookup_insert _⟩
          · exact fun r hr h => absurd h hr
          · exact fun r hr h => absurd h hr

/-- From `d` to `d'` no file is changed, except temporary files of sidecars. -/
def Keeps (codec : SidecarCodec Id Index) (host : SidecarHost) (d d' : Directory Id Item Seg) :
    Prop :=
  ∀ name file, d.files.lookup name = some file → d'.files.lookup name = some file ∨
    ∃ id other, host id codec.kind = .ok other ∧ name = tmpPath other

instance : Std.Refl (Keeps codec host : Directory Id Item Seg → _ → Prop) :=
  ⟨fun _ _ _ h => .inl h⟩

instance : IsTrans (Directory Id Item Seg) (Keeps codec host) :=
  ⟨fun _ _ _ h h' name file hfile => (h name file hfile).elim (h' name file) .inr⟩

/-- A sidecar that is absent is written. -/
theorem writeSidecar_keeps {id : UInt64} {name : String} {bytes : List UInt8}
    (hname : host id codec.kind = .ok name) {d : Directory Id Item Seg}
    (habsent : d.files.lookup name = none) :
    Ends (Directory.writeSidecar name bytes) d (fun _ d' => codec.Keeps host d d') := by
  have hother : ∀ n file, d.files.lookup n = some file → n ≠ name := by
    rintro n file hfile rfl
    cases habsent.symm.trans hfile
  rw [Directory.writeSidecar, Directory.atomicWrite]
  apply Directory.perform_leaves
  · intro r n file hfile
    by_cases htmp : n = tmpPath name
    · exact .inr ⟨id, name, hname, htmp⟩
    · refine .inl ?_
      show ((d.files.erase (tmpPath name)).insert name _).lookup n = _
      rw [FinMap.lookup_insert_eq, if_neg (hother n file hfile), FinMap.lookup_erase_eq,
        if_neg htmp, hfile]
  · exact fun r hr n file hfile => .inl hfile
  · intro r hr n file hfile
    by_cases htmp : n = tmpPath name
    · exact .inr ⟨id, name, hname, htmp⟩
    · refine .inl ?_
      show (d.files.insert (tmpPath name) _).lookup n = _
      rw [FinMap.lookup_insert_eq, if_neg htmp, hfile]

/-- The loop over the entries. -/
theorem writeMissing_keeps (pending : List (SidecarKey Id × Index)) :
    Respects (Keeps codec host)
      (codec.writeMissing crc32 host pending : DirM Id Item Seg Nat) := by
  induction pending with
  | nil => exact .pure 0
  | cons p pending ih =>
      obtain ⟨key, index⟩ := p
      refine .ofExcept_bind fun name hname d => ?_
      rw [Ends.read_bind_iff]
      split
      · exact ih d
      · rename_i hmissing
        have habsent : d.files.lookup name = none := by
          simpa [Directory.exists] using hmissing
        cases codec.encodeEnvelope crc32 key index with
        | error e => exact Ends.fail_iff.mpr (Std.Refl.refl d)
        | ok bytes =>
            have hrest : Respects (Keeps codec host) (codec.writeMissing crc32 host pending >>=
                fun written => pure (written + 1) : DirM Id Item Seg Nat) :=
              ih.bind fun _ => .pure _
            refine Ends.pure_bind_iff.mpr (Ends.bind (R := fun _ d' => codec.Keeps host d d')
              (writeSidecar_keeps hname habsent) ?_ (fun _ _ h => h) fun _ h => h)
            exact fun _ d' h => (hrest d').mono fun _ _ h' => IsTrans.trans _ _ _ h h'

end SidecarCodec

namespace SidecarCache

variable {codec : SidecarCodec Id Index} {crc32 : List UInt8 → UInt32} {host : SidecarHost}
variable {key : SidecarKey Id}

/-- What has been persisted is trusted, as long as it can be read. -/
theorem trusted_of_persist {c c' : Cached Id Item Seg Index} {index : Index}
    (hentry : c.entries.lookup key = some index)
    (hcodec : (codec.encode index).bind codec.decode = some index)
    (haccepts : codec.accepts index key.liveIds = true)
    (hrun : persist codec crc32 host key c = (.ok true, c')) {d : Directory Id Item Seg}
    (hfiles : d.files = c'.dir.files) (hread : d.nextFate .read = .done) :
    codec.Trusted crc32 host key d index := by
  have hends : Ends (persist codec crc32 host key) c (fun r c' => r = .ok true →
      ∃ name bytes, host key.segmentId codec.kind = .ok name ∧
        codec.encodeEnvelope crc32 key index = .ok bytes ∧
        c'.dir.files.lookup name = some (.raw bytes)) := by
    rw [persist, Ends.read_bind_iff]
    simp only [hentry]
    refine Ends.bind (R := fun r c' => r = .ok () → ∃ name bytes,
      host key.segmentId codec.kind = .ok name ∧
        codec.encodeEnvelope crc32 key index = .ok bytes ∧
        c'.dir.files.lookup name = some (.raw bytes))
      (Ends.zoom (SidecarCodec.writeEntry_ends c.dir)) ?_ (by simp) (by simp)
    exact fun _ _ h => Ends.pure_iff.mpr fun _ => h rfl
  obtain ⟨name, bytes, hname, hbytes, hfile⟩ := hends.of_run hrun rfl
  obtain ⟨payload, hpayload, hencode⟩ := SidecarCodec.encodeEnvelope_eq_ok.mp hbytes
  rw [hpayload, Option.bind_some] at hcodec
  exact ⟨name, bytes, payload, hname, by rw [hfiles, hfile], hread, hencode, hcodec, haccepts⟩

end SidecarCache

namespace SidecarCache

/-- No file is changed, temporary files of sidecars aside. -/
theorem persistMissing_keeps (codec : SidecarCodec Id Index) (crc32 : List UInt8 → UInt32)
    (host : SidecarHost) (segmentIds : List UInt64) (rank : SidecarKey Id → Nat)
    (c : Cached Id Item Seg Index) :
    Ends (persistMissing codec crc32 host segmentIds rank) c
      (fun _ c' => codec.Keeps host c.dir c'.dir) :=
  Ends.read_bind_iff.mpr (Ends.zoom (SidecarCodec.writeMissing_keeps _ c.dir))

end SidecarCache

open SidecarCache

/-- For a key that is not cached, `get_or_build` loads exactly the trusted
sidecars, without calling `build`.  In every other case it calls `build` once and
caches its result, unless the process stops in the read.  An index that was
persisted, is decoded as itself and is accepted is loaded by a new cache.
`persist_missing` changes no file, except for temporary files of sidecars, and no
sidecar of a host that names them like a writer is one. -/
theorem get_or_build_trusts_valid (codec : SidecarCodec Id Index)
    (crc32 : List UInt8 → UInt32) (host : SidecarHost) :
    (∀ (key : SidecarKey Id) (build : τ → Option Index × τ) (c : Cached Id Item Seg Index)
      (t : τ), c.entries.lookup key = none →
      Ends (getOrBuildOnce codec crc32 host key build) (c, t) (fun r s =>
        s.1.dir.files = c.dir.files ∧
        (∀ index, r = .ok (.loaded index) ↔ codec.Trusted crc32 host key c.dir index) ∧
        (∀ index, codec.Trusted crc32 host key c.dir index →
          s.2 = t ∧ EntryMap.Replaced key index c.entries s.1.entries) ∧
        ((∀ index, ¬ codec.Trusted crc32 host key c.dir index) →
          (r = .crash ∧ ∃ landed, c.dir.nextFate .read = .stopped landed) ∨
            s.2 = (build t).2 ∧
            (∀ index, (build t).1 = some index →
              r = .ok (.built index) ∧ EntryMap.Replaced key index c.entries s.1.entries) ∧
            ((build t).1 = none → r = .ok .nothing ∧ s.1.entries = c.entries)))) ∧
    (∀ (key : SidecarKey Id) (index : Index) (c c' : Cached Id Item Seg Index),
      c.entries.lookup key = some index →
      (codec.encode index).bind codec.decode = some index →
      codec.accepts index key.liveIds = true →
      persist codec crc32 host key c = (.ok true, c') →
      ∀ (d : Directory Id Item Seg) (build : τ → Option Index × τ) (t : τ),
        d.files = c'.dir.files → d.nextFate .read = .done →
        Ends (getOrBuildOnce codec crc32 host key build) (⟨∅, d⟩, t)
          (fun r s => r = .ok (.loaded index) ∧ s.2 = t)) ∧
    (∀ segmentIds rank (c : Cached Id Item Seg Index) name file,
      c.dir.files.lookup name = some file →
      (∀ id other, host id codec.kind = .ok other → name ≠ tmpPath other) →
      Ends (persistMissing codec crc32 host segmentIds rank) c
        (fun _ c' => c'.dir.files.lookup name = some file)) ∧
    ((∀ id kind name, host id kind = .ok name → indexSidecarName id kind = .ok name) →
      ∀ segmentIds rank (c : Cached Id Item Seg Index) id kind name file,
        host id kind = .ok name → c.dir.files.lookup name = some file →
        Ends (persistMissing codec crc32 host segmentIds rank) c
          (fun _ c' => c'.dir.files.lookup name = some file)) := by
  have hkeeps : ∀ segmentIds rank (c : Cached Id Item Seg Index) name file,
      c.dir.files.lookup name = some file →
      (∀ id other, host id codec.kind = .ok other → name ≠ tmpPath other) →
      Ends (persistMissing codec crc32 host segmentIds rank) c
        (fun _ c' => c'.dir.files.lookup name = some file) := by
    intro segmentIds rank c name file hfile hno
    refine (persistMissing_keeps codec crc32 host segmentIds rank c).mono fun _ c' h => ?_
    refine (h name file hfile).resolve_right ?_
    rintro ⟨id, other, hother, htmp⟩
    exact hno id other hother htmp
  refine ⟨fun key build c t hmiss => ?_, ?_, hkeeps, ?_⟩
  · refine (getOrBuildOnce_ends codec crc32 host build t hmiss).mono ?_
    rintro r s ⟨hsame, h⟩
    refine ⟨hsame.files, fun index => ⟨h.trusted, fun htrusted => (h.of_trusted htrusted).1⟩,
      fun index htrusted => ?_, fun hno => (h.of_untrusted hno).imp_right ?_⟩
    · obtain ⟨-, hentries, ht⟩ := h.of_trusted htrusted
      exact ⟨ht, hentries ▸ EntryMap.replaced_put key index c.entries⟩
    · rintro ⟨ht, hbuilt, hnothing⟩
      refine ⟨ht, fun index hindex => ?_, hnothing⟩
      obtain ⟨hr, hentries⟩ := hbuilt index hindex
      exact ⟨hr, hentries ▸ EntryMap.replaced_put key index c.entries⟩
  · intro key index c c' hentry hcodec haccepts hrun d build t hfiles hread
    have htrusted := trusted_of_persist hentry hcodec haccepts hrun hfiles hread
    refine (getOrBuildOnce_ends codec crc32 host build (c := ⟨∅, d⟩) t rfl).mono ?_
    rintro r s ⟨-, h⟩
    obtain ⟨hloaded, -, ht⟩ := h.of_trusted htrusted
    exact ⟨hloaded, ht⟩
  · intro hhost segmentIds rank c id kind name file hname hfile
    exact hkeeps segmentIds rank c name file hfile fun id' other hother =>
      indexSidecarName_ne_tmpPath (hhost id kind name hname)
        (idxSegId_indexSidecarName (hhost id' _ other hother))

/-- A key is built once, its index is persisted, and a new cache loads it.  Files
that are there stay. -/
theorem get_or_build_trusts_valid_persisted :
    let key : SidecarKey U32 := ⟨0, .new [1, 2]⟩
    let entries : EntryMap U32 (List U32) := EntryMap.put key [1, 2] ∅
    let d : Directory U32 Nat (List Nat) := .empty true
    let files : Files U32 Nat (List Nat) :=
      ((∅ : Files U32 Nat (List Nat)).insert (segPath 0) (.raw [5])).insert
        "segstore.idx.0.toy" (.raw [7])
    let answer (d : Directory U32 Nat (List Nat)) (index : Option (List U32)) :=
      Ends (getOrBuildOnce IdList.idListCodec crc32Fast indexSidecarName key
        (fun calls : Nat => (index, calls + 1))) (⟨∅, d⟩, 0)
    let leaves := Ends (persistMissing IdList.idListCodec crc32Fast indexSidecarName [0]
      (fun _ => 0)) ⟨entries, d.become files⟩
    answer d (some [1, 2]) (fun r s => r = .ok (.built [1, 2]) ∧ s.2 = 1) ∧
      (∃ c', persist IdList.idListCodec crc32Fast indexSidecarName key ⟨entries, d⟩ =
          (.ok true, c') ∧
        answer c'.dir none (fun r s => r = .ok (.loaded [1, 2]) ∧ s.2 = 0)) ∧
      leaves (fun _ c' => c'.dir.files.lookup (segPath 0) = some (.raw [5])) ∧
      leaves (fun _ c' => c'.dir.files.lookup "segstore.idx.0.toy" = some (.raw [7])) := by
  intro key entries d files answer leaves
  obtain ⟨hanswer, hpersisted, hmissing, hsidecars⟩ :=
    @get_or_build_trusts_valid U32 Nat (List Nat) (List U32) Nat _ IdList.idListCodec crc32Fast
      indexSidecarName
  refine ⟨?_, ?_, ?_, ?_⟩
  · refine (hanswer key (fun calls => (some [1, 2], calls + 1)) ⟨∅, d⟩ 0 rfl).mono ?_
    rintro r s ⟨-, -, -, hbuilt⟩
    have hno : ∀ index, ¬ IdList.idListCodec.Trusted crc32Fast indexSidecarName key d index := by
      rintro index ⟨name, bytes, payload, -, hfile, -⟩
      cases hfile
    rcases hbuilt hno with ⟨-, landed, hfate⟩ | ⟨hcalls, hindex, -⟩
    · cases hfate
    · exact ⟨(hindex _ rfl).1, hcalls⟩
  · have hentry : entries.lookup key = some [1, 2] := by
      rw [EntryMap.lookup_put, if_pos rfl]
    have hrun : (persist IdList.idListCodec crc32Fast indexSidecarName key
        (⟨entries, d⟩ : Cached U32 Nat (List Nat) (List U32))).1 = .ok true := by
      decide +kernel
    refine ⟨_, Prod.ext hrun rfl, ?_⟩
    exact hpersisted key [1, 2] ⟨entries, d⟩ _ hentry (by decide +kernel) (by decide +kernel)
      (Prod.ext hrun rfl) _ (fun calls => (none, calls + 1)) 0 rfl rfl
  · have hsegment : files.lookup (segPath 0) = some (.raw [5]) := by
      rw [FinMap.lookup_insert_eq, if_neg (by decide), FinMap.lookup_insert_eq, if_pos rfl]
    exact hmissing [0] (fun _ => 0) ⟨entries, d.become files⟩ (segPath 0) (.raw [5]) hsegment
      fun id other _ h => tmpPath_ne_segPath other 0 h.symm
  · have hname : indexSidecarName 0 "toy" = .ok "segstore.idx.0.toy" := rfl
    have hsidecar : files.lookup "segstore.idx.0.toy" = some (.raw [7]) := by
      rw [FinMap.lookup_insert_eq, if_pos rfl]
    exact hsidecars (fun _ _ _ h => h) [0] (fun _ => 0) ⟨entries, d.become files⟩ 0 "toy" _
      (.raw [7]) hname hsidecar

end Segstore
