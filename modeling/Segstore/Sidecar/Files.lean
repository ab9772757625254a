import Segstore.Sidecar.Calls
import Segstore.Sidecar.Names
import Segstore.System.Hosted

/-!
# Sidecar files

What calls on a cache do to the directory: the files of the store are not
touched, and the bytes that are new in a file frame an entry of the cache.
-/

namespace Segstore

/-! ## Names -/

theorem foreign_indexSidecarName {id : UInt64} {kind name : String}
    (h : indexSidecarName id kind = .ok name) : Foreign name ∧ Foreign (tmpPath name) := by
  have hidx : IDX_PREFIX.toList <+: name.toList := by
    rw [toList_indexSidecarName h]
    exact List.prefix_append _ _
  refine ⟨.inr hidx, .inr (hidx.trans ?_)⟩
  rw [tmpPath, String.toList_append]
  exact List.prefix_append _ _

variable {Id Item Seg Index : Type} [LinearOrder Id]

/-! ## What is in a file -/

namespace SidecarCodec

variable (codec : SidecarCodec Id Index) (crc32 : List UInt8 → UInt32)

/-- The sidecar of the segment can be decoded. -/
def Stored (files : Files Id Item Seg) (segmentId : UInt64) (index : Index) : Prop :=
  ∃ name bytes payload, indexSidecarName segmentId codec.kind = .ok name ∧
    files.lookup name = some (.raw bytes) ∧
    SidecarEnvelope.decode crc32 (codec.tags segmentId) bytes = some (.ok payload) ∧
    codec.decode payload = some index

/-- The bytes frame one of the entries, under the name of its sidecar. -/
def Frames (entries : EntryMap Id Index) (name : String) (bytes : List UInt8) : Prop :=
  ∃ key index, entries.lookup key = some index ∧
    indexSidecarName key.segmentId codec.kind = .ok name ∧
    codec.encodeEnvelope crc32 key index = .ok bytes

variable {codec crc32}

/-- An envelope is as long as its header. -/
theorem decode_nil (tags : SidecarTags) (payload : List UInt8) :
    SidecarEnvelope.decode crc32 tags [] ≠ some (.ok payload) := by
  rw [SidecarEnvelope.decode, Checked.reject_bind, if_pos (by decide)]
  intro h
  cases h

/-- An entry is framed as the envelope of its payload. -/
theorem encodeEnvelope_eq_ok {key : SidecarKey Id} {index : Index} {bytes : List UInt8} :
    codec.encodeEnvelope crc32 key index = .ok bytes ↔ ∃ payload,
      codec.encode index = some payload ∧
        SidecarEnvelope.encode crc32 (codec.tags key.segmentId) payload = some (.ok bytes) := by
  rw [encodeEnvelope]
  cases hpayload : codec.encode index with
  | none =>
      refine iff_of_false (by simp) ?_
      rintro ⟨_, ⟨⟩, -⟩
  | some payload =>
      cases hr : SidecarEnvelope.encode crc32 (codec.tags key.segmentId) payload with
      | none => exact absurd hr (SidecarEnvelope.encode_ne_none crc32 _ payload)
      | some r =>
          simp only [Checked.result_eq hr]
          constructor
          · rintro rfl
            exact ⟨payload, rfl, hr⟩
          · rintro ⟨_, ⟨⟩, h⟩
            exact Option.some.inj (hr.symm.trans h)

/-- What an entry was framed as is decoded as the entry. -/
theorem decode_encodeEnvelope
    (hcodec : ∀ index payload, codec.encode index = some payload →
      codec.decode payload = some index)
    {key : SidecarKey Id} {index index' : Index} {bytes payload : List UInt8}
    (hencode : codec.encodeEnvelope crc32 key index = .ok bytes)
    (hdecode : SidecarEnvelope.decode crc32 (codec.tags key.segmentId) bytes = some (.ok payload))
    (hindex : codec.decode payload = some index') : index' = index := by
  obtain ⟨p, hpayload, hbytes⟩ := encodeEnvelope_eq_ok.mp hencode
  have hp := hdecode.symm.trans (SidecarEnvelope.decode_iff_encode.mpr hbytes)
  obtain rfl : payload = p := Except.ok.inj (Option.some.inj hp)
  exact Option.some.inj (hindex.symm.trans (hcodec index payload hpayload))

end SidecarCodec

/-! ## What calls do to files -/

omit [LinearOrder Id] in
theorem SameOwn.refl (f : Files Id Item Seg) : SameOwn f f := fun _ _ => rfl

omit [LinearOrder Id] in
theorem SameOwn.trans {f f' f'' : Files Id Item Seg} (h : SameOwn f f') (h' : SameOwn f' f'') :
    SameOwn f f'' :=
  fun name hname => (h' name hname).trans (h name hname)

/-- From `d` to `d'` only foreign files differ, and bytes that are new in a file
frame one of the entries, unless there are none. -/
structure Tends (codec : SidecarCodec Id Index) (crc32 : List UInt8 → UInt32)
    (entries : EntryMap Id Index) (d d' : Directory Id Item Seg) : Prop where
  coherent : ∀ im, d.Coherent im → d'.Coherent im
  backed : d'.fileBacked = d.fileBacked
  same : SameOwn d.files d'.files
  raw : ∀ name bytes, d'.files.lookup name = some (.raw bytes) →
    d.files.lookup name = some (.raw bytes) ∨ bytes = [] ∨ codec.Frames crc32 entries name bytes

namespace Tends

variable {codec : SidecarCodec Id Index} {crc32 : List UInt8 → UInt32}
variable {entries : EntryMap Id Index} {d d' : Directory Id Item Seg}

instance : Std.Refl (Tends codec crc32 entries : Directory Id Item Seg → _ → Prop) :=
  ⟨fun _ => ⟨fun _ h => h, rfl, .refl _, fun _ _ h => .inl h⟩⟩

instance : IsTrans (Directory Id Item Seg) (Tends codec crc32 entries) := by
  refine ⟨fun d₁ d₂ d₃ h₁ h₂ => ⟨fun im h => h₂.coherent im (h₁.coherent im h),
    h₂.backed.trans h₁.backed, h₁.same.trans h₂.same, fun name bytes h => ?_⟩⟩
  rcases h₂.raw name bytes h with h | h
  · exact h₁.raw name bytes h
  · exact .inr h

theorem of_same (h : Directory.Same d d') : Tends codec crc32 entries d d' where
  coherent := fun _ hd => hd.congr h.files h.past
  backed := h.fileBacked
  same := by
    rw [h.files]
    exact .refl _
  raw := by
    rw [h.files]
    exact fun _ _ h => .inl h

/-- One change. -/
theorem become {files : Files Id Item Seg} (hsame : SameOwn d.files files)
    (hraw : ∀ name bytes, files.lookup name = some (.raw bytes) →
      d.files.lookup name = some (.raw bytes) ∨ bytes = [] ∨
        codec.Frames crc32 entries name bytes) :
    Tends codec crc32 entries d (d.become files) :=
  ⟨fun im hd => hd.harmless (hsame.harmless im), rfl, hsame, hraw⟩

end Tends

namespace SidecarCodec

variable {codec : SidecarCodec Id Index} {crc32 : List UInt8 → UInt32}
variable {entries : EntryMap Id Index}

/-- A sidecar is written, or its temporary file only. -/
theorem writeSidecar_tends {name : String} {bytes : List UInt8}
    (hname : Foreign name ∧ Foreign (tmpPath name))
    (hbytes : codec.Frames crc32 entries name bytes) :
    Respects (Tends codec crc32 entries)
      (Directory.writeSidecar name bytes : DirM Id Item Seg Unit) := by
  intro d
  have htorn : Tends codec crc32 entries d
      (d.become (d.files.insert (tmpPath name) (.raw []))) := by
    refine .become (.insert _ hname.2 _) fun n b h => ?_
    rw [FinMap.lookup_insert_eq] at h
    split at h
    · cases h
      exact .inr (.inl rfl)
    · exact .inl h
  have hwhole : Tends codec crc32 entries d
      (d.become ((d.files.erase (tmpPath name)).insert name (.raw bytes))) := by
    refine .become ((SameOwn.erase _ hname.2).trans (.insert _ hname.1 _)) fun n b h => ?_
    rw [FinMap.lookup_insert_eq, FinMap.lookup_erase_eq] at h
    split at h
    · rename_i hn
      cases h
      exact .inr (.inr (hn ▸ hbytes))
    · split at h
      · cases h
      · exact .inl h
  have hnothing : Tends codec crc32 entries d (d.become d.files) :=
    .become (.refl _) fun _ _ h => .inl h
  rw [Directory.writeSidecar, Directory.atomicWrite]
  apply Directory.perform_leaves
  · exact fun r => hwhole
  · exact fun r hr => hnothing
  · exact fun r hr => htorn

/-- A foreign file is deleted. -/
theorem delete_tends {name : String} (hname : Foreign name) :
    Respects (Tends codec crc32 entries) (Directory.delete name : DirM Id Item Seg Unit) := by
  intro d
  have herase : Tends codec crc32 entries d (d.become (d.files.erase name)) := by
    refine .become (.erase _ hname) fun n b h => ?_
    rw [FinMap.lookup_erase_eq] at h
    split at h
    · cases h
    · exact .inl h
  have hnothing : Tends codec crc32 entries d (d.become d.files) :=
    .become (.refl _) fun _ _ h => .inl h
  rw [Directory.delete]
  apply Directory.perform_leaves
  · exact fun r => herase
  · exact fun r hr => hnothing
  · exact fun r hr => hnothing

theorem writeEntry_tends {key : SidecarKey Id} {index : Index}
    (hentry : entries.lookup key = some index) :
    Respects (Tends codec crc32 entries)
      (codec.writeEntry crc32 indexSidecarName key index : DirM Id Item Seg Unit) :=
  .ofExcept_bind fun _ hbytes => .ofExcept_bind fun _ hname =>
    writeSidecar_tends (foreign_indexSidecarName hname) ⟨key, index, hentry, hname, hbytes⟩

theorem writeMissing_tends {pending : List (SidecarKey Id × Index)}
    (hentries : ∀ p ∈ pending, entries.lookup p.1 = some p.2) :
    Respects (Tends codec crc32 entries)
      (codec.writeMissing crc32 indexSidecarName pending : DirM Id Item Seg Nat) := by
  induction pending with
  | nil => exact .pure 0
  | cons p pending ih =>
      obtain ⟨key, index⟩ := p
      have hrest := ih fun q hq => hentries q (List.mem_cons_of_mem _ hq)
      have hentry : entries.lookup key = some index := hentries (key, index) List.mem_cons_self
      refine .ofExcept_bind fun name hname => .read_bind fun there => ?_
      split
      · exact hrest
      · exact .ofExcept_bind fun bytes hbytes =>
          .bind (writeSidecar_tends (foreign_indexSidecarName hname)
            ⟨key, index, hentry, hname, hbytes⟩) fun _ => .bind hrest fun _ => .pure _

theorem dropSidecar_tends (segmentId : UInt64) :
    Respects (Tends codec crc32 entries)
      (codec.dropSidecar indexSidecarName segmentId : DirM Id Item Seg Unit) := by
  refine .ofExcept_bind fun name hname => .read_bind fun there => ?_
  split
  · exact delete_tends (foreign_indexSidecarName hname).1
  · exact .pure ()

/-- What is stored afterwards was stored before or is an entry of the cache. -/
theorem Stored.of_tends
    (hcodec : ∀ index payload, codec.encode index = some payload →
      codec.decode payload = some index)
    {d d' : Directory Id Item Seg} (h : Tends codec crc32 entries d d') {segmentId : UInt64}
    {index : Index} (hstored : codec.Stored crc32 d'.files segmentId index) :
    codec.Stored crc32 d.files segmentId index ∨
      ∃ key, key.segmentId = segmentId ∧ entries.lookup key = some index := by
  obtain ⟨name, bytes, payload, hname, hfile, hpayload, hindex⟩ := hstored
  rcases h.raw name bytes hfile with hfile | rfl | ⟨key, index', hentry, hname', hbytes⟩
  · exact .inl ⟨name, bytes, payload, hname, hfile, hpayload, hindex⟩
  · exact absurd hpayload (decode_nil _ _)
  · obtain rfl : key.segmentId = segmentId := (indexSidecarName_inj hname' hname).1
    obtain rfl := decode_encodeEnvelope hcodec hbytes hpayload hindex
    exact .inr ⟨key, rfl, hentry⟩

end SidecarCodec

end Segstore
