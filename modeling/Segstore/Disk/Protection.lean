import Mathlib.Data.List.Chain
import Segstore.Disk.Garbage

/-!
# Files that garbage collection must not touch

The names a directory needs or has no business with, and calls that never make
one of them disappear: `Careful` looks at every content the directory goes
through.
-/

namespace Segstore

/-! ## Namespaces -/

theorem familyOf_of_walEpoch {name : String} {k : Nat} (h : walEpoch name = some k) :
    familyOf name = some 'w' := by
  by_contra hne
  rw [walEpoch_eq_none hne] at h
  cases h

theorem familyOf_of_segId {name : String} {k : Nat} (h : segId name = some k) :
    familyOf name = some 's' := by
  by_contra hne
  rw [segId_eq_none hne] at h
  cases h

theorem familyOf_of_idxSegId {name : String} {k : Nat} (h : idxSegId name = some k) :
    familyOf name = some 'i' := by
  by_contra hne
  rw [idxSegId_eq_none hne] at h
  cases h

/-- A checkpoint spares a sidecar when it keeps the segment. -/
theorem isOrphan_of_idxSegId {keep : List Nat} {name : String} {k : Nat}
    (h : idxSegId name = some k) : isOrphan keep name = !keep.contains k := by
  have hs : familyOf name ≠ some 's' := by simp [familyOf_of_idxSegId h]
  rw [isOrphan, segId_eq_none hs, h]

/-- So does `open`. -/
theorem isOpenGarbage_of_idxSegId {epoch : Nat} {keep : List Nat} {name : String} {k : Nat}
    (h : idxSegId name = some k) : isOpenGarbage epoch keep name = !keep.contains k := by
  have hw : familyOf name ≠ some 'w' := by simp [familyOf_of_idxSegId h]
  have hs : familyOf name ≠ some 's' := by simp [familyOf_of_idxSegId h]
  rw [isOpenGarbage, walEpoch_eq_none hw]
  simp only [isSegTmp_eq_false hs, segId_eq_none hs, h, Bool.false_eq_true, if_false]

/-- The temporary file of a segment is not taken for a segment. -/
theorem segId_tmp_segPath (k : Nat) : segId (tmpPath (segPath k)) = none := by
  rw [segId, tmpPath, String.toList_append, toList_segPath, SEG_PREFIX, List.append_assoc,
    isPrefixOf?_append, Option.bind_some, parseU64]
  have hplus : '+' ∉ Nat.toDigits 10 k ++ TMP_SUFFIX.toList := by
    intro hmem
    rcases List.mem_append.mp hmem with hmem | hmem
    · exact absurd (isDigit_of_mem hmem) (by decide)
    · exact absurd hmem (by decide)
  have hdot : (Nat.toDigits 10 k ++ TMP_SUFFIX.toList).all Char.isDigit = false := by
    rw [List.all_append, show TMP_SUFFIX.toList.all Char.isDigit = false by decide,
      Bool.and_false]
  simp only [stripPlus_eq hplus, hdot]
  simp

/-- A name in none of the store's namespaces, whatever the size of the number in
it.  The temporary files of the store's own writes do not count: they are
renamed. -/
structure Outside (name : String) : Prop where
  wal : walEpoch name = none ∧ ∀ k, name ≠ walPath k
  segment : segId name = none
  temporary : isSegTmp name = false ∧ (∀ k, name ≠ tmpPath (segPath k)) ∧
    name ≠ tmpPath MANIFEST_PATH
  sidecar : idxSegId name = none

variable {Id Item Seg : Type}

/-- The manifest, the WAL of its epoch, the segments it names, their sidecars,
and everything that is not the store's. -/
inductive Protected (m : LoadedManifest Id) : String → Prop
  | manifest : Protected m MANIFEST_PATH
  | wal : Protected m (walPath m.epoch)
  | segment {k : Nat} (hk : k ∈ m.segmentIds) : Protected m (segPath k)
  | sidecar {k : Nat} {name : String} (hk : k ∈ m.segmentIds) (hname : idxSegId name = some k) :
      Protected m name
  | outside {name : String} (h : Outside name) : Protected m name

section Names

variable {m : LoadedManifest Id} {name : String}

/-- A temporary file is protected under no manifest. -/
theorem not_protected_tmp_segPath (k : Nat) : ¬ Protected m (tmpPath (segPath k)) := by
  intro h
  generalize hname : tmpPath (segPath k) = name at h
  have hfam : familyOf name = some 's' := by rw [← hname, familyOf_tmp_segPath]
  cases h with
  | manifest => simp at hfam
  | wal => simp at hfam
  | segment => exact tmpPath_ne_segPath _ _ hname
  | sidecar _ hidx =>
      rw [familyOf_of_idxSegId hidx] at hfam
      cases hfam
  | outside h => exact h.temporary.2.1 k hname.symm

theorem not_protected_tmp_manifest : ¬ Protected m (tmpPath MANIFEST_PATH) := by
  intro h
  generalize hname : tmpPath MANIFEST_PATH = name at h
  have hfam : familyOf name = some 'm' := by rw [← hname, familyOf_tmp_MANIFEST_PATH]
  cases h with
  | manifest => exact absurd hname (by decide)
  | wal => simp at hfam
  | segment => simp at hfam
  | sidecar _ hidx =>
      rw [familyOf_of_idxSegId hidx] at hfam
      cases hfam
  | outside h => exact h.temporary.2.2 hname.symm

/-- What a checkpoint picks as an orphan is not protected. -/
theorem Protected.not_orphan (h : Protected m name) : isOrphan m.segmentIds name = false := by
  cases h with
  | manifest => exact isOrphan_eq_false (by simp) (by simp)
  | wal => exact isOrphan_eq_false (by simp) (by simp)
  | segment hk => exact isOrphan_segPath hk
  | sidecar hk hidx =>
      rw [isOrphan_of_idxSegId hidx]
      simpa using hk
  | outside h => rw [isOrphan, h.segment, h.sidecar]

/-- What `open` picks as garbage is not protected. -/
theorem Protected.not_openGarbage (h : Protected m name) :
    isOpenGarbage m.epoch m.segmentIds name = false := by
  cases h with
  | manifest => exact isOpenGarbage_eq_false (by simp) (by simp) (by simp)
  | wal => exact isOpenGarbage_walPath _ _
  | segment hk => exact isOpenGarbage_segPath hk
  | sidecar hk hidx =>
      rw [isOpenGarbage_of_idxSegId hidx]
      simpa using hk
  | outside h =>
      rw [isOpenGarbage, h.wal.1]
      simp only [h.temporary.1, h.segment, h.sidecar, Bool.false_eq_true, if_false]

/-- An old WAL is protected under no later manifest. -/
theorem Protected.ne_walPath (h : Protected m name) {k : Nat} (hk : k ≠ m.epoch) :
    name ≠ walPath k := by
  rintro rfl
  generalize hname : walPath k = name at h
  have hfam : familyOf name = some 'w' := by rw [← hname, familyOf_walPath]
  cases h with
  | manifest => simp at hfam
  | wal => exact hk (walPath_inj.mp hname)
  | segment => simp at hfam
  | sidecar _ hidx =>
      rw [familyOf_of_idxSegId hidx] at hfam
      cases hfam
  | outside h => exact h.wal.2 k hname.symm

end Names

/-! ## Calls that spare them -/

/-- No protected name is gone in `f'`. -/
def Spares (f f' : Files Id Item Seg) : Prop :=
  ∀ m, loadedOf f = some m → ∀ name, Protected m name →
    (f.lookup name).isSome → (f'.lookup name).isSome

theorem Spares.refl (f : Files Id Item Seg) : Spares f f := fun _ _ _ _ h => h

/-- Whatever is written, only the name of a temporary file may be gone. -/
theorem Spares.of_tmp {f f' : Files Id Item Seg} {tmp : String}
    (htmp : ∀ m : LoadedManifest Id, ¬ Protected m tmp)
    (h : ∀ name, name ≠ tmp → (f.lookup name).isSome → (f'.lookup name).isSome) :
    Spares f f' :=
  fun m _ name hprot => h name fun hname => htmp m (hname ▸ hprot)

theorem Spares.insert (f : Files Id Item Seg) (name : String) (file : File Id Item Seg) :
    Spares f (f.insert name file) := by
  intro m _ n _ hn
  rw [FinMap.lookup_insert_eq]
  split
  · rfl
  · exact hn

namespace Directory

variable {d d' : Directory Id Item Seg}

/-- Of the contents that the directory went through, each spares what the one
before it needs.  The newest comes first. -/
def Careful (d d' : Directory Id Item Seg) : Prop :=
  ∃ made, d'.states = made ++ d.states ∧
    (made ++ [d.files]).IsChain (fun newer older => Spares older newer)

theorem Careful.of_same (hfiles : d'.files = d.files) (hpast : d'.past = d.past) :
    Careful d d' :=
  ⟨[], by rw [states, states, hfiles, hpast]; rfl, .singleton _⟩

theorem Careful.become {files : Files Id Item Seg} (h : Spares d.files files) :
    Careful d (d.become files) :=
  ⟨[files], rfl, List.isChain_cons_cons.mpr ⟨h, .singleton _⟩⟩

instance : Std.Refl (Careful : Directory Id Item Seg → _ → Prop) :=
  ⟨fun _ => .of_same rfl rfl⟩

instance : IsTrans (Directory Id Item Seg) Careful := by
  refine ⟨fun d₁ d₂ d₃ h₁ h₂ => ?_⟩
  obtain ⟨made₁, hstates₁, hchain₁⟩ := h₁
  obtain ⟨made₂, hstates₂, hchain₂⟩ := h₂
  refine ⟨made₂ ++ made₁, by rw [hstates₂, hstates₁, List.append_assoc], ?_⟩
  have hhead : (made₁ ++ [d₁.files]).head? = some d₂.files := by
    have hhead := congrArg List.head? hstates₁
    cases made₁ with
    | nil => exact hhead.symm
    | cons f made₁ => exact hhead.symm
  obtain ⟨hmade₂, -, hlast⟩ := List.isChain_append.mp hchain₂
  rw [List.append_assoc]
  refine List.isChain_append.mpr ⟨hmade₂, hchain₁, fun f hf f' hf' => hlast f hf f' ?_⟩
  rwa [hhead] at hf'

/-- A call on the directory that spares what is protected however it lands. -/
theorem perform_careful {call : Call} {torn whole : Files Id Item Seg → Files Id Item Seg}
    (htorn : ∀ f, Spares f (torn f)) (hwhole : ∀ f, Spares f (whole f)) :
    Respects Careful (perform call torn whole) := by
  intro d
  apply perform_leaves
  · exact fun r => .become (hwhole d.files)
  · exact fun r hr => .become (.refl d.files)
  · exact fun r hr => .become (htorn d.files)

theorem writeCheckpoint_careful {name : String} (lastAppliedId : Nat) (payload : Payload Id Seg)
    (htmp : ∀ m : LoadedManifest Id, ¬ Protected m (tmpPath name)) :
    Respects Careful (writeCheckpoint name lastAppliedId payload : DirM Id Item Seg Unit) := by
  refine perform_careful (fun f => .insert f _ _) fun f => .of_tmp htmp fun n hn hsome => ?_
  rw [FinMap.lookup_insert_eq]
  split
  · rfl
  · rwa [FinMap.lookup_erase_eq, if_neg hn]

theorem appendLog_careful (name : String) (op : Op Id Item) :
    Respects Careful (appendLog name op : DirM Id Item Seg Unit) :=
  perform_careful .refl fun f => .insert f _ _

theorem flushLog_careful (name : String) :
    Respects Careful (flushLog name : DirM Id Item Seg Unit) := by
  refine perform_careful .refl fun f => ?_
  split
  · exact .insert f _ _
  · exact .refl f

/-- Deleting what is not protected. -/
theorem Deletes.careful {bad : String → Prop} (h : Deletes bad d d')
    (hman : ¬ bad MANIFEST_PATH)
    (hbad : ∀ m, loadedOf d.files = some m → ∀ name, bad name → ¬ Protected m name) :
    Careful d d' := by
  induction h with
  | refl => exact Std.Refl.refl d
  | @tail u v hsteps hstep ih =>
      refine IsTrans.trans _ _ _ ih ?_
      cases hstep with
      | pass => exact .of_same rfl rfl
      | keep => exact .become (.refl _)
      | @erase name hname =>
          refine .become fun m hm n hprot hn => ?_
          have hloaded : loadedOf d.files = some m :=
            (loadedOf_congr (Trimmed.eq (Deletes.trimmed hsteps) hman)).symm.trans hm
          rw [FinMap.lookup_erase_eq, if_neg]
          · exact hn
          · rintro rfl
            exact hbad m hloaded _ hname hprot

end Directory

end Segstore
