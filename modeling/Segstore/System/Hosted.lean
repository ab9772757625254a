import Segstore.Disk.Protection
import Segstore.System.Runs

/-!
# Runs in a directory with other files

The program that hosts a store may keep files of its own next to it, in the
namespace of sidecars and under every name that is not the store's.  Between
two events of the store it may write and remove them.
-/

namespace Segstore

/-! ## Names -/

/-- A name that the store leaves to others. -/
def Foreign (name : String) : Prop :=
  ¬ "segstore.".toList <+: name.toList ∨ IDX_PREFIX.toList <+: name.toList

theorem familyOf_eq_ninth {p : List Char} {name : String} (hp : 9 < p.length)
    (h : p <+: name.toList) : familyOf name = p[9]? := by
  obtain ⟨rest, hrest⟩ := h
  rw [familyOf, ← hrest, List.getElem?_append_left hp]

theorem not_foreign {name : String} (hp : "segstore.".toList <+: name.toList)
    (hf : familyOf name ≠ some 'i') : ¬ Foreign name := by
  rintro (hno | hidx)
  · exact hno hp
  · exact hf (familyOf_eq_ninth (by decide) hidx)

/-- A number after a prefix of the store's. -/
theorem not_foreign_of_parsed {p : String} {name : String} {k : Nat}
    (h : (p.toList.isPrefixOf? name.toList).bind parseU64 = some k)
    (hp : "segstore.".toList <+: p.toList) (hf : familyOf name ≠ some 'i') :
    ¬ Foreign name := by
  obtain ⟨rest, hrest, -⟩ := Option.bind_eq_some_iff.mp h
  refine not_foreign (hp.trans ?_) hf
  exact ⟨rest, List.append_eq_of_isPrefixOf?_eq_some hrest⟩

theorem Foreign.segId_eq_none {name : String} (h : Foreign name) : segId name = none := by
  refine Option.eq_none_iff_forall_ne_some.mpr fun k hk => ?_
  exact not_foreign_of_parsed hk (by decide) (by simp [familyOf_of_segId hk]) h

theorem Foreign.walEpoch_eq_none {name : String} (h : Foreign name) : walEpoch name = none := by
  refine Option.eq_none_iff_forall_ne_some.mpr fun k hk => ?_
  exact not_foreign_of_parsed hk (by decide) (by simp [familyOf_of_walEpoch hk]) h

theorem not_foreign_segPath (k : Nat) : ¬ Foreign (segPath k) :=
  not_foreign (by rw [toList_segPath]; exact (by decide : _ <+: _).trans (List.prefix_append _ _))
    (by simp)

theorem not_foreign_walPath (k : Nat) : ¬ Foreign (walPath k) :=
  not_foreign (by rw [toList_walPath]; exact (by decide : _ <+: _).trans (List.prefix_append _ _))
    (by simp)

variable {Id Item Seg F : Type}

/-! ## Changes of foreign files -/

/-- Only foreign files differ. -/
def SameOwn (f f' : Files Id Item Seg) : Prop :=
  ∀ name, ¬ Foreign name → f'.lookup name = f.lookup name

theorem SameOwn.insert (f : Files Id Item Seg) {name : String} (h : Foreign name)
    (file : File Id Item Seg) : SameOwn f (f.insert name file) := by
  intro n hn
  rw [FinMap.lookup_insert_eq, if_neg]
  rintro rfl
  exact hn h

theorem SameOwn.erase (f : Files Id Item Seg) {name : String} (h : Foreign name) :
    SameOwn f (f.erase name) := by
  intro n hn
  rw [FinMap.lookup_erase_eq, if_neg]
  rintro rfl
  exact hn h

theorem SameOwn.harmless {f f' : Files Id Item Seg} (h : SameOwn f f') (im : Image Id Seg) :
    Directory.Coherent.Harmless im f f' where
  manifest := h _ (not_foreign (by decide) (by simp))
  named := fun k _ => h _ (not_foreign_segPath k)
  file := fun k _ => .inl (h _ (not_foreign_segPath k))
  wal := h _ (not_foreign_walPath _)
  later := fun k _ => .inl (h _ (not_foreign_walPath k))
  legacyWal := h _ (not_foreign (by decide) (by simp))
  legacyCkpt := .inl (h _ (not_foreign (by decide) (by simp)))

/-- The writer does not notice. -/
theorem Framed.foreign {s : SegmentedStore Id Item Seg F} {im : Image Id Seg} (h : Framed s im)
    {files : Files Id Item Seg} (hsame : SameOwn s.dir.files files) :
    Framed { s with dir := s.dir.become files } im where
  disk := h.disk.harmless (hsame.harmless im)
  shape := h.shape
  next_le := h.next_le
  committed := h.committed
  file := fun p hp hpers =>
    (segFile_congr (hsame _ (not_foreign_segPath p.1))).trans (h.file p hp hpers)
  named := h.named
  persisted_lt := h.persisted_lt
  wal := h.wal

/-! ## Runs -/

/-- What happens to the directory: an event of the store, or a file written or
removed by others. -/
inductive Act (Id Item Seg F : Type)
  | own (e : Event Id Item F)
  | write (name : String) (file : File Id Item Seg)
  | remove (name : String)

namespace Proc

/-- Change the files from outside. -/
def meddle (f : Files Id Item Seg → Files Id Item Seg) : Proc Id Item Seg F → Proc Id Item Seg F
  | closed d => closed (d.become (f d.files))
  | running s => running { s with dir := s.dir.become (f s.dir.files) }

variable [DecidableEq Id] [F64 F] (st : Store Id Item Seg)

/-- One act. -/
def act (p : Proc Id Item Seg F) : Act Id Item Seg F → Proc Id Item Seg F
  | .own e => (step st p e).1
  | .write name file => p.meddle (fun files => files.insert name file)
  | .remove name => p.meddle (fun files => files.erase name)

/-- A run. -/
def acts (p : Proc Id Item Seg F) (as : List (Act Id Item Seg F)) : Proc Id Item Seg F :=
  as.foldl (act st) p

omit [DecidableEq Id] [F64 F] in
@[simp] theorem meddle_dir (f : Files Id Item Seg → Files Id Item Seg)
    (p : Proc Id Item Seg F) : (p.meddle f).dir = p.dir.become (f p.dir.files) := by
  cases p <;> rfl

end Proc

end Segstore
