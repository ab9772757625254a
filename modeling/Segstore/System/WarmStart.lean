import Segstore.Sidecar.Trust
import Segstore.Writer.Sparing

/-!
# Warm starts

A sidecar that was persisted is there as long as its segment is: whatever the store
does, whatever fails in it and wherever processes stop, a new process that finds the
segment in the manifest loads the index and does not build it again.
-/

namespace Segstore

variable {Id Item Seg F : Type}

/-! ## Contents that spare a name -/

section Spared

variable {name : String}

/-- A file stays while each content spares what the one before needs. -/
theorem isSome_of_spares {made : List (Files Id Item Seg)} {f : Files Id Item Seg}
    (hchain : (made ++ [f]).IsChain (fun newer older => Spares older newer))
    (hprot : ∀ g ∈ made ++ [f], ∃ m, loadedOf g = some m ∧ Protected m name)
    (hsome : (f.lookup name).isSome) : ∀ g ∈ made ++ [f], (g.lookup name).isSome := by
  induction made with
  | nil =>
      intro g hg
      rwa [List.mem_singleton.mp hg]
  | cons newest made ih =>
      rw [List.cons_append, List.isChain_cons] at hchain
      have holder := ih hchain.2 fun g hg => hprot g (List.mem_cons_of_mem _ hg)
      intro g hg
      rcases List.mem_cons.mp hg with rfl | hg
      · -- the content before is the head of what is left
        obtain ⟨older, rest, hrest⟩ := List.exists_cons_of_ne_nil
          (List.append_ne_nil_of_right_ne_nil made (List.cons_ne_nil f []))
        have hmem : older ∈ made ++ [f] := hrest ▸ List.mem_cons_self
        obtain ⟨m, hm, hname⟩ := hprot older (List.mem_cons_of_mem _ hmem)
        exact hchain.1 older (by rw [hrest]; rfl) m hm name hname (holder older hmem)
      · exact holder g hg

namespace Directory

variable {d d' : Directory Id Item Seg} {im im' : Image Id Seg} {k : Nat}

/-- The content it started from is among those it went through. -/
theorem Careful.onward (h : d.Careful d') (hd : d.Coherent im) (hd' : d'.Coherent im') :
    Onward d.files d'.files im im' := by
  obtain ⟨made, hstates, -⟩ := h
  have hthen : d'.states[made.length]? = some d.files := by
    rw [hstates, List.getElem?_append_right (Nat.le_refl _), Nat.sub_self]
    rfl
  exact hd'.lineage.onward (Nat.zero_le _) (show d'.states[0]? = some d'.files from rfl) hthen
    hd.shows hd'.shows

/-- What has been named in between is what is named at the end. -/
theorem Careful.keeps_sidecar (h : d.Careful d') (hd : d.Coherent im) (hd' : d'.Coherent im')
    (hname : idxSegId name = some k) (hlt : k < im.nextSegId) (hk : k ∈ im'.segmentIds)
    (hsome : (d.files.lookup name).isSome) : (d'.files.lookup name).isSome := by
  obtain ⟨made, hstates, hchain⟩ := h
  have hlineage := hd'.lineage
  have hnow : d'.states[0]? = some d'.files := rfl
  have hthen : d'.states[made.length]? = some d.files := by
    rw [hstates, List.getElem?_append_right (Nat.le_refl _), Nat.sub_self]
    rfl
  have hbetween : ∀ j ≤ made.length, ∀ g, d'.states[j]? = some g →
      ∃ m, loadedOf g = some m ∧ Protected m name := by
    intro j hj g hg
    obtain ⟨im₁, hs₁, -⟩ := hlineage.shows g (List.mem_of_getElem? hg)
    have hafter := hlineage.onward hj hg hthen hd.shows hs₁
    have hbefore := hlineage.onward (Nat.zero_le j) hnow hg hs₁ hd'.shows
    have hnamed := hbefore.named k (hlt.trans_le hafter.next_le) hk
    exact ⟨im₁.toLoadedManifest, hs₁.loaded, .sidecar hnamed hname⟩
  have hprot : ∀ g ∈ made ++ [d.files], ∃ m, loadedOf g = some m ∧ Protected m name := by
    intro g hg
    obtain ⟨j, hj, rfl⟩ := List.mem_iff_getElem.mp hg
    have hle : j ≤ made.length := by
      rw [List.length_append, List.length_singleton] at hj
      exact Nat.le_of_lt_succ hj
    refine hbetween j hle _ ?_
    have hsplit : d'.states = (made ++ [d.files]) ++ d.past := by
      rw [hstates, List.append_assoc]
      rfl
    rw [hsplit, List.getElem?_append_left hj, List.getElem?_eq_getElem hj]
  refine isSome_of_spares hchain hprot hsome d'.files ?_
  have hhead : (made ++ [d.files]).head? = some d'.files := by
    have hhead := congrArg List.head? hstates
    cases made with
    | nil => exact hhead.symm
    | cons newest made => exact hhead.symm
  exact List.mem_of_mem_head? hhead

end Directory

end Spared

/-! ## Runs -/

namespace Act

/-- Others keep to their own files; anything may fail in the store. -/
def Polite : Act Id Item Seg F → Prop
  | own _ => True
  | write name _ => Foreign name
  | remove name => Foreign name

/-- Others write or remove this file. -/
def Touches (name : String) : Act Id Item Seg F → Prop
  | own _ => False
  | write n _ => n = name
  | remove n => n = name

end Act

/-- The bytes are there under the name as long as the manifest names the segment. -/
structure Attends (k : Nat) (name : String) (bytes : List UInt8) (files : Files Id Item Seg) :
    Prop where
  known : ∀ m, loadedOf files = some m → k < m.nextSegId
  there : ∀ m, loadedOf files = some m → k ∈ m.segmentIds →
    files.lookup name = some (.raw bytes)

section Attends

variable {k : Nat} {name : String} {bytes : List UInt8}

theorem Attends.of_sameOwn {files files' : Files Id Item Seg} (h : Attends k name bytes files)
    (hsame : SameOwn files files') (hname : files'.lookup name = files.lookup name) :
    Attends k name bytes files' := by
  have hloaded : loadedOf files' = loadedOf files :=
    loadedOf_congr (hsame _ (not_foreign (by decide) (by simp)))
  exact ⟨fun m hm => h.known m (hloaded ▸ hm), fun m hm hk =>
    hname.trans (h.there m (hloaded ▸ hm) hk)⟩

/-- A call that spares what is protected, and at most deletes sidecars. -/
theorem Attends.careful {d d' : Directory Id Item Seg} {im im' : Image Id Seg}
    (h : Attends k name bytes d.files) (hd : d.Coherent im) (hd' : d'.Coherent im')
    (hname : idxSegId name = some k) (hcareful : d.Careful d')
    (hindex : ∀ n, familyOf n = some 'i' →
      d'.files.lookup n = d.files.lookup n ∨ d'.files.lookup n = none) :
    Attends k name bytes d'.files := by
  have hlt := h.known _ hd.shows.loaded
  have hon := hcareful.onward hd hd'
  constructor
  · intro m hm
    cases hd'.shows.loaded.symm.trans hm
    exact hlt.trans_le hon.next_le
  · intro m hm hk
    cases hd'.shows.loaded.symm.trans hm
    have hfile := h.there _ hd.shows.loaded (hon.named k hlt hk)
    have hsome := hcareful.keeps_sidecar hd hd' hname hlt hk (by rw [hfile]; rfl)
    rcases hindex name (familyOf_of_idxSegId hname) with heq | hnone
    · rw [heq, hfile]
    · rw [hnone] at hsome
      cases hsome

theorem Attends.settle {d : Directory Id Item Seg} (h : Attends k name bytes d.files)
    (keep : Nat) (fates : List (Call → Fate)) :
    Attends k name bytes (d.settle keep fates).files := by
  have hloaded : loadedOf (d.settle keep fates).files = loadedOf d.files :=
    Directory.loadedOf_settle d keep fates
  refine ⟨fun m hm => h.known m (hloaded ▸ hm), fun m hm hk => ?_⟩
  rw [Directory.lookup_settle, h.there m (hloaded ▸ hm) hk]
  rfl

end Attends

section Runs

variable [DecidableEq Id] [F64 F] {st : Store Id Item Seg}

namespace Proc

variable {fileBacked : Bool} {p : Proc Id Item Seg F}
variable {k : Nat} {name : String} {bytes : List UInt8}

omit [DecidableEq Id] [F64 F] in
theorem Kept.coherent (h : p.Kept fileBacked False) : ∃ im, p.dir.Coherent im := by
  cases p with
  | closed d => exact ⟨_, h.agrees.2.choose_spec.1⟩
  | running s => exact ⟨_, h.agrees.2.choose_spec.1.disk⟩

/-- The directory after an attempt to open is the one that `open` leaves. -/
theorem dir_step_reopen {im : Image Id Seg} (hcoh : p.dir.Coherent im) (opts : Options F)
    (keep : Nat) (fates : List (Call → Fate)) :
    (step st p (.reopen opts keep fates)).1.dir =
      (openWithOptions st opts (p.dir.settle keep fates)).2 := by
  obtain ⟨-, -, -, -, hopened⟩ := reopen_ends st (hcoh.settle keep fates) opts
  rw [step_reopen]
  generalize openWithOptions st opts (p.dir.settle keep fates) = q at *
  obtain ⟨r, d⟩ := q
  cases r with
  | ok t =>
      obtain ⟨boot, -, ht⟩ := hopened t rfl
      show t.dir = d
      rw [ht]
      rfl
  | err e => rfl
  | crash => rfl

theorem attends_step (hkept : p.Kept fileBacked False) (hname : idxSegId name = some k)
    (h : Attends k name bytes p.dir.files) (e : Event Id Item F) :
    Attends k name bytes (step st p e).1.dir.files := by
  cases e with
  | call cmd fates =>
      cases p with
      | closed d => exact h
      | running s =>
          obtain ⟨-, im, hframed, hcur, hb, -⟩ := hkept.agrees
          obtain ⟨harmed, -⟩ := Resilient.armed_framed hframed fates
          obtain ⟨im', ht, -, hguar, -⟩ :=
            Resilient.armed_exec_ends st hframed hcur hb cmd fates
          have hcareful := (SegmentedStore.partwise_careful st).exec cmd (armed s fates)
          have hdir : (step st (.running s) (.call cmd fates)).1.dir =
              (cmd.exec st (armed s fates)).2.dir := by
            rw [step]
            cases (cmd.exec st (armed s fates)).1 <;> rfl
          rw [hdir]
          exact Attends.careful (d := (armed s fates).dir) h harmed.disk ht.disk hname hcareful
            hguar.index
  | reopen opts keep fates =>
      obtain ⟨im, hcoh⟩ := hkept.coherent
      have hcoh' := hcoh.settle keep fates
      obtain ⟨hcareful, -, -⟩ := open_leaves st hcoh' (ownNames_settle hkept.names keep fates) opts
      obtain ⟨hd, -, -, hindex, -⟩ := reopen_ends st hcoh' opts
      rw [dir_step_reopen hcoh]
      exact (h.settle keep fates).careful hcoh' hd hname hcareful hindex

theorem Kept.polite (h : p.Kept fileBacked False) {a : Act Id Item Seg F} (ha : a.Polite) :
    (p.act st a).Kept fileBacked False := by
  cases a with
  | own e => exact h.step fun hfalse => hfalse.elim
  | write n file => exact h.meddle (.insert _ ha file)
  | remove n => exact h.meddle (.erase _ ha)

theorem Kept.polite_acts (h : p.Kept fileBacked False) {as : List (Act Id Item Seg F)}
    (has : ∀ a ∈ as, a.Polite) : (p.acts st as).Kept fileBacked False := by
  induction as generalizing p with
  | nil => exact h
  | cons a as ih =>
      exact ih (h.polite (has a List.mem_cons_self)) fun a' ha' =>
        has a' (List.mem_cons_of_mem _ ha')

/-- One act. -/
theorem attends_act (hkept : p.Kept fileBacked False) (hname : idxSegId name = some k)
    (h : Attends k name bytes p.dir.files) {a : Act Id Item Seg F} (ha : a.Polite)
    (hoff : ¬ a.Touches name) : Attends k name bytes (p.act st a).dir.files := by
  cases a with
  | own e => exact attends_step hkept hname h e
  | write n file =>
      rw [act, meddle_dir]
      refine h.of_sameOwn (.insert _ ha file) ?_
      show (p.dir.files.insert n file).lookup name = _
      rw [FinMap.lookup_insert_eq, if_neg (Ne.symm hoff)]
  | remove n =>
      rw [act, meddle_dir]
      refine h.of_sameOwn (.erase _ ha) ?_
      show (p.dir.files.erase n).lookup name = _
      rw [FinMap.lookup_erase_eq, if_neg (Ne.symm hoff)]

/-- A run. -/
theorem attends_acts (hkept : p.Kept fileBacked False) (hname : idxSegId name = some k)
    (h : Attends k name bytes p.dir.files) {as : List (Act Id Item Seg F)}
    (has : ∀ a ∈ as, a.Polite ∧ ¬ a.Touches name) :
    Attends k name bytes (p.acts st as).dir.files := by
  induction as generalizing p with
  | nil => exact h
  | cons a as ih =>
      obtain ⟨ha, hoff⟩ := has a List.mem_cons_self
      exact ih (hkept.polite ha) (attends_act hkept hname h ha hoff) fun a' ha' =>
        has a' (List.mem_cons_of_mem _ ha')

/-- After an `open` in which listing and deleting do not fail, the file is there
exactly if the manifest names the segment. -/
theorem attends_reopen (hkept : p.Kept fileBacked False) (hname : idxSegId name = some k)
    (h : Attends k name bytes p.dir.files) (opts : Options F) (keep : Nat)
    {fates : List (Call → Fate)} (hfates : Obliging fates) {s : SegmentedStore Id Item Seg F}
    (hs : (step st p (.reopen opts keep fates)).1 = .running s) :
    ∃ m, loadedOf s.dir.files = some m ∧
      ((s.dir.files.lookup name).isSome ↔ k ∈ m.segmentIds) := by
  obtain ⟨m, hm, hcollected, -⟩ := hkept.reopened hfates hs
  have hafter : Attends k name bytes (step st p (.reopen opts keep fates)).1.dir.files :=
    attends_step hkept hname h _
  rw [hs] at hafter
  refine ⟨m, hm, fun hsome => hcollected.sidecars name hsome k hname, fun hk => ?_⟩
  rw [show s.dir.files.lookup name = _ from hafter.there m hm hk]
  rfl

end Proc

end Runs

/-! ## Persisted sidecars -/

section Persisted

variable {Index τ : Type} [LinearOrder Id] {codec : SidecarCodec Id Index}
variable {crc32 : List UInt8 → UInt32} {key : SidecarKey Id} {c c' : Cached Id Item Seg Index}
variable {index : Index}

open SidecarCache

theorem persist_sameOwn (codec : SidecarCodec Id Index) (crc32 : List UInt8 → UInt32)
    (key : SidecarKey Id) (c : Cached Id Item Seg Index) :
    Ends (persist codec crc32 indexSidecarName key) c
      (fun _ c' => SameOwn c.dir.files c'.dir.files) := by
  rw [persist, Ends.read_bind_iff]
  cases hentry : c.entries.lookup key with
  | none => exact Ends.pure_iff.mpr (.refl _)
  | some index =>
      have hwrite : Respects (Tends codec crc32 c.entries)
          (codec.writeEntry crc32 indexSidecarName key index : DirM Id Item Seg Unit) :=
        SidecarCodec.writeEntry_tends hentry
      exact Ends.bind_pure (Ends.zoom ((hwrite c.dir).mono fun _ _ h => h.same))

/-- Whether a sidecar is trusted depends on the bytes of one file. -/
theorem SidecarCodec.Trusted.of_file {d d' : Directory Id Item Seg} {name : String}
    {bytes : List UInt8} (h : codec.Trusted crc32 indexSidecarName key d index)
    (hname : indexSidecarName key.segmentId codec.kind = .ok name)
    (hfile : d.files.lookup name = some (.raw bytes))
    (hfile' : d'.files.lookup name = some (.raw bytes)) (hread : d'.nextFate .read = .done) :
    codec.Trusted crc32 indexSidecarName key d' index := by
  obtain ⟨name', bytes', payload, hname', hlookup, -, hrest⟩ := h
  cases hname.symm.trans hname'
  cases hfile.symm.trans hlookup
  exact ⟨name, bytes, payload, hname, hfile', hread, hrest⟩

variable [F64 F]

/-- An index that was persisted for a segment of the manifest is loaded, and not
built again, by every later process that finds the segment in the manifest, whatever
happened to the store in between.  Its file is gone after the first `open` that
returns and does not find the segment. -/
theorem persisted_sidecar_lasts (st : Store Id Item Seg) (fileBacked : Bool)
    (codec : SidecarCodec Id Index) (crc32 : List UInt8 → UInt32)
    (before : List (Act Id Item Seg F)) (hbefore : ∀ a ∈ before, a.Polite)
    (key : SidecarKey Id) (index : Index) (c c' : Cached Id Item Seg Index)
    (hcodec : (codec.encode index).bind codec.decode = some index)
    (haccepts : codec.accepts index key.liveIds = true)
    (hentry : c.entries.lookup key = some index)
    (hfiles : c.dir.files = (Proc.acts st (.closed (.empty fileBacked)) before).dir.files)
    (hrun : persist codec crc32 indexSidecarName key c = (.ok true, c')) :
    let p := (Proc.acts st (.closed (.empty fileBacked)) before).meddle fun _ => c'.dir.files
    ∀ m, loadedOf p.dir.files = some m → key.segmentId.toNat ∈ m.segmentIds →
    ∃ name, indexSidecarName key.segmentId codec.kind = .ok name ∧
    ∀ after, (∀ a ∈ after, a.Polite ∧ ¬ a.Touches name) →
      let q := p.acts st after
      (∀ m', loadedOf q.dir.files = some m' → key.segmentId.toNat ∈ m'.segmentIds →
        ∀ d : Directory Id Item Seg, d.files = q.dir.files → d.nextFate .read = .done →
        ∀ (build : τ → Option Index × τ) (t : τ),
          Ends (getOrBuildOnce codec crc32 indexSidecarName key build) (⟨∅, d⟩, t)
            (fun r s => r = .ok (.loaded index) ∧ s.2 = t)) ∧
      ∀ (opts : Options F) (keep : Nat) (fates : List (Call → Fate)), Obliging fates →
        ∀ s, (Proc.step st q (.reopen opts keep fates)).1 = .running s →
        ∃ m', loadedOf s.dir.files = some m' ∧
          ((s.dir.files.lookup name).isSome ↔ key.segmentId.toNat ∈ m'.segmentIds) := by
  intro p m hm hk
  have hsame : SameOwn c.dir.files c'.dir.files := (persist_sameOwn codec crc32 key c).of_run hrun
  have hkept : p.Kept fileBacked False :=
    ((Proc.kept_fresh fileBacked False).polite_acts hbefore).meddle (hfiles ▸ hsame)
  have hnow : p.dir.files = c'.dir.files := by
    rw [Proc.meddle_dir]
    rfl
  have htrusted : ∀ d : Directory Id Item Seg, d.files = c'.dir.files → d.nextFate .read = .done →
      codec.Trusted crc32 indexSidecarName key d index :=
    fun d => trusted_of_persist hentry hcodec haccepts hrun
  obtain ⟨name, bytes, payload, hname, hfile, -⟩ := htrusted { c'.dir with fates := [] } rfl rfl
  have hidx := idxSegId_indexSidecarName hname
  obtain ⟨im, hcoh⟩ := hkept.coherent
  have hattends : Attends key.segmentId.toNat name bytes p.dir.files := by
    cases hm.symm.trans hcoh.shows.loaded
    refine ⟨fun m' hm' => ?_, fun _ _ _ => hnow ▸ hfile⟩
    cases hm'.symm.trans hm
    exact hcoh.numbered.below _ hk
  refine ⟨name, hname, fun after hafter => ?_⟩
  have hlast : Attends key.segmentId.toNat name bytes (p.acts st after).dir.files :=
    Proc.attends_acts hkept hidx hattends hafter
  refine ⟨fun m' hm' hk' d hd hread build t => ?_, fun opts keep fates hfates s hs => ?_⟩
  · have hthere : d.files.lookup name = some (.raw bytes) := hd ▸ hlast.there m' hm' hk'
    have hwarm := (htrusted { c'.dir with fates := [] } rfl rfl).of_file hname hfile hthere hread
    refine (getOrBuildOnce_ends codec crc32 indexSidecarName build (c := ⟨∅, d⟩) t rfl).mono ?_
    rintro r s ⟨-, h⟩
    obtain ⟨hloaded, -, ht⟩ := h.of_trusted hwarm
    exact ⟨hloaded, ht⟩
  · exact Proc.attends_reopen (hkept.polite_acts fun a ha => (hafter a ha).1) hidx hlast opts keep
      hfates hs

end Persisted

open SidecarCache

/-- A sidecar is persisted, an id of its segment deleted, a checkpoint stopped while it
deletes, and the store opened again. -/
theorem persisted_sidecar_lasts_stopped :
    let st := defaultStore U32 Nat
    let key : SidecarKey U32 := ⟨0, .new [1, 2]⟩
    let entries : EntryMap U32 (List U32) := EntryMap.put key [1, 2] ∅
    let answer (d : Directory U32 Nat (List (U32 × Nat))) :=
      Ends (getOrBuildOnce IdList.idListCodec crc32Fast indexSidecarName key
        (fun calls : Nat => (none, calls + 1))) (⟨∅, d⟩, 0)
    ∃ s : SegmentedStore U32 Nat (List (U32 × Nat)) Rat,
      Proc.acts st (.closed (.empty true))
        [.own (.reopen (.new 2) 0 []), .own (.call (.extend [(1, 5), (2, 6)]) []),
          .own (.call .checkpoint []), .write "app.settings" (.raw [1])] = .running s ∧
      ∃ c', persist IdList.idListCodec crc32Fast indexSidecarName key ⟨entries, s.dir⟩ =
        (.ok true, c') ∧
      ∀ d, d.files = (((Proc.running s).meddle fun _ => c'.dir.files).acts st
          [.own (.call (.delete 1) []), .remove "app.settings",
            .own (.call .checkpoint [fun _ => .done, fun _ => .done, fun _ => .stopped .nothing]),
            .own (.reopen (.new 1) 0 []), .own (.call (.add 1 7) [])]).dir.files →
        d.nextFate .read = .done → answer d (fun r s => r = .ok (.loaded [1, 2]) ∧ s.2 = 0) := by
  intro st key entries answer
  have hentry : entries.lookup key = some [1, 2] := by
    rw [EntryMap.lookup_put, if_pos rfl]
  obtain ⟨s, hs, htest⟩ := Proc.holds_iff.mp
    (show (Proc.acts (F := Rat) (defaultStore U32 Nat) (.closed (.empty true))
      [.own (.reopen (.new 2) 0 []), .own (.call (.extend [(1, 5), (2, 6)]) []),
        .own (.call .checkpoint []), .write "app.settings" (.raw [1])]).holds (fun s =>
        let run := persist IdList.idListCodec crc32Fast indexSidecarName ⟨0, .new [1, 2]⟩
          ⟨EntryMap.put ⟨0, .new [1, 2]⟩ [1, 2] ∅, s.dir⟩
        let p := (Proc.running s).meddle fun _ => run.2.dir.files
        let q := p.acts (defaultStore U32 Nat)
          [.own (.call (.delete 1) []), .remove "app.settings",
            .own (.call .checkpoint [fun _ => .done, fun _ => .done, fun _ => .stopped .nothing]),
            .own (.reopen (.new 1) 0 []), .own (.call (.add 1 7) [])]
        decide (run.1 = .ok true ∧ (loadedOf p.dir.files).any (·.segmentIds.contains 0) = true ∧
          (loadedOf q.dir.files).any (·.segmentIds.contains 0) = true)) = true
      by decide +kernel)
  obtain ⟨hok, hnow, hlast⟩ := of_decide_eq_true htest
  obtain ⟨m, hm, hk⟩ := (Option.any_eq_true _ _).mp hnow
  obtain ⟨m', hm', hk'⟩ := (Option.any_eq_true _ _).mp hlast
  refine ⟨s, hs, _, Prod.ext hok rfl, fun d hd hread => ?_⟩
  have hforeign : Foreign "app.settings" := .inl (by decide)
  obtain ⟨name, hname, hlasts⟩ := persisted_sidecar_lasts (τ := Nat) (F := Rat) st true
    IdList.idListCodec crc32Fast
    [.own (.reopen (.new 2) 0 []), .own (.call (.extend [(1, 5), (2, 6)]) []),
      .own (.call .checkpoint []), .write "app.settings" (.raw [1])]
    (by simp [Act.Polite, hforeign]) key [1, 2] ⟨entries, s.dir⟩ _ (by decide +kernel)
    (by decide +kernel) hentry (congrArg (fun p => p.dir.files) hs).symm (Prod.ext hok rfl)
    m (by rw [hs]; exact hm) (List.contains_iff_mem.mp hk)
  rw [hs] at hlasts
  cases (show indexSidecarName 0 "toy" = .ok "segstore.idx.0.toy" from rfl).symm.trans hname
  exact (hlasts _ (by simp [Act.Polite, Act.Touches, hforeign])).1 m' hm'
    (List.contains_iff_mem.mp hk') d hd hread _ 0

end Segstore
