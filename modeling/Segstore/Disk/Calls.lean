import Segstore.Writer.Ledger

/-!
# What calls on a coherent directory do

One rule for each call of the model, for every fate: what the directory stands
for afterwards, and which names may have changed.
-/

namespace Segstore

variable {Id Item Seg α : Type}

/-- Only the listed names differ. -/
def AgreeOff (names : List String) (f f' : Files Id Item Seg) : Prop :=
  ∀ name, name ∉ names → f'.lookup name = f.lookup name

theorem AgreeOff.refl (names : List String) (f : Files Id Item Seg) : AgreeOff names f f :=
  fun _ _ => rfl

theorem AgreeOff.familyOf {names : List String} {f f' : Files Id Item Seg}
    (h : AgreeOff names f f') {name : String}
    (hfam : ∀ n ∈ names, familyOf n ≠ familyOf name) : f'.lookup name = f.lookup name :=
  h name fun hmem => hfam name hmem rfl

/-- Names may be gone if `bad`; all others are as before. -/
def Trimmed (bad : String → Prop) (f f' : Files Id Item Seg) : Prop :=
  ∀ name, f'.lookup name = f.lookup name ∨ f'.lookup name = none ∧ bad name

theorem Trimmed.refl (bad : String → Prop) (f : Files Id Item Seg) : Trimmed bad f f :=
  fun _ => .inl rfl

theorem Trimmed.trans {bad : String → Prop} {f₁ f₂ f₃ : Files Id Item Seg}
    (h₁ : Trimmed bad f₁ f₂) (h₂ : Trimmed bad f₂ f₃) : Trimmed bad f₁ f₃ := by
  intro name
  rcases h₂ name with h | h
  · rw [h]
    exact h₁ name
  · exact .inr h

theorem Trimmed.eq {bad : String → Prop} {f f' : Files Id Item Seg} (h : Trimmed bad f f')
    {name : String} (hgood : ¬ bad name) : f'.lookup name = f.lookup name :=
  (h name).resolve_right fun hbad => hgood hbad.2

namespace Directory

/-! ## The two kinds of call -/

/-- A change is seen whole, or else the call has not returned and the files are as
they were or torn. -/
theorem perform_leaves {call : Call} {torn whole : Files Id Item Seg → Files Id Item Seg}
    {d : Directory Id Item Seg}
    {Q : Outcome PersistenceError Unit → Directory Id Item Seg → Prop}
    (hwhole : ∀ r, Q r (d.become (whole d.files)))
    (hnothing : ∀ r, r ≠ .ok () → Q r (d.become d.files))
    (htorn : ∀ r, r ≠ .ok () → Q r (d.become (torn d.files))) :
    Ends (perform call torn whole) d Q := by
  have hland : ∀ r landed, r ≠ .ok () → Q r (d.become (landing torn whole d.files landed)) := by
    intro r landed hr
    cases landed with
    | nothing => exact hnothing r hr
    | temporary => exact htorn r hr
    | everything => exact hwhole r
  unfold Ends perform
  cases d.nextFate call with
  | done => exact hwhole _
  | failed e landed => exact hland _ landed (by simp)
  | stopped landed => exact hland _ landed (by simp)

theorem observe_ends {call : Call} {f : Files Id Item Seg → Except PersistenceError α}
    {d : Directory Id Item Seg}
    {Q : Outcome PersistenceError α → Directory Id Item Seg → Prop}
    (hok : ∀ a, f d.files = .ok a → Q (.ok a) { d with fates := d.fates.tail })
    (herr : ∀ e, Q (.err e) { d with fates := d.fates.tail })
    (hcrash : Q .crash { d with fates := d.fates.tail }) :
    Ends (observe call f) d Q := by
  unfold Ends observe
  cases d.nextFate call with
  | done =>
      cases hf : f d.files with
      | ok a => simpa [hf] using hok a hf
      | error e => simpa [hf] using herr e
  | failed e landed => exact herr _
  | stopped landed => exact hcrash

/-- A reading call changes nothing but the fates to come. -/
theorem observe_same (call : Call) (f : Files Id Item Seg → Except PersistenceError α)
    (d : Directory Id Item Seg) :
    Ends (observe call f) d (fun r d' => d'.files = d.files ∧ d'.past = d.past ∧
      d'.fileBacked = d.fileBacked ∧ ∀ a, r = .ok a → f d.files = .ok a) := by
  refine observe_ends (fun a ha => ⟨rfl, rfl, rfl, ?_⟩) (fun e => ⟨rfl, rfl, rfl, ?_⟩)
    ⟨rfl, rfl, rfl, ?_⟩
  · rintro b hb
    cases hb
    exact ha
  · rintro b hb
    cases hb
  · rintro b hb
    cases hb

/-! ## Writing files atomically -/

theorem agreeOff_torn (name : String) (file : File Id Item Seg) (files : Files Id Item Seg) :
    AgreeOff [tmpPath name] files (files.insert (tmpPath name) file) := by
  intro n hn
  rw [FinMap.lookup_insert_eq, if_neg (by simpa using hn)]

theorem agreeOff_whole (name : String) (file : File Id Item Seg) (files : Files Id Item Seg) :
    AgreeOff [name, tmpPath name] files ((files.erase (tmpPath name)).insert name file) := by
  intro n hn
  simp only [List.mem_cons, List.not_mem_nil, or_false, not_or] at hn
  rw [FinMap.lookup_insert_eq, if_neg hn.1, FinMap.lookup_erase_eq, if_neg hn.2]

/-- An atomic write, told by what other calls can see. -/
theorem writeCheckpoint_ends (name : String) (lastAppliedId : Nat) (payload : Payload Id Seg)
    (d : Directory Id Item Seg) :
    Ends (writeCheckpoint name lastAppliedId payload) d (fun r d' =>
      ∃ files, d' = d.become files ∧
        (r ≠ .ok () ∧ AgreeOff [tmpPath name] d.files files ∨
          AgreeOff [name, tmpPath name] d.files files ∧
            files.lookup name = some (.checkpoint lastAppliedId payload))) := by
  unfold writeCheckpoint atomicWrite
  apply perform_leaves
  · refine fun r => ⟨_, rfl, .inr ⟨agreeOff_whole name _ d.files, ?_⟩⟩
    rw [FinMap.lookup_insert_eq, if_pos rfl]
  · exact fun r hr => ⟨_, rfl, .inl ⟨hr, .refl _ _⟩⟩
  · exact fun r hr => ⟨_, rfl, .inl ⟨hr, agreeOff_torn name _ d.files⟩⟩

variable {d : Directory Id Item Seg} {im : Image Id Seg}

/-- Writing the file of a segment id that the manifest does not know of. -/
theorem writeSegment_ends (h : d.Coherent im) {k : Nat} (hk : im.nextSegId ≤ k) (seg : Seg) :
    Ends (writeCheckpoint (segPath k) 0 (.segment seg)) d (fun r d' =>
      d'.Coherent im ∧ d'.fileBacked = d.fileBacked ∧
        AgreeOff [segPath k, tmpPath (segPath k)] d.files d'.files ∧
          (r = .ok () → segFile d'.files k = some seg)) := by
  have hharmless : ∀ files : Files Id Item Seg,
      AgreeOff [segPath k, tmpPath (segPath k)] d.files files →
        Coherent.Harmless im d.files files := by
    intro files hagree
    have hseg : ∀ j, j < im.nextSegId →
        files.lookup (segPath j) = d.files.lookup (segPath j) := by
      intro j hj
      refine hagree _ ?_
      have hjk : j ≠ k := by omega
      simp [hjk, (tmpPath_ne_segPath (segPath k) j).symm]
    have hfam : ∀ name, familyOf name ≠ some 's' →
        files.lookup name = d.files.lookup name := fun name hs =>
      hagree.familyOf (by simpa [eq_comm] using hs)
    exact ⟨hfam _ (by simp), fun j hj => hseg j (h.numbered.below j hj),
      fun j hj => .inl (hseg j hj), hfam _ (by simp), fun j _ => .inl (hfam _ (by simp)),
      hfam _ (by simp), .inl (hfam _ (by simp))⟩
  refine (writeCheckpoint_ends (segPath k) 0 (.segment seg) d).mono ?_
  rintro r _ ⟨files, rfl, ⟨hr, hagree⟩ | ⟨hagree, hfile⟩⟩
  · have hagree' : AgreeOff [segPath k, tmpPath (segPath k)] d.files files :=
      fun name hname => hagree name (fun hmem => hname (List.mem_cons_of_mem _ hmem))
    exact ⟨h.harmless (hharmless files hagree'), rfl, hagree', fun hok => absurd hok hr⟩
  · refine ⟨h.harmless (hharmless files hagree), rfl, hagree, fun _ => ?_⟩
    rw [segFile, Directory.become, hfile]

/-- Writing the manifest of the next epoch: the old image or the new one. -/
theorem writeManifest_ends (h : d.Coherent im) (im' : Image Id Seg) {m : Manifest Id}
    {ext : ManifestExt Id} (hext : m.ext = some ext)
    (hversion : ext.version = MANIFEST_EXT_VERSION)
    (him : im'.toLoadedManifest = .ofCurrent (im.epoch + 1) m ext) (hnum : im'.Numbered)
    (hsegs : List.Forall₂ (fun k seg => segFile d.files k = some seg)
      im'.segmentIds im'.segments)
    (hnext : im.nextSegId ≤ im'.nextSegId)
    (hnamed : ∀ k < im.nextSegId, k ∈ im'.segmentIds → k ∈ im.segmentIds) :
    Ends (writeCheckpoint MANIFEST_PATH (im.epoch + 1) (.manifest m)) d (fun r d' =>
      d'.fileBacked = d.fileBacked ∧
        AgreeOff [MANIFEST_PATH, tmpPath MANIFEST_PATH] d.files d'.files ∧
          (r ≠ .ok () ∧ d'.Coherent im ∧
              logOf d'.files (walPath im.epoch) = logOf d.files (walPath im.epoch) ∨
            d'.Coherent im' ∧ logOf d'.files (walPath im'.epoch) = .empty)) := by
  refine (writeCheckpoint_ends MANIFEST_PATH (im.epoch + 1) (.manifest m) d).mono ?_
  rintro r _ ⟨files, rfl, ⟨hr, hagree⟩ | ⟨hagree, hfile⟩⟩
  · have hharmless : Coherent.Harmless im d.files files :=
      Coherent.Harmless.of_agree fun name _ _ _ htmp => hagree name (by simpa using htmp)
    exact ⟨rfl, fun name hname => hagree name (fun hmem => hname (List.mem_cons_of_mem _ hmem)),
      .inl ⟨hr, h.harmless hharmless, hharmless.logOf_eq⟩⟩
  · have hfam : ∀ name, familyOf name ≠ some 'm' →
        files.lookup name = d.files.lookup name := fun name hm =>
      hagree.familyOf (by simpa [eq_comm] using hm)
    have hshows : Shows files im' := by
      refine ⟨?_, Shows.forall₂_congr hsegs fun k _ => segFile_congr (hfam _ (by simp))⟩
      rw [loadedOf, hfile]
      simp [hext, hversion, him]
    have hepoch : im'.epoch = im.epoch + 1 := by rw [him]; rfl
    refine ⟨rfl, hagree, .inr ⟨h.commit hshows hnum hepoch (by simp [hfile]) ?_ hnext hnamed, ?_⟩⟩
    · exact fun name h₁ h₂ => hagree name (by simp [h₁, h₂])
    · have hwal : Unlogged files (walPath im'.epoch) :=
        (h.unlogged _ (by omega)).imp (hfam _ (by simp)).trans (hfam _ (by simp)).trans
      exact hwal.logOf_eq

/-! ## The log -/

/-- `logOf` describes the current WAL whether or not it exists yet. -/
theorem lookup_insert_log (files : Files Id Item Seg) (name : String)
    (log : RecordLog Id Item) : logOf (files.insert name (.log log)) name = log := by
  rw [logOf, FinMap.lookup_insert_eq, if_pos rfl]

/-- Only the current log is touched, and it is what `f` makes of it, or else the
call failed. -/
def LogChange (im : Image Id Seg) (f : RecordLog Id Item → RecordLog Id Item)
    (d : Directory Id Item Seg) (r : Outcome PersistenceError Unit)
    (d' : Directory Id Item Seg) : Prop :=
  d'.Coherent im ∧ d'.fileBacked = d.fileBacked ∧
    AgreeOff [walPath im.epoch] d.files d'.files ∧
      (r ≠ .ok () ∧ logOf d'.files (walPath im.epoch) = logOf d.files (walPath im.epoch) ∨
        logOf d'.files (walPath im.epoch) = f (logOf d.files (walPath im.epoch)))

/-- A call that replaces the log, or finds nothing to do. -/
theorem perform_logChange (h : d.Coherent im) {call : Call}
    {whole : Files Id Item Seg → Files Id Item Seg} {f : RecordLog Id Item → RecordLog Id Item}
    (hwhole : whole d.files = d.files ∧
        logOf d.files (walPath im.epoch) = f (logOf d.files (walPath im.epoch)) ∨
      whole d.files =
        d.files.insert (walPath im.epoch) (.log (f (logOf d.files (walPath im.epoch))))) :
    Ends (perform call id whole) d (LogChange im f d) := by
  have hsame : (d.become d.files).Coherent im :=
    h.harmless (.of_agree fun _ _ _ _ _ => rfl)
  apply perform_leaves
  · intro r
    rcases hwhole with ⟨hwhole, hlog⟩ | hwhole
    · rw [hwhole]
      exact ⟨hsame, rfl, .refl _ _, .inr hlog⟩
    · rw [hwhole]
      refine ⟨h.walChange (AList.lookup_insert d.files) fun name hname => ?_, rfl,
        fun name hname => ?_, .inr (lookup_insert_log ..)⟩
      · rw [FinMap.lookup_insert_eq, if_neg hname]
      · exact (FinMap.lookup_insert_eq _ _ _ _).trans (if_neg (by simpa using hname))
  · exact fun r hr => ⟨hsame, rfl, .refl _ _, .inl ⟨hr, rfl⟩⟩
  · exact fun r hr => ⟨hsame, rfl, .refl _ _, .inl ⟨hr, rfl⟩⟩

theorem appendLog_ends (h : d.Coherent im) (op : Op Id Item) :
    Ends (appendLog (walPath im.epoch) op) d (LogChange im (fun log => log.append op) d) :=
  perform_logChange h (.inr rfl)

theorem flushLog_ends (h : d.Coherent im) :
    Ends (flushLog (walPath im.epoch)) d (LogChange im RecordLog.flushed d) := by
  refine perform_logChange h ?_
  rcases h.walLog with hnone | ⟨log, hlog⟩
  · rw [hnone]
    refine .inl ⟨rfl, ?_⟩
    rw [logOf, hnone]
    rfl
  · rw [hlog]
    refine .inr ?_
    rw [logOf, hlog]

end Directory

end Segstore
