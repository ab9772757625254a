import Segstore.Memory.Tiers
import Segstore.Writer.Memory
import Segstore.Writer.Reopen

/-!
# The sizes of segments during a call

Under given options there is a length that no write, checkpoint or tiered
compaction of a default store exceeds.  The segments beyond that length, which
only the other compactions make, pass through these calls untouched, whatever
fails.
-/

namespace Segstore

variable {Id Item F : Type}

/-- The greatest length of a segment that a write or a tiered compaction makes. -/
def Options.cap (opts : Options F) : Nat :=
  max (max opts.tiering.maxMergedLen opts.flushThreshold) 1

/-- A call that merges without regard to the size cap. -/
def Cmd.Consolidates : Cmd Id Item F → Prop
  | .compact => True
  | .forceMergeTo _ => True
  | .reclaimTombstones _ => True
  | _ => False

/-- A framed writer whose long segments are in memory exactly those of `M`, and in
its image no others than those of `M` and of `D`. -/
structure Capped (opts : Options F) (M D : Nat × List (Id × Item) → Prop)
    (s : SegmentedStore Id Item (List (Id × Item)) F) (im : Image Id (List (Id × Item))) :
    Prop where
  framed : Framed s im
  options : s.opts = opts
  buffer : s.buffer.length ≤ opts.cap
  memory : ∀ p, opts.cap < p.2.length → (p ∈ s.sealed ↔ M p)
  image : ∀ p ∈ im.sealed, opts.cap < p.2.length → M p ∨ D p

/-- How a call ends that spares the long segments. -/
def EndsCapped {α : Type} (opts : Options F) (M D : Nat × List (Id × Item) → Prop)
    (r : Outcome PersistenceError α) (t : SegmentedStore Id Item (List (Id × Item)) F) : Prop :=
  ∃ im, Capped opts M D t im ∧ (r ≠ .crash → Current t im)

namespace Capped

variable {opts : Options F} {M D : Nat × List (Id × Item) → Prop}
variable {s t : SegmentedStore Id Item (List (Id × Item)) F} {im : Image Id (List (Id × Item))}
variable {α β : Type}

/-- The image stays, and the memory changes within the cap. -/
theorem step (h : Capped opts M D s im) (ht : Framed t im) (hopts : t.opts = s.opts)
    (hwithin : Contents.Within opts.cap opts.cap s.toContents t.toContents)
    (hbuffer : t.buffer.length ≤ opts.cap) : Capped opts M D t im where
  framed := ht
  options := hopts.trans h.options
  buffer := hbuffer
  memory := by
    intro p hlong
    rw [← h.memory p hlong]
    refine ⟨fun hp => ?_, fun hp => hwithin.kept p hp hlong⟩
    exact (hwithin.created p hp).resolve_right (Nat.not_le_of_lt hlong)
  image := h.image

/-- Nothing changes but the directory and the state of the log writer. -/
theorem onWal (h : Capped opts M D s im) {d : Directory Id Item (List (Id × Item))} {b : Bool}
    (hd : Framed { s with dir := d, walPoisoned := b } im) :
    Capped opts M D { s with dir := d, walPoisoned := b } im :=
  h.step hd rfl (.of_sealed rfl) h.buffer

theorem ends (h : Capped opts M D s im) (hcur : Current s im)
    (r : Outcome PersistenceError α) : EndsCapped opts M D r s :=
  ⟨im, h, fun _ => hcur⟩

variable [DecidableEq Id]

theorem flushed (h : Capped opts M D s im) :
    Capped opts M D { s with toContents := s.toContents.flushBuffer (defaultStore Id Item) } im :=
  h.step (h.framed.contents (h.framed.shape.flushBuffer _) (.flushBuffer _ h.framed.shape)) rfl
    (.flushBuffer h.framed.shape _ h.buffer) (by
      rw [Contents.flushBuffer_buffer]
      exact Nat.zero_le _)

end Capped

namespace EndsCapped

variable {opts : Options F} {M D : Nat × List (Id × Item) → Prop}
variable {s : SegmentedStore Id Item (List (Id × Item)) F} {α β : Type}

/-- Sequencing. -/
theorem bind {p : StoreM Id Item (List (Id × Item)) F α}
    {f : α → StoreM Id Item (List (Id × Item)) F β}
    (hp : Ends p s (EndsCapped opts M D))
    (hf : ∀ v {t im}, Capped opts M D t im → Current t im →
      Ends (f v) t (EndsCapped opts M D)) : Ends (p >>= f) s (EndsCapped opts M D) := by
  refine Ends.bind hp ?_ ?_ ?_
  · rintro v t ⟨im, ht, hcur⟩
    exact hf v ht (hcur (by simp))
  · rintro e t ⟨im, ht, hcur⟩
    exact ht.ends (hcur (by simp)) _
  · rintro t ⟨im, ht, -⟩
    exact ⟨im, ht, by simp⟩

end EndsCapped

section Calls

open SegmentedStore

variable [DecidableEq Id]
variable {opts : Options F} {M D : Nat × List (Id × Item) → Prop}
variable {s : SegmentedStore Id Item (List (Id × Item)) F} {im : Image Id (List (Id × Item))}

/-! ## Checkpoints and compactions -/

omit [DecidableEq Id] in
theorem withSegmentsAfter_capped (h : Capped opts M D s im) (hcur : Current s im)
    (stats : CompactionStats) : Ends (withSegmentsAfter stats) s (EndsCapped opts M D) := by
  rw [withSegmentsAfter, Ends.get_bind_iff]
  exact Ends.pure_iff.mpr (h.ends hcur _)

/-- On a healthy writer a checkpoint begins with the seal of the buffer. -/
theorem checkpoint_of_flushed {Seg : Type} (st : Store Id Item Seg)
    {s : SegmentedStore Id Item Seg F} (hhealthy : s.poisoned = false)
    {Q : Outcome PersistenceError Unit → SegmentedStore Id Item Seg F → Prop}
    (h : Ends (checkpoint st) { s with toContents := s.toContents.flushBuffer st } Q) :
    Ends (checkpoint st) s Q := by
  have hpass : ∀ u : SegmentedStore Id Item Seg F, u.poisoned = false →
      checkPoisoned u = (.ok (), u) := by
    intro u hu
    show (if u.poisoned = true then Eff.fail poisonedError else pure ()) u = _
    rw [hu]
    rfl
  rw [checkpoint, Ends.of_ok (hpass { s with toContents := s.toContents.flushBuffer st } hhealthy),
    onContents, Ends.update_bind_iff] at h
  rw [checkpoint, Ends.of_ok (hpass s hhealthy), onContents, Ends.update_bind_iff]
  rwa [Contents.flushBuffer_of_empty (s.toContents.flushBuffer st) st
    (Contents.flushBuffer_buffer _ st)] at h

/-- A commit puts nothing into the image but what is in memory. -/
theorem checkpoint_capped (h : Capped opts M D s im) (hcur : Current s im) :
    Ends (checkpoint (defaultStore Id Item)) s (EndsCapped opts M D) := by
  by_cases hhealthy : s.poisoned = false
  case neg =>
    rw [checkpoint]
    refine Ends.bind (checkPoisoned_ends s) ?_ ?_ ?_
    · rintro ⟨⟩ t ⟨-, -, hok⟩
      exact absurd (hok rfl) hhealthy
    · rintro e t ⟨rfl, -, -⟩
      exact h.ends hcur _
    · exact fun t ht => absurd rfl ht.2.1
  have hflush := h.flushed
  refine checkpoint_of_flushed _ hhealthy
    (((checkpoint_ends _ hflush.framed hcur).and (checkpoint_memory _ _)).mono ?_)
  rintro r t ⟨⟨im', ht, hcur', hguar, -, -⟩, -, -, hmem⟩
  -- after the seal a checkpoint changes no segment and allocates no id
  have hsame : t.sealed = (s.toContents.flushBuffer (defaultStore Id Item)).sealed ∧
      t.nextSegId = (s.toContents.flushBuffer (defaultStore Id Item)).nextSegId ∧
      t.buffer = [] := by
    have hempty := Contents.flushBuffer_buffer s.toContents (defaultStore Id Item)
    dsimp only at hmem
    rw [Contents.flushBuffer_of_empty _ _ hempty, ← or_assoc, or_self] at hmem
    rcases hmem with hmem | hmem
    · rw [hmem]
      exact ⟨rfl, rfl, hempty⟩
    · rw [hmem]
      exact ⟨rfl, rfl, hempty⟩
  obtain ⟨hsealed, hnext, hbuffer⟩ := hsame
  refine ⟨im', ⟨ht, hguar.opts.trans h.options, ?_, fun p hlong => ?_, fun p hp hlong => ?_⟩,
    hcur'⟩
  · rw [hbuffer]
    exact Nat.zero_le _
  · rw [hsealed]
    exact hflush.memory p hlong
  · rcases hguar.image p hp with hp' | hp' | hnew
    · exact h.image p hp' hlong
    · exact .inl ((hflush.memory p hlong).mp hp')
    · have hlt := ht.disk.numbered.below p.1 (List.of_mem_zip hp).1
      exact absurd (hnew.trans_lt (hlt.trans_le (ht.next_le.trans hnext.le)))
        (Nat.lt_irrefl _)

theorem finishCompaction_capped (h : Capped opts M D s im) (hcur : Current s im)
    (stats : CompactionStats) :
    Ends (finishCompaction (defaultStore Id Item) stats) s (EndsCapped opts M D) := by
  rw [finishCompaction]
  split
  · exact EndsCapped.bind (checkpoint_capped h hcur) fun _ _ _ ht hcur' =>
      withSegmentsAfter_capped ht hcur' stats
  · exact withSegmentsAfter_capped h hcur stats

variable [F64 F]

/-- The loop of `compact_tiers` merges short segments into short ones. -/
theorem tierLoop_capped (fuel : Nat) (stats : CompactionStats) (h : Capped opts M D s im)
    (hcur : Current s im) :
    Ends (tierLoop (defaultStore Id Item) fuel stats) s (EndsCapped opts M D) := by
  induction fuel generalizing stats s with
  | zero => exact h.ends hcur _
  | succ fuel ih =>
      rw [tierLoop, Ends.get_bind_iff]
      cases hgroup : s.nextMergeGroup (defaultStore Id Item) s.opts.tiering
          s.opts.flushThreshold with
      | none => exact h.ends hcur _
      | some g =>
          have htier := Contents.nextMergeGroup_tier _ hgroup
          rw [h.options] at htier
          have hmerge : Contents.Within opts.cap opts.cap s.toContents
              (s.toContents.merge (defaultStore Id Item) g) :=
            (htier.within h.framed.shape).mono
              ((Nat.div_le_self _ _).trans ((Nat.le_max_left _ _).trans (Nat.le_max_left _ _)))
              ((Nat.le_max_left _ _).trans (Nat.le_max_left _ _))
          have hlost : ∀ {t : SegmentedStore Id Item (List (Id × Item)) F}, Framed t im →
              t.opts = s.opts → t.toContents = s.toContents.allocId → Capped opts M D t im :=
            fun ht hopts hmem => h.step ht hopts (hmem ▸ .of_sealed rfl) (hmem ▸ h.buffer)
          refine Ends.bind ((mergeGroup_stays _ h.framed hcur htier.positions).and
            (mergeGroup_memory _ g s)) ?_ ?_ ?_
          · rintro items t ⟨ht, -, hmem, -⟩
            obtain ⟨-, hmem⟩ := hmem items rfl
            refine ih _ (h.step ht.framed ht.guar.opts (hmem ▸ hmerge) ?_) (ht.current (by simp))
            rw [hmem, Contents.merge_buffer]
            exact h.buffer
          · rintro e t ⟨ht, -, -, hmem⟩
            exact (hlost ht.framed ht.guar.opts (hmem (by simp))).ends (ht.current (by simp)) _
          · rintro t ⟨ht, -, -, hmem⟩
            exact ⟨im, hlost ht.framed ht.guar.opts (hmem (by simp)), by simp⟩

theorem compactTiers_capped (h : Capped opts M D s im) (hcur : Current s im) :
    Ends (compactTiers (defaultStore Id Item)) s (EndsCapped opts M D) := by
  rw [compactTiers, tierMerging, bind_assoc, onContents, Ends.update_bind_iff, bind_assoc,
    Ends.get_bind_iff]
  exact EndsCapped.bind (tierLoop_capped _ _ h.flushed hcur) fun stats _ _ ht hcur' =>
    finishCompaction_capped ht hcur' stats

/-! ## Writes -/

theorem sealAndCompact_capped {beforeCompact : StoreM Id Item (List (Id × Item)) F Unit}
    (h : Capped opts M D s im) (hcur : Current s im)
    (hbefore : ∀ {t : SegmentedStore Id Item (List (Id × Item)) F}, Capped opts M D t im →
      Current t im → t.poisoned = s.poisoned → Ends beforeCompact t (EndsCapped opts M D)) :
    Ends (sealAndCompact (defaultStore Id Item) beforeCompact) s (EndsCapped opts M D) := by
  rw [sealAndCompact, Ends.get_bind_iff]
  split
  · rw [onContents, Ends.update_bind_iff, Ends.get_bind_iff]
    split
    · exact EndsCapped.bind (hbefore h.flushed hcur rfl) fun _ _ _ ht hcur' =>
        EndsCapped.bind (compactTiers_capped ht hcur') fun _ _ _ hu hcur'' =>
          Ends.pure_iff.mpr (hu.ends hcur'' _)
    · exact Ends.pure_iff.mpr (h.flushed.ends hcur _)
  · exact Ends.pure_iff.mpr (h.ends hcur _)

omit [F64 F] in
/-- The buffer has room for one more entry. -/
theorem Capped.apply (h : Capped opts M D s im) (hb : Bounded s) (op : Op Id Item) :
    Capped opts M D { s with toContents := s.toContents.apply op } im := by
  have hle := Contents.apply_buffer_length_le s.toContents op
  rw [Bounded, h.options] at hb
  refine h.step (h.framed.contents (h.framed.shape.apply op) (.apply op)) rfl
    (.apply _ _ op) (hle.trans ?_)
  rw [Options.cap]
  omega

omit [DecidableEq Id] [F64 F] in
theorem appendWal_capped (h : Capped opts M D s im) (hcur : Current s im)
    (hhealthy : s.poisoned = false) (op : Op Id Item) :
    Ends (appendWal op) s (fun _ t =>
      ∃ d b, t = { s with dir := d, walPoisoned := b } ∧ Capped opts M D t im) := by
  refine (appendWal_ends h.framed (hcur hhealthy) op).mono ?_
  rintro r t ⟨d, b, rfl, ht, -⟩
  exact ⟨d, b, rfl, h.onWal ht⟩

omit [DecidableEq Id] [F64 F] in
theorem syncWal_capped (h : Capped opts M D s im) (hcur : Current s im)
    (hhealthy : s.poisoned = false) :
    Ends syncWal s (fun _ t =>
      ∃ d b, t = { s with dir := d, walPoisoned := b } ∧ Capped opts M D t im) := by
  refine (syncWal_ends h.framed (hcur hhealthy)).mono ?_
  rintro r t ⟨d, b, rfl, ht, -⟩
  exact ⟨d, b, rfl, h.onWal ht⟩

omit [DecidableEq Id] [F64 F] in
/-- What follows a call on the log sees a writer with another directory. -/
theorem Capped.bind_log {p : StoreM Id Item (List (Id × Item)) F Unit}
    {f : Unit → StoreM Id Item (List (Id × Item)) F Unit} (hcur : Current s im)
    (hp : Ends p s (fun _ t =>
      ∃ d b, t = { s with dir := d, walPoisoned := b } ∧ Capped opts M D t im))
    (hf : ∀ d b, Capped opts M D { s with dir := d, walPoisoned := b } im →
      Ends (f ()) { s with dir := d, walPoisoned := b } (EndsCapped opts M D)) :
    Ends (p >>= f) s (EndsCapped opts M D) := by
  refine Ends.bind hp ?_ ?_ ?_
  · rintro ⟨⟩ t ⟨d, b, rfl, ht⟩
    exact hf d b ht
  · rintro e t ⟨d, b, rfl, ht⟩
    exact ht.ends hcur _
  · rintro t ⟨d, b, rfl, ht⟩
    exact ht.ends hcur _

omit [DecidableEq Id] [F64 F] in
/-- A poisoned writer refuses the call. -/
theorem checkPoisoned_capped {f : Unit → StoreM Id Item (List (Id × Item)) F Unit}
    (h : Capped opts M D s im) (hcur : Current s im)
    (hf : s.poisoned = false → Ends (f ()) s (EndsCapped opts M D)) :
    Ends (checkPoisoned >>= f) s (EndsCapped opts M D) := by
  refine Ends.bind (checkPoisoned_ends s) ?_ ?_ ?_
  · rintro ⟨⟩ t ⟨rfl, -, hok⟩
    exact hf (hok rfl)
  · rintro e t ⟨rfl, -, -⟩
    exact h.ends hcur _
  · exact fun t ht => absurd rfl ht.2.1

omit [F64 F] in
/-- `add` and `delete` up to what follows the change of the memory. -/
theorem logged_capped (rest : StoreM Id Item (List (Id × Item)) F Unit)
    (h : Capped opts M D s im) (hcur : Current s im) (hb : Bounded s) (op : Op Id Item)
    (hrest : ∀ {t : SegmentedStore Id Item (List (Id × Item)) F}, Capped opts M D t im →
      Current t im → Ends rest t (EndsCapped opts M D)) :
    Ends (do checkPoisoned; appendWal op; syncWal; onContents (fun c => c.apply op); rest) s
      (EndsCapped opts M D) := by
  refine checkPoisoned_capped h hcur fun hhealthy => ?_
  refine Capped.bind_log hcur (appendWal_capped h hcur hhealthy op) fun d b hd => ?_
  refine Capped.bind_log hcur (syncWal_capped hd hcur hhealthy) fun d' b' hd' => ?_
  rw [onContents, Ends.update_bind_iff]
  exact hrest (hd'.apply hb op) hcur

theorem extendItem_capped (h : Capped opts M D s im) (hcur : Current s im) (hb : Bounded s)
    (hhealthy : s.poisoned = false) (id : Id) (item : Item) :
    Ends (extendItem (defaultStore Id Item) id item) s (EndsCapped opts M D) := by
  rw [extendItem]
  refine Capped.bind_log hcur (appendWal_capped h hcur hhealthy _) fun d b hd => ?_
  rw [onContents, Ends.update_bind_iff]
  refine sealAndCompact_capped (hd.apply hb _) hcur fun ht hcur' hpoisoned => ?_
  refine (syncWal_capped ht hcur' (hpoisoned.trans hhealthy)).mono ?_
  rintro r u ⟨d', b', rfl, hu⟩
  exact hu.ends hcur' _

/-- The loop of `extend`. -/
theorem extendItems_capped (items : List (Id × Item)) (h : Capped opts M D s im)
    (hcur : Current s im) (hb : Bounded s) (hhealthy : s.poisoned = false) :
    Ends (extendItems (defaultStore Id Item) items) s (EndsCapped opts M D) := by
  induction items generalizing s im with
  | nil => exact h.ends hcur _
  | cons e items ih =>
      rw [extendItems]
      refine Ends.bind ((extendItem_ends _ h.framed hcur hhealthy hb e.1 e.2).and
        (extendItem_capped h hcur hb hhealthy e.1 e.2)) ?_ ?_ ?_
      · rintro ⟨⟩ t ⟨⟨_, -, -, -, hb', -, hok⟩, im', ht, hcur'⟩
        exact ih ht (hcur' (by simp)) hb' ((hok rfl).1.trans hhealthy)
      · exact fun e t ht => ht.2
      · exact fun t ht => ht.2

theorem extend_capped (items : List (Id × Item)) (h : Capped opts M D s im)
    (hcur : Current s im) (hb : Bounded s) :
    Ends (extend (defaultStore Id Item) items) s (EndsCapped opts M D) := by
  refine checkPoisoned_capped h hcur fun hhealthy => ?_
  refine Ends.bind ((extendItems_ends _ items h.framed hcur hhealthy hb).and
    (extendItems_capped items h hcur hb hhealthy)) ?_ ?_ ?_
  · rintro ⟨⟩ t ⟨⟨_, -, -, -, -, -, hok⟩, im', ht, hcur'⟩
    split
    · exact Ends.pure_iff.mpr (ht.ends (hcur' (by simp)) _)
    · refine (syncWal_capped ht (hcur' (by simp)) ((hok rfl).1.trans hhealthy)).mono ?_
      rintro r u ⟨d, b, rfl, hu⟩
      exact hu.ends (hcur' (by simp)) _
  · exact fun e t ht => ht.2
  · exact fun t ht => ht.2

/-! ## Every call -/

/-- A call that is no consolidation spares the long segments, whatever fails. -/
theorem exec_capped (h : Capped opts M D s im) (hcur : Current s im) (hb : Bounded s)
    {cmd : Cmd Id Item F} (hcmd : ¬ cmd.Consolidates) :
    Ends (cmd.exec (defaultStore Id Item)) s (EndsCapped opts M D) := by
  cases cmd with
  | add id item =>
      exact logged_capped _ h hcur hb _ fun ht hcur' =>
        sealAndCompact_capped ht hcur' fun hu hcur'' _ => Ends.pure_iff.mpr (hu.ends hcur'' _)
  | extend items => exact extend_capped items h hcur hb
  | delete id =>
      exact logged_capped (pure ()) h hcur hb _ fun ht hcur' =>
        Ends.pure_iff.mpr (ht.ends hcur' _)
  | checkpoint => exact checkpoint_capped h hcur
  | compactTiers =>
      exact EndsCapped.bind (compactTiers_capped h hcur) fun _ _ _ ht hcur' =>
        Ends.pure_iff.mpr (ht.ends hcur' _)
  | compact => exact absurd trivial hcmd
  | forceMergeTo maxSegments => exact absurd trivial hcmd
  | reclaimTombstones minLiveRatio => exact absurd trivial hcmd

end Calls

end Segstore
