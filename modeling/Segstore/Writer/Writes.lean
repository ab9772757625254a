import Segstore.Writer.Compaction

/-!
# Writes

What `add`, `extend` and `delete` do to a framed writer.  An operation reaches
the log before the memory, and a call that returns has made it durable.
-/

namespace Segstore

variable {Id Item Seg F : Type} [DecidableEq Id] (st : Store Id Item Seg)
variable {s : SegmentedStore Id Item Seg F} {im : Image Id Seg}

open SegmentedStore

/-- Between calls the buffer is below the threshold. -/
def Bounded (s : SegmentedStore Id Item Seg F) : Prop :=
  s.buffer.length < max s.opts.flushThreshold 1

/-! ## The log -/

omit [DecidableEq Id] in
/-- The live WAL and its writer changed and nothing else. -/
theorem Framed.logChanged (h : Framed s im) {d : Directory Id Item Seg} (b : Bool)
    (hd : d.Coherent im) (hback : d.fileBacked = s.dir.fileBacked)
    (hagree : AgreeOff [walPath im.epoch] s.dir.files d.files) :
    Framed { s with dir := d, walPoisoned := b } im ∧
      Guar s im { s with dir := d, walPoisoned := b } im := by
  have hfam : ∀ name, familyOf name ≠ some 'w' →
      d.files.lookup name = s.dir.files.lookup name := fun name hw =>
    hagree.familyOf (by simpa [eq_comm] using hw)
  refine ⟨⟨hd, h.shape, h.next_le, h.committed, fun p hp hpers => ?_, h.named,
    h.persisted_lt, h.wal⟩, rfl, hback, .refl _, fun _ hp => .inl hp,
    fun name hname => .inl (hfam name (by simp [hname]))⟩
  exact (segFile_congr (hfam _ (by simp))).trans (h.file p hp hpers)

omit [DecidableEq Id] in
/-- A call on the log of a writer. -/
theorem onWal_ends (h : Framed s im) (hepoch : im.epoch = s.epoch) {call : Call}
    {p : String → DirM Id Item Seg Unit} {f : RecordLog Id Item → RecordLog Id Item}
    (hp : Ends (p (walPath im.epoch)) s.dir (Directory.LogChange im f s.dir)) :
    Ends (onWal call p) s (fun r t => ∃ d b, t = { s with dir := d, walPoisoned := b } ∧
      Framed t im ∧ Guar s im t im ∧ (r ≠ .ok () ∧ t.ledger im = s.ledger im ∨
        t.ledger im = { s.ledger im with log := f (s.ledger im).log })) := by
  have hwal : s.wal = walPath im.epoch := h.wal.trans (by rw [hepoch])
  rw [← hwal] at hp
  refine (onWal_leaves hp ⟨h.disk, rfl, .refl _ _, .inl ⟨by simp, rfl⟩⟩).mono ?_
  rintro r t ⟨d, b, rfl, hd, hback, hagree, hlog⟩
  obtain ⟨hframed, hguar⟩ := h.logChanged b hd hback hagree
  refine ⟨d, b, rfl, hframed, hguar, hlog.imp (fun hlog => ⟨hlog.1, ?_⟩) fun hlog => ?_⟩
  · simp only [SegmentedStore.ledger, hlog.2]
  · simp only [SegmentedStore.ledger, hlog]

omit [DecidableEq Id] in
theorem appendWal_ends (h : Framed s im) (hepoch : im.epoch = s.epoch) (op : Op Id Item) :
    Ends (appendWal op) s (fun r t => ∃ d b, t = { s with dir := d, walPoisoned := b } ∧
      Framed t im ∧ Guar s im t im ∧ (r ≠ .ok () ∧ t.ledger im = s.ledger im ∨
        t.ledger im = (s.ledger im).append op)) :=
  onWal_ends h hepoch (p := fun wal => Directory.appendLog wal op)
    (f := fun log => log.append op) (Directory.appendLog_ends h.disk op)

omit [DecidableEq Id] in
theorem syncWal_ends (h : Framed s im) (hepoch : im.epoch = s.epoch) :
    Ends syncWal s (fun r t => ∃ d b, t = { s with dir := d, walPoisoned := b } ∧
      Framed t im ∧ Guar s im t im ∧ (r ≠ .ok () ∧ t.ledger im = s.ledger im ∨
        t.ledger im = (s.ledger im).sync)) :=
  onWal_ends h hepoch (p := Directory.flushLog) (f := RecordLog.flushed)
    (Directory.flushLog_ends h.disk)

theorem syncWal_yields (h : Framed s im) (hcur : Current s im) (hhealthy : s.poisoned = false) :
    Ends syncWal s (Yields st s im (fun _ t im' => t.ledger im' = (s.ledger im).sync)) := by
  refine (syncWal_ends h (hcur hhealthy)).mono ?_
  rintro r t ⟨d, b, rfl, ht, hguar, hlog⟩
  refine ⟨im, ht, fun _ => hcur, hguar, ?_, fun v hv => ⟨rfl, ?_⟩⟩
  · rcases hlog with ⟨-, hlog⟩ | hlog
    · rw [hlog]
    · rw [hlog]
      exact .single (.sync _)
  · exact hlog.resolve_left fun hno => hno.1 hv

/-! ## What a call amounts to -/

/-- What is known at the end of a call that issues `ops`, and `K` when it
returned. -/
def Wrote (s : SegmentedStore Id Item Seg F) (im : Image Id Seg) (ops : List (Op Id Item))
    (K : SegmentedStore Id Item Seg F → Image Id Seg → Prop)
    (r : Outcome PersistenceError Unit) (t : SegmentedStore Id Item Seg F) : Prop :=
  ∃ im', Framed t im' ∧ (r ≠ .crash → Current t im') ∧ Guar s im t im' ∧ Bounded t ∧
    Ledger.Issued st (s.ledger im) ops (t.ledger im') ∧
      (r = .ok () → t.poisoned = s.poisoned ∧ K t im')

omit [DecidableEq Id] in
theorem bounded_of_empty {t : SegmentedStore Id Item Seg F} (h : t.buffer = []) : Bounded t := by
  rw [Bounded, h]
  exact Nat.lt_of_lt_of_le Nat.zero_lt_one (Nat.le_max_right _ _)

variable {st}

/-- Compactions and checkpoints keep the buffer below the threshold. -/
theorem Yields.bounded {α : Type} {K : α → SegmentedStore Id Item Seg F → Image Id Seg → Prop}
    {r : Outcome PersistenceError α} {t : SegmentedStore Id Item Seg F} (hb : Bounded s)
    (h : Yields st s im K r t) : Bounded t := by
  obtain ⟨im', -, -, hguar, hmoves, -⟩ := h
  have hbuffer : t.buffer = s.buffer ∨ t.buffer = [] := hmoves.buffer st
  rcases hbuffer with hbuffer | hbuffer
  · rw [Bounded, hguar.opts, hbuffer]
    exact hb
  · exact bounded_of_empty hbuffer

/-- A call that only compacts or commits issues nothing. -/
theorem Wrote.of_yields {K : SegmentedStore Id Item Seg F → Image Id Seg → Prop}
    {r : Outcome PersistenceError Unit} {t : SegmentedStore Id Item Seg F} (hb : Bounded s)
    (h : Yields st s im (fun _ t im' =>
      Ledger.Moves st (s.ledger im) (t.ledger im') → K t im') r t) :
    Wrote st s im [] K r t := by
  have hbounded := h.bounded hb
  obtain ⟨im', ht, hcur, hguar, hmoves, hK⟩ := h
  exact ⟨im', ht, hcur, hguar, hbounded, .none hmoves, fun hr => (hK () hr).imp_right (· hmoves)⟩

/-- A call that did not return has changed the directory and the log writer at most. -/
theorem Wrote.unfinished {ops : List (Op Id Item)}
    {K : SegmentedStore Id Item Seg F → Image Id Seg → Prop} {r : Outcome PersistenceError Unit}
    {d : Directory Id Item Seg} {b : Bool} (hcur : Current s im) (hb : Bounded s)
    (hframed : Framed { s with dir := d, walPoisoned := b } im)
    (hguar : Guar s im { s with dir := d, walPoisoned := b } im) (hr : r ≠ .ok ())
    (hissued : Ledger.Issued st (s.ledger im) ops (SegmentedStore.ledger
      ({ s with dir := d, walPoisoned := b } : SegmentedStore Id Item Seg F) im)) :
    Wrote st s im ops K r { s with dir := d, walPoisoned := b } :=
  ⟨im, hframed, fun _ => hcur, hguar, hb, hissued, fun hok => absurd hok hr⟩

/-- A call is refused. -/
theorem Wrote.refused {ops : List (Op Id Item)}
    {K : SegmentedStore Id Item Seg F → Image Id Seg → Prop} (h : Framed s im)
    (hcur : Current s im) (hb : Bounded s) (e : PersistenceError) :
    Wrote st s im ops K (.err e) s :=
  .unfinished hcur hb h (.refl s im) (by simp) (.none .refl)

variable (st) [F64 F]

/-- The end of a write: whatever the buffer was, it is below the threshold
afterwards. -/
theorem sealAndCompact_ends {beforeCompact : StoreM Id Item Seg F Unit} (h : Framed s im)
    (hcur : Current s im)
    (hbefore : ∀ {t : SegmentedStore Id Item Seg F}, Framed t im → Current t im →
      t.poisoned = s.poisoned →
      t.ledger im = (s.ledger im).mapContents (fun c => c.flushBuffer st) →
      Ends beforeCompact t (Yields st t im
        (fun _ u im' => u.ledger im' = (t.ledger im).sync))) :
    Ends (sealAndCompact st beforeCompact) s (fun r t => Bounded t ∧
      Yields st s im (fun _ t im' =>
        t.ledger im' = (s.ledger im).sealAndCompact st s.opts) r t) := by
  rw [sealAndCompact, Ends.get_bind_iff]
  by_cases hfull : s.opts.flushThreshold ≤ s.buffer.length
  · rw [if_pos hfull, onContents, Ends.update_bind_iff, Ends.get_bind_iff]
    have hledger := Ledger.sealAndCompact_of_full st s.opts (l := s.ledger im) hfull
    have hgrows := Contents.Grows.flushBuffer st h.shape
    generalize hs₁ : ({ s with toContents := s.toContents.flushBuffer st } :
      SegmentedStore Id Item Seg F) = s₁
    have h₁ : Framed s₁ im := hs₁ ▸ h.contents (h.shape.flushBuffer st) hgrows
    have hcur₁ : Current s₁ im := hs₁ ▸ hcur
    have hguar₁ : Guar s im s₁ im := hs₁ ▸ .contents hgrows
    have hpoisoned₁ : s₁.poisoned = s.poisoned := hs₁ ▸ rfl
    have hledger₁ : s₁.ledger im = (s.ledger im).mapContents fun c => c.flushBuffer st :=
      hs₁ ▸ rfl
    have hempty : s₁.buffer = [] := hs₁ ▸ Contents.flushBuffer_buffer _ st
    have hdue : (s₁.opts.autoCompact && hasEligibleTier st s₁) =
        (s.opts.autoCompact && (((s.ledger im).contents.flushBuffer st).nextMergeGroup st
          s.opts.tiering s.opts.flushThreshold).isSome) := hs₁ ▸ rfl
    rw [← hdue] at hledger
    suffices hinner : Ends (if (s₁.opts.autoCompact && hasEligibleTier st s₁) = true then do
          beforeCompact
          let _ ← compactTiers st
          pure ()
        else pure ()) s₁ (Yields st s₁ im (fun _ t im' =>
          t.ledger im' = (s.ledger im).sealAndCompact st s.opts)) by
      refine hinner.mono fun r t ht => ⟨ht.bounded (bounded_of_empty hempty), ?_⟩
      refine ht.after hguar₁ ?_ hpoisoned₁
      rw [hledger₁]
      exact .single (.flush _)
    by_cases hd : (s₁.opts.autoCompact && hasEligibleTier st s₁) = true
    · rw [if_pos hd] at hledger ⊢
      refine Yields.bind (hbefore h₁ hcur₁ hpoisoned₁ hledger₁)
        fun _ t im' ht hcur' hguar _ hK => ?_
      refine Yields.bind (compactTiers_ends st ht hcur') fun _ u im'' hu hcur'' _ _ hK' => ?_
      refine Ends.pure_iff.mpr (.ret hu hcur'' ?_)
      rw [hK', hK, hguar.opts, hguar₁.opts, hledger₁, hledger]
    · rw [if_neg hd] at hledger ⊢
      exact Ends.pure_iff.mpr (.ret h₁ hcur₁ (hledger₁.trans hledger.symm))
  · rw [if_neg hfull]
    refine Ends.pure_iff.mpr ⟨?_, .ret h hcur (Ledger.sealAndCompact_of_short st hfull).symm⟩
    exact Nat.lt_of_lt_of_le (Nat.lt_of_not_le hfull) (Nat.le_max_left _ _)

/-! ## Writes that are durable before they are applied -/

omit [F64 F] in
/-- `add` and `delete` up to what follows the change of the memory. -/
theorem logged_ends {K : SegmentedStore Id Item Seg F → Image Id Seg → Prop}
    (rest : StoreM Id Item Seg F Unit) (h : Framed s im) (hcur : Current s im)
    (hb : Bounded s) (op : Op Id Item)
    (hrest : ∀ {t : SegmentedStore Id Item Seg F}, Framed t im → Current t im →
      t.opts = s.opts → t.toContents = s.toContents.apply op →
      t.ledger im = ((s.ledger im).append op).sync.apply op →
      Ends rest t (fun r u => Bounded u ∧ Yields st t im (fun _ u im' => K u im') r u)) :
    Ends (do checkPoisoned; appendWal op; syncWal; onContents (fun c => c.apply op); rest) s
      (Wrote st s im [op] (fun t im' =>
        Ledger.Acked st (s.ledger im) [op] (t.ledger im') ∧ K t im')) := by
  refine Ends.bind (checkPoisoned_ends s) ?_ ?_ ?_
  case refine_2 =>
    rintro e t ⟨rfl, -, -⟩
    exact .refused h hcur hb e
  case refine_3 => exact fun t ht => absurd rfl ht.2.1
  rintro ⟨⟩ t ⟨rfl, -, hhealthy⟩
  have hepoch := hcur (hhealthy rfl)
  refine Ends.bind (appendWal_ends h hepoch op) ?_ ?_ ?_
  case refine_2 =>
    rintro e u ⟨d, b, rfl, hu, hguar, hlog⟩
    exact .unfinished hcur hb hu hguar (by simp) (.of_append (hlog.imp_left And.right))
  case refine_3 =>
    rintro u ⟨d, b, rfl, hu, hguar, hlog⟩
    exact .unfinished hcur hb hu hguar (by simp) (.of_append (hlog.imp_left And.right))
  rintro ⟨⟩ u ⟨d, b, rfl, hu, hguar, hlog⟩
  replace hlog := hlog.resolve_left fun hno => hno.1 rfl
  have hsync : ∀ {l : Ledger Id Item Seg}, (l = (t.ledger im).append op ∨
      l = ((t.ledger im).append op).sync) → Ledger.Issued st (t.ledger im) [op] l := by
    rintro l (rfl | rfl)
    · exact .logged .refl
    · exact .logged (.single (.sync _))
  refine Ends.bind (syncWal_ends hu hepoch) ?_ ?_ ?_
  case refine_2 =>
    rintro e v ⟨d', b', rfl, hv, hguar', hlog'⟩
    rw [hlog] at hlog'
    exact .unfinished hcur hb hv (hguar.trans hguar') (by simp)
      (hsync (hlog'.imp_left And.right))
  case refine_3 =>
    rintro v ⟨d', b', rfl, hv, hguar', hlog'⟩
    rw [hlog] at hlog'
    exact .unfinished hcur hb hv (hguar.trans hguar') (by simp)
      (hsync (hlog'.imp_left And.right))
  rintro ⟨⟩ v ⟨d', b', rfl, hv, hguar', hlog'⟩
  replace hlog' := hlog'.resolve_left fun hno => hno.1 rfl
  rw [hlog] at hlog'
  rw [onContents, Ends.update_bind_iff]
  have hgrows := Contents.Grows.apply (c := t.toContents) op
  have hledger : SegmentedStore.ledger { t with
      toContents := t.toContents.apply op, dir := d', walPoisoned := b' } im =
        ((t.ledger im).append op).sync.apply op :=
    congrArg (fun l => l.apply op) hlog'
  refine (hrest (hv.contents (h.shape.apply op) hgrows) hcur rfl rfl hledger).mono ?_
  rintro r w ⟨hbounded, im', hw, hcur', hguar'', hmoves, hK⟩
  rw [hledger] at hmoves
  have hall : Ledger.Moves st (((t.ledger im).append op).apply op) (w.ledger im') :=
    hmoves.head (.sync _)
  refine ⟨im', hw, hcur', (hguar.trans hguar').trans
    (Guar.trans (.contents (s := { t with dir := d', walPoisoned := b' }) hgrows) hguar''),
    hbounded, .step hall (.none .refl), fun hr =>
      ⟨(hK () hr).1, .inr ⟨_, .step .refl (.done _), hmoves⟩, (hK () hr).2⟩⟩

/-- `add`. -/
theorem add_ends (h : Framed s im) (hcur : Current s im) (hb : Bounded s) (id : Id)
    (item : Item) :
    Ends (add st id item) s (Wrote st s im [.add id item] (fun t im' =>
      Ledger.Acked st (s.ledger im) [.add id item] (t.ledger im') ∧
        t.ledger im' = (s.ledger im).add st s.opts id item)) := by
  rw [add]
  refine logged_ends st _ h hcur hb (.add id item) fun ht hcur' hopts _ hledger => ?_
  rw [Ledger.add, ← hledger, ← hopts]
  refine sealAndCompact_ends st ht hcur' fun hu hcur'' _ hledger' => ?_
  refine Ends.pure_iff.mpr (.ret hu hcur'' ?_)
  rw [hledger', hledger]
  rfl

omit [F64 F] in
/-- `delete`. -/
theorem delete_ends (h : Framed s im) (hcur : Current s im) (hb : Bounded s) (id : Id) :
    Ends (delete id) s (Wrote st s im [.delete id] (fun t im' =>
      Ledger.Acked st (s.ledger im) [.delete id] (t.ledger im') ∧
        t.ledger im' = (s.ledger im).delete id)) := by
  refine logged_ends st (pure ()) h hcur hb (.delete id)
    fun ht hcur' hopts hmem hledger => ?_
  refine Ends.pure_iff.mpr ⟨?_, .ret ht hcur' hledger⟩
  rw [Bounded, hopts, hmem]
  exact (Contents.apply_delete_buffer_length_le _ id).trans_lt hb

/-! ## Batches -/

/-- One round of `extend`. -/
theorem extendItem_ends (h : Framed s im) (hcur : Current s im)
    (hhealthy : s.poisoned = false) (hb : Bounded s) (id : Id) (item : Item) :
    Ends (extendItem st id item) s (Wrote st s im [.add id item] (fun t im' =>
      Ledger.Moves st (((s.ledger im).append (.add id item)).apply (.add id item))
          (t.ledger im') ∧
        t.ledger im' = (((s.ledger im).append (.add id item)).apply
          (.add id item)).sealAndCompact st s.opts)) := by
  have hepoch := hcur hhealthy
  rw [extendItem]
  refine Ends.bind (appendWal_ends h hepoch (.add id item)) ?_ ?_ ?_
  case refine_2 =>
    rintro e u ⟨d, b, rfl, hu, hguar, hlog⟩
    exact .unfinished hcur hb hu hguar (by simp) (.of_append (hlog.imp_left And.right))
  case refine_3 =>
    rintro u ⟨d, b, rfl, hu, hguar, hlog⟩
    exact .unfinished hcur hb hu hguar (by simp) (.of_append (hlog.imp_left And.right))
  rintro ⟨⟩ u ⟨d, b, rfl, hu, hguar, hlog⟩
  replace hlog := hlog.resolve_left fun hno => hno.1 rfl
  rw [onContents, Ends.update_bind_iff]
  have hgrows := Contents.Grows.apply (c := s.toContents) (.add id item)
  have hledger : SegmentedStore.ledger { s with
      toContents := s.toContents.apply (.add id item), dir := d, walPoisoned := b } im =
        ((s.ledger im).append (.add id item)).apply (.add id item) :=
    congrArg (fun l => l.apply (.add id item)) hlog
  have hv := hu.contents (h.shape.apply (.add id item)) hgrows
  refine (sealAndCompact_ends st hv hcur fun hw hcur' hp _ =>
    syncWal_yields st hw hcur' (hp.trans hhealthy)).mono ?_
  rintro r w ⟨hbounded, im', hw, hcur', hguar', hmoves, hK⟩
  rw [hledger] at hmoves hK
  exact ⟨im', hw, hcur', hguar.trans
    (Guar.trans (.contents (s := { s with dir := d, walPoisoned := b }) hgrows) hguar'), hbounded,
    .step hmoves (.none .refl), fun hr => ⟨(hK () hr).1, hmoves, (hK () hr).2⟩⟩

/-- The loop of `extend`. -/
theorem extendItems_ends (items : List (Id × Item)) (h : Framed s im) (hcur : Current s im)
    (hhealthy : s.poisoned = false) (hb : Bounded s) :
    Ends (extendItems st items) s (Wrote st s im (items.map fun e => .add e.1 e.2)
      (fun t im' =>
        Ledger.Logged st (s.ledger im) (items.map fun e => .add e.1 e.2) (t.ledger im') ∧
          t.ledger im' = (s.ledger im).extendItems st s.opts items)) := by
  induction items generalizing s im with
  | nil =>
      exact Ends.pure_iff.mpr ⟨im, h, fun _ => hcur, .refl _ _, hb, .none .refl,
        fun _ => ⟨rfl, .done _, rfl⟩⟩
  | cons e items ih =>
      obtain ⟨id, item⟩ := e
      rw [extendItems]
      refine Ends.bind (extendItem_ends st h hcur hhealthy hb id item) ?_ ?_ ?_
      · rintro ⟨⟩ t ⟨im', ht, hcur', hguar, hb', -, hK⟩
        obtain ⟨hpoisoned, hmoves, hledger⟩ := hK rfl
        refine (ih ht (hcur' (by simp)) (hpoisoned.trans hhealthy) hb').mono ?_
        rintro r u ⟨im'', hu, hcur'', hguar', hb'', hissued, hK'⟩
        refine ⟨im'', hu, hcur'', hguar.trans hguar', hb'', .step hmoves hissued, fun hr => ?_⟩
        obtain ⟨hpoisoned', hlogged, hledger'⟩ := hK' hr
        refine ⟨hpoisoned'.trans hpoisoned, .step hmoves hlogged, ?_⟩
        rw [hledger', hledger, hguar.opts]
        rfl
      · rintro e t ⟨im', ht, hcur', hguar, hb', hissued, -⟩
        exact ⟨im', ht, fun _ => hcur' (by simp), hguar, hb', hissued.append_right _, by simp⟩
      · rintro t ⟨im', ht, -, hguar, hb', hissued, -⟩
        exact ⟨im', ht, by simp, hguar, hb', hissued.append_right _, by simp⟩

/-- `extend`. -/
theorem extend_ends (h : Framed s im) (hcur : Current s im) (hb : Bounded s)
    (items : List (Id × Item)) :
    Ends (extend st items) s (Wrote st s im (items.map fun e => .add e.1 e.2) (fun t im' =>
      Ledger.Acked st (s.ledger im) (items.map fun e => .add e.1 e.2) (t.ledger im') ∧
        t.ledger im' = (s.ledger im).extend st s.opts items)) := by
  rw [extend]
  refine Ends.bind (checkPoisoned_ends s) ?_ ?_ ?_
  case refine_2 =>
    rintro e t ⟨rfl, -, -⟩
    exact .refused h hcur hb e
  case refine_3 => exact fun t ht => absurd rfl ht.2.1
  rintro ⟨⟩ t ⟨rfl, -, hhealthy⟩
  refine Ends.bind (extendItems_ends st items h hcur (hhealthy rfl) hb) ?_ ?_ ?_
  case refine_2 =>
    rintro e u ⟨im', hu, hcur', hguar, hb', hissued, -⟩
    exact ⟨im', hu, fun _ => hcur' (by simp), hguar, hb', hissued, by simp⟩
  case refine_3 =>
    rintro u ⟨im', hu, -, hguar, hb', hissued, -⟩
    exact ⟨im', hu, by simp, hguar, hb', hissued, by simp⟩
  rintro ⟨⟩ u ⟨im', hu, hcur', hguar, hb', hissued, hK⟩
  obtain ⟨hpoisoned, hlogged, hledger⟩ := hK rfl
  cases items with
  | nil =>
      refine Ends.pure_iff.mpr ⟨im', hu, fun _ => hcur' (by simp), hguar, hb', hissued,
        fun _ => ⟨hpoisoned, .inl ⟨rfl, ?_⟩, hledger⟩⟩
      rw [hledger]
      exact .refl
  | cons e items =>
      refine (syncWal_yields st hu (hcur' (by simp)) (hpoisoned.trans (hhealthy rfl))).mono ?_
      intro r v hv
      have hb'' := hv.bounded hb'
      obtain ⟨im'', hv, hcur'', hguar', hmoves, hK'⟩ := hv
      have hall := hlogged.issued (.none hmoves : Ledger.Issued st _ [] _)
      rw [List.append_nil] at hall
      refine ⟨im'', hv, hcur'', hguar.trans hguar', hb'', hall, fun hr => ?_⟩
      obtain ⟨hpoisoned', hledger'⟩ := hK' () hr
      refine ⟨hpoisoned'.trans hpoisoned, .inr ⟨_, hlogged, ?_⟩, ?_⟩
      · rw [hledger']
      · rw [hledger', hledger]
        rfl

/-! ## Every call -/

/-- What a call amounts to that also acknowledges what it issued. -/
abbrev Executed (s : SegmentedStore Id Item Seg F) (im : Image Id Seg) (cmd : Cmd Id Item F) :
    Outcome PersistenceError Unit → SegmentedStore Id Item Seg F → Prop :=
  Wrote st s im cmd.ops (fun t im' =>
    Ledger.Acked st (s.ledger im) cmd.ops (t.ledger im') ∧
      t.ledger im' = (s.ledger im).exec st s.opts cmd)

/-- Calls that issue nothing. -/
theorem executed_of_yields {α : Type} {p : StoreM Id Item Seg F α} {cmd : Cmd Id Item F}
    (hb : Bounded s) (hcmd : cmd.ops = [])
    (hp : Ends p s (Yields st s im (fun _ t im' =>
      t.ledger im' = (s.ledger im).exec st s.opts cmd))) :
    Ends (do let _ ← p; pure ()) s (Executed st s im cmd) := by
  rw [Executed, hcmd]
  have hall : Ends (do let _ ← p; pure ()) s (Yields st s im (fun _ t im' =>
      t.ledger im' = (s.ledger im).exec st s.opts cmd)) :=
    Yields.bind hp fun _ t im' ht hcur _ _ hK => Ends.pure_iff.mpr (.ret ht hcur hK)
  exact hall.mono fun r t ht => .of_yields hb (ht.imp fun _ u im' hK hmoves =>
    ⟨.inl ⟨rfl, hmoves⟩, hK⟩)

/-- Every call on a framed writer, under any fates: it stays framed, it has
issued a part of its operations, and when it returns they are all durable and
the ledger is that of a run without faults. -/
theorem exec_ends (h : Framed s im) (hcur : Current s im) (hb : Bounded s)
    (cmd : Cmd Id Item F) : Ends (cmd.exec st) s (Executed st s im cmd) := by
  cases cmd with
  | add id item => exact add_ends st h hcur hb id item
  | extend items => exact extend_ends st h hcur hb items
  | delete id => exact delete_ends st h hcur hb id
  | checkpoint =>
      refine (checkpoint_ends st h hcur).mono fun r t ht => .of_yields hb ?_
      exact ht.imp fun _ u im' hK hmoves => ⟨.inl ⟨rfl, hmoves⟩, hK.1⟩
  | compact => exact executed_of_yields st hb rfl (compact_ends st h hcur)
  | compactTiers => exact executed_of_yields st hb rfl (compactTiers_ends st h hcur)
  | forceMergeTo maxSegments =>
      exact executed_of_yields st hb rfl (forceMergeTo_ends st h hcur maxSegments)
  | reclaimTombstones minLiveRatio =>
      exact executed_of_yields st hb rfl (reclaimTombstones_ends st h hcur minLiveRatio)

end Segstore
