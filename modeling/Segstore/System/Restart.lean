import Segstore.System.Readers

/-!
# Restarts

When a restart finds the segments of the writer before it.  Segment boundaries
are not logged: replay seals where the threshold is reached, so it repeats what
the writer did as long as nothing but the threshold has sealed a segment since
the last commit.
-/

namespace Segstore

variable {Id Item F : Type} [DecidableEq Id]

namespace Contents

variable {c : Contents Id Item (List (Id × Item))} {flushThreshold : Nat}

/-- Sealing a full buffer adds full segments only. -/
theorem Shape.mem_sealFull (hc : c.Shape) {p : Nat × List (Id × Item)} :
    p ∈ (c.sealFull (defaultStore Id Item) flushThreshold).sealed →
      p ∈ c.sealed ∨ max flushThreshold 1 ≤ p.2.length := by
  intro hp
  rw [Contents.sealFull] at hp
  split at hp
  · rename_i hfull
    by_cases hbuffer : c.buffer = []
    · rw [flushBuffer_of_empty _ _ hbuffer] at hp
      exact .inl hp
    · rw [flushBuffer_sealed _ hc hbuffer, List.mem_append, List.mem_singleton] at hp
      rcases hp with hp | rfl
      · exact .inl hp
      · exact .inr (Nat.max_le.mpr ⟨hfull, List.length_pos_iff.mpr hbuffer⟩)
  · exact .inl hp

theorem Shape.mem_replay (hc : c.Shape) (ops : List (Op Id Item))
    {p : Nat × List (Id × Item)}
    (hp : p ∈ (c.replay (defaultStore Id Item) flushThreshold ops).sealed) :
    p ∈ c.sealed ∨ max flushThreshold 1 ≤ p.2.length := by
  induction ops generalizing c with
  | nil => exact .inl hp
  | cons op ops ih =>
      rcases ih ((hc.apply op).sealFull _ flushThreshold) hp with hp | hfull
      · rw [← apply_sealed c op]
        exact (hc.apply op).mem_sealFull hp
      · exact .inr hfull

/-- Sealing adds segments and takes none away. -/
theorem Shape.sealed_sealFull (hc : c.Shape) {p : Nat × List (Id × Item)} (hp : p ∈ c.sealed) :
    p ∈ (c.flushBuffer (defaultStore Id Item)).sealed ∧
      p ∈ (c.sealFull (defaultStore Id Item) flushThreshold).sealed := by
  have hflush : p ∈ (c.flushBuffer (defaultStore Id Item)).sealed := by
    by_cases hbuffer : c.buffer = []
    · rwa [flushBuffer_of_empty _ _ hbuffer]
    · rw [flushBuffer_sealed _ hc hbuffer]
      exact List.mem_append_left _ hp
  refine ⟨hflush, ?_⟩
  rw [Contents.sealFull]
  split
  · exact hflush
  · exact hp

end Contents

/-- What a restart is to find again. -/
structure Reconstructed (c c' : Contents Id Item (List (Id × Item))) : Prop where
  segmentIds : c'.segmentIds = c.segmentIds
  segments : c'.segments = c.segments
  buffer : c'.buffer = c.buffer
  tombstones : ∀ id, id ∈ c'.tombstones ↔ id ∈ c.tombstones
  superseded : ∀ seg id, Marked c'.superseded seg id ↔ Marked c.superseded seg id
  owner : ∀ id, c'.liveSegmentOf id = c.liveSegmentOf id

theorem Contents.Same.reconstructed {c c' : Contents Id Item (List (Id × Item))}
    (h : c.Same c') : Reconstructed c c' :=
  ⟨h.segmentIds, h.segments, h.buffer, fun _ => by rw [h.tombstones], h.marked, h.owner⟩

/-- A segment that no full buffer was sealed into, since the last commit. -/
def ShortSealed (flushThreshold : Nat) (committed : List Nat)
    (c : Contents Id Item (List (Id × Item))) : Prop :=
  ∃ p ∈ c.sealed, p.1 ∉ committed ∧ p.2.length < max flushThreshold 1

/-- Replay of the log gives the memory, unless a short segment was sealed. -/
structure Replayable (flushThreshold : Nat) (issued : List (Op Id Item))
    (l : Ledger Id Item (List (Id × Item))) : Prop where
  faithful : Faithful issued l
  below : ∀ k ∈ l.image.segmentIds, k < l.image.nextSegId
  next_le : l.image.nextSegId ≤ l.contents.nextSegId
  replayed : (∀ boot, l.image.boot (defaultStore Id Item) l.image.segments = .ok boot →
      (boot.replay (defaultStore Id Item) flushThreshold l.log.records).Same l.contents) ∨
    ShortSealed flushThreshold l.image.segmentIds l.contents

namespace Replayable

variable {flushThreshold : Nat} {issued : List (Op Id Item)}
variable {l : Ledger Id Item (List (Id × Item))}

/-- A commit leaves nothing to replay. -/
theorem commit (h : l.contents.Stores (history nothing issued)) :
    Replayable flushThreshold issued (l.commit (defaultStore Id Item)) := by
  have hstores := h.flushBuffer.retainSuperseded
  have hbuffer : ((l.contents.flushBuffer (defaultStore Id Item)).retainSuperseded).buffer = [] :=
    Contents.flushBuffer_buffer _ _
  obtain ⟨boot, hboot, hsame⟩ := hstores.tracked.reload hbuffer (l.image.epoch + 1)
  refine ⟨.commit h, hstores.tracked.shape.below, Nat.le_refl _, .inl fun boot' hboot' => ?_⟩
  obtain rfl : boot = boot' := Except.ok.inj (hboot.symm.trans hboot')
  exact hsame.symm

theorem step {A : Deed Id Item (List (Id × Item)) → Prop}
    (h : Replayable flushThreshold issued l) {ops : List (Op Id Item)}
    {l' : Ledger Id Item (List (Id × Item))}
    (hstep : Step (defaultStore Id Item) A flushThreshold l ops l') :
    Replayable flushThreshold (issued ++ ops) l' := by
  have hfaithful := h.faithful.step hstep
  have hshape := h.faithful.stores.tracked.shape
  cases hstep with
  | @write op _ =>
      have hgrows := (Contents.Grows.apply (c := l.contents) op).trans
        (.sealFull (defaultStore Id Item) (hshape.apply op) flushThreshold)
      refine ⟨hfaithful, h.below, h.next_le.trans hgrows.next_le, ?_⟩
      refine h.replayed.imp (fun hsame boot hboot => ?_) ?_
      · have hnext := ((hsame boot hboot).apply op).sealFull flushThreshold
        show (boot.replay (defaultStore Id Item) flushThreshold (l.log.records ++ [op])).Same _
        rw [Contents.replay, List.foldl_append]
        exact hnext
      · rintro ⟨p, hp, hnew, hshort⟩
        rw [← Contents.apply_sealed l.contents op] at hp
        exact ⟨p, ((hshape.apply op).sealed_sealFull hp).2, hnew, hshort⟩
  | sync => exact ⟨hfaithful, h.below, h.next_le, h.replayed⟩
  | sealRest hrest =>
      by_cases hbuffer : l.contents.buffer = []
      · have hsame : l.mapContents (fun c => c.flushBuffer (defaultStore Id Item)) = l := by
          rw [Ledger.mapContents, Contents.flushBuffer_of_empty _ _ hbuffer]
        rw [hsame] at hfaithful ⊢
        exact ⟨hfaithful, h.below, h.next_le, h.replayed⟩
      · have hgrows := Contents.Grows.flushBuffer (defaultStore Id Item) hshape
        refine ⟨hfaithful, h.below, h.next_le.trans hgrows.next_le, .inr ?_⟩
        refine ⟨(l.contents.nextSegId, l.contents.buffer), ?_, fun hk => ?_, hrest⟩
        · rw [Ledger.mapContents, Contents.flushBuffer_sealed _ hshape hbuffer]
          exact List.mem_append_right _ (List.mem_singleton.mpr rfl)
        · exact Nat.lt_irrefl _ ((h.below _ hk).trans_le h.next_le)
  | commit hmerged =>
      rw [List.append_nil]
      exact commit (h.faithful.stores.flushBuffer.merged hmerged)
  | compact =>
      rw [List.append_nil]
      exact commit h.faithful.stores.flushBuffer.compacted

theorem reopen (h : Replayable flushThreshold issued l) :
    ∃ boot, l.image.boot (defaultStore Id Item) l.image.segments = .ok boot ∧
      Replayable flushThreshold issued {
        contents := boot.replay (defaultStore Id Item) flushThreshold l.log.records
        image := l.image
        log := l.log
        published := boot.toPubState } := by
  obtain ⟨boot, hboot, hfaithful⟩ := h.faithful.reopen flushThreshold
  obtain ⟨base, -, hcommitted⟩ := h.faithful.committed
  obtain ⟨boot', hboot', hstores, -⟩ := hcommitted.boots
  obtain rfl : boot = boot' := Except.ok.inj (hboot.symm.trans hboot')
  obtain ⟨-, -, hnext, -⟩ := boot_sealed (defaultStore Id Item) hboot
  have hgrows := (hstores.tracked.shape.replay (defaultStore Id Item) flushThreshold
    l.log.records).2
  refine ⟨boot, hboot, hfaithful, h.below, hnext ▸ hgrows.next_le, .inl fun boot' hboot' => ?_⟩
  obtain rfl : boot = boot' := Except.ok.inj (hboot.symm.trans hboot')
  exact .refl _

theorem lasting [F64 F] (flushThreshold : Nat) :
    Lasting (defaultStore Id Item) (fun _ => True)
      (fun opts : Options F => opts.flushThreshold = flushThreshold)
      (Replayable flushThreshold) :=
  ⟨fun hopts h hstep => h.step (hopts ▸ hstep), fun hopts h => hopts ▸ h.reopen⟩

theorem empty (flushThreshold : Nat) :
    Replayable flushThreshold [] (emptyLedger : Ledger Id Item (List (Id × Item))) := by
  refine ⟨faithful_empty, fun _ hk => absurd hk List.not_mem_nil, Nat.le_refl _,
    .inl fun boot hboot => ?_⟩
  obtain rfl : emptyLedger.contents = boot := Except.ok.inj hboot
  exact .refl _

/-- The memory after a restart. -/
theorem reconstructed_iff (h : Replayable flushThreshold issued l)
    {boot : Contents Id Item (List (Id × Item))}
    (hboot : l.image.boot (defaultStore Id Item) l.image.segments = .ok boot) :
    Reconstructed l.contents
        (boot.replay (defaultStore Id Item) flushThreshold l.log.records) ↔
      ¬ ShortSealed flushThreshold l.image.segmentIds l.contents := by
  constructor
  · rintro hsame ⟨p, hp, hnew, hshort⟩
    obtain ⟨base, -, hcommitted⟩ := h.faithful.committed
    obtain ⟨boot', hboot', hstores, -⟩ := hcommitted.boots
    obtain rfl : boot = boot' := Except.ok.inj (hboot.symm.trans hboot')
    obtain ⟨hids, -⟩ := boot_sealed (defaultStore Id Item) hboot
    rw [PubState.sealed, ← hsame.segmentIds, ← hsame.segments] at hp
    rcases hstores.tracked.shape.mem_replay l.log.records hp with hp | hfull
    · exact hnew (hids ▸ Contents.fst_mem_of_mem_sealed hp)
    · exact Nat.not_lt_of_le hfull hshort
  · intro hnone
    rcases h.replayed with hsame | hshort
    · exact (hsame boot hboot).symm.reconstructed
    · exact absurd hshort hnone

end Replayable

/-! ## The writer after a restart -/

variable [F64 F]

/-- After every run without faults under the same threshold, a restart finds the
memory of the writer again if and only if every segment sealed since the last
commit holds at least as many items as the threshold. -/
theorem restart_reconstructs_iff (fileBacked : Bool) (opts : Options F) (keep keep' : Nat)
    (events : List (Event Id Item F))
    (hevents : ∀ e ∈ Event.reopen opts keep [] :: events, e.Faultless fileBacked)
    (hopts : ∀ e ∈ events, e.Within (· = opts)) :
    ∃ s t, (Proc.run (defaultStore Id Item) (.fresh fileBacked) []
        (.reopen opts keep [] :: events)).1 = .running s ∧
      Proc.step (defaultStore Id Item) (.running s) (.reopen opts keep' []) =
        (.running t, []) ∧
      (Reconstructed s.toContents t.toContents ↔
        ∀ p ∈ s.sealed, p.1 ∉ s.published.segmentIds →
          max opts.flushThreshold 1 ≤ p.2.length) := by
  have hwithin : ∀ e ∈ Event.reopen opts keep [] :: events,
      e.Within (fun o => o.flushThreshold = opts.flushThreshold) := by
    intro e he
    rcases List.mem_cons.mp he with rfl | he
    · exact rfl
    · have hsame := hopts e he
      cases e with
      | call cmd fates => trivial
      | reopen opts' keep fates => exact congrArg Options.flushThreshold hsame
  obtain ⟨s, im, hrun, hs, hI⟩ := (Replayable.lasting opts.flushThreshold).run_opened
    (l := emptyLedger) (coherent_empty fileBacked) rfl rfl rfl (.empty _) hevents hwithin
    (Proc.heeds_true _ _ _)
  obtain ⟨boot, hboot, -⟩ := hI.reopen
  obtain ⟨t, hstep, -, hledger⟩ := Lasting.start (defaultStore Id Item)
    (O := fun _ => True) (.running s) hs.framed.disk hs.backed hs.synced opts keep'
    ⟨rfl, (hevents _ List.mem_cons_self).2⟩ trivial hboot
  have hcontents : t.toContents = boot.replay (defaultStore Id Item) opts.flushThreshold
      (s.ledger im).log.records := congrArg Ledger.contents hledger
  refine ⟨s, t, congrArg Prod.fst hrun, hstep, ?_⟩
  have hids : s.published.segmentIds = im.segmentIds := hI.faithful.published.segmentIds
  rw [hcontents, hids]
  refine (hI.reconstructed_iff hboot).trans ⟨fun hnone p hp hnew => ?_, ?_⟩
  · exact Nat.le_of_not_lt fun hshort => hnone ⟨p, hp, hnew, hshort⟩
  · rintro hfull ⟨p, hp, hnew, hshort⟩
    exact Nat.not_lt_of_le (hfull p hp hnew) hshort

/-- A run that seals at the threshold. -/
theorem restart_reconstructs_iff_full :
    ∃ s t, (Proc.run (defaultStore Nat Nat) (.fresh (F := Rat) false) []
        [.reopen (.new 2) 0 [], .call (.add 1 5) [], .call (.add 2 6) []]).1 = .running s ∧
      Proc.step (defaultStore Nat Nat) (.running s) (.reopen (.new 2) 0 []) =
        (.running t, []) ∧
      (Reconstructed s.toContents t.toContents ↔
        ∀ p ∈ s.sealed, p.1 ∉ s.published.segmentIds →
          max (Options.new (F := Rat) 2).flushThreshold 1 ≤ p.2.length) :=
  restart_reconstructs_iff false (.new 2) 0 0 [.call (.add 1 5) [], .call (.add 2 6) []]
    (by simp [Event.Faultless, Options.new]) (by simp [Event.Within])

/-- `compact_tiers` seals one item under a threshold of ten, and the restart
finds no segment. -/
theorem restart_loses_short_segment :
    ∃ s t, (Proc.run (defaultStore Nat Nat) (.fresh (F := Rat) false) []
        [.reopen (.new 10) 0 [], .call (.add 1 5) [], .call .compactTiers []]).1 = .running s ∧
      (Proc.run (defaultStore Nat Nat) (.fresh (F := Rat) false) []
        [.reopen (.new 10) 0 [], .call (.add 1 5) [], .call .compactTiers [],
          .reopen (.new 10) 0 []]).1 = .running t ∧
      s.segmentIds = [0] ∧ t.segmentIds = [] ∧ s.buffer = [] ∧ t.buffer = [(1, 5)] := by
  have hbefore : Proc.holds (fun s => decide (s.segmentIds = [0] ∧ s.buffer = []))
      (Proc.run (defaultStore Nat Nat) (.fresh (F := Rat) false) []
        [.reopen (.new 10) 0 [], .call (.add 1 5) [], .call .compactTiers []]).1 = true := by
    decide +kernel
  have hafter : Proc.holds (fun t => decide (t.segmentIds = [] ∧ t.buffer = [(1, 5)]))
      (Proc.run (defaultStore Nat Nat) (.fresh (F := Rat) false) []
        [.reopen (.new 10) 0 [], .call (.add 1 5) [], .call .compactTiers [],
          .reopen (.new 10) 0 []]).1 = true := by
    decide +kernel
  obtain ⟨s, hs, hs'⟩ := Proc.holds_iff.mp hbefore
  obtain ⟨t, ht, ht'⟩ := Proc.holds_iff.mp hafter
  obtain ⟨hids, hbuffer⟩ := of_decide_eq_true hs'
  obtain ⟨hids', hbuffer'⟩ := of_decide_eq_true ht'
  exact ⟨s, t, hs, ht, hids, hids', hbuffer, hbuffer'⟩

end Segstore
