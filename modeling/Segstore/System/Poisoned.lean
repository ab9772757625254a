import Segstore.System.Identity
import Segstore.Writer.Poisoned

/-!
# What follows a failed commit

Whatever is called on a poisoned writer, whatever fails and wherever that process
stops: its readers, new catalogs and the next process find what they would have
found at once.
-/

namespace Segstore

variable {Id Item Seg F : Type}

/-- Segment ids keep their meaning, so that the same manifest is the same image. -/
theorem Guar.image_eq {s t : SegmentedStore Id Item Seg F} {im im' : Image Id Seg}
    (hs : Framed s im) (ht : Framed t im') (hguar : Guar s im t im')
    (hloaded : loadedOf t.dir.files = loadedOf s.dir.files) : im' = im := by
  have hmanifest : im'.toLoadedManifest = im.toLoadedManifest := by
    rw [ht.disk.shows.loaded, hs.disk.shows.loaded] at hloaded
    exact Option.some.inj hloaded
  have hids : im'.segmentIds = im.segmentIds := by rw [hmanifest]
  have hmem : ∀ p ∈ im'.sealed, p ∈ im.sealed := by
    intro p hp
    have hk : p.1 ∈ im.segmentIds := hids ▸ (List.of_mem_zip hp).1
    have hlt := hs.disk.numbered.below p.1 hk
    rcases hguar.image p hp with hp | hp | hp
    · exact hp
    · exact hs.committed p hp hlt
    · exact absurd (hs.next_le.trans hp) (Nat.not_le_of_lt hlt)
  have hsegs : List.Forall₂ (fun k seg => segFile s.dir.files k = some seg) im.segmentIds
      im'.segments := by
    rw [← hids, List.forall₂_iff_zip]
    refine ⟨ht.disk.shows.length_eq, fun {k seg} hp => ?_⟩
    exact Shows.segFile_of_mem (p := (k, seg)) hs.disk.shows (hmem _ hp)
  have hsegments : im'.segments = im.segments := Shows.forall₂_unique hsegs hs.disk.shows.segs
  cases im
  cases im'
  cases hmanifest
  cases hsegments
  rfl

namespace Proc

variable [DecidableEq Id] [F64 F] (st : Store Id Item Seg)

/-- A drop and an open without faults bring back this memory, view and epoch. -/
def Restores (p : Proc Id Item Seg F) (opts : Options F) (keep : Nat)
    (c : Contents Id Item Seg) (v : PubState Id Seg) (epoch : Nat) : Prop :=
  ∃ t, (step st p (.reopen opts keep [])).1 = .running t ∧ t.poisoned = false ∧
    t.toContents = c ∧ t.published = v ∧ t.epoch = epoch

/-- What is brought back is that of the image and of the settled log. -/
theorem restores_iff {p : Proc Id Item Seg F} {im : Image Id Seg} (hcoh : p.dir.Coherent im)
    (opts : Options F) (keep : Nat) (c : Contents Id Item Seg) (v : PubState Id Seg)
    (epoch : Nat) : p.Restores st opts keep c v epoch ↔
      (opts.sync = .fsync → p.dir.fileBacked = true) ∧
        ∃ boot, im.boot st im.segments = .ok boot ∧
          c = boot.replay st opts.flushThreshold
            ((Directory.logOf p.dir.files (walPath im.epoch)).settled keep).records ∧
          v = boot.toPubState ∧ epoch = im.epoch := by
  constructor
  · rintro ⟨t, ht, hhealthy, rfl, rfl, rfl⟩
    obtain ⟨hback, -⟩ := step_reopen_boots st hcoh ht
    obtain ⟨-, -, -, hok⟩ := step_reopen_ends st p hcoh opts keep []
    obtain ⟨-, hcur, -, boot, hboot, hledger⟩ := hok t ht
    exact ⟨hback, boot, hboot, congrArg Ledger.contents hledger,
      congrArg Ledger.published hledger, (hcur hhealthy).symm⟩
  · rintro ⟨hback, boot, hboot, rfl, rfl, rfl⟩
    obtain ⟨t, hstep, -, hcur, -, hhealthy, -, -, hledger⟩ :=
      step_reopen_calm st hcoh hback hboot keep
    exact ⟨t, congrArg Prod.fst hstep, hhealthy.1, congrArg Ledger.contents hledger,
      congrArg Ledger.published hledger, (hcur hhealthy.1).symm⟩

/-- A process that descends from the poisoned writer `s`. -/
structure Inert (s : SegmentedStore Id Item Seg F) (im : Image Id Seg)
    (p : Proc Id Item Seg F) : Prop where
  coherent : p.dir.Coherent im
  backed : p.dir.fileBacked = s.dir.fileBacked
  files : ∀ name, familyOf name ≠ some 's' → p.dir.files.lookup name = s.dir.files.lookup name
  writer : ∀ u, p = .running u → Framed u im ∧ Bounded u ∧ SegmentedStore.Frozen s u

namespace Inert

variable {s : SegmentedStore Id Item Seg F} {im : Image Id Seg} {p : Proc Id Item Seg F}

/-- A call, under any fates. -/
theorem call (h : p.Inert s im) (cmd : Cmd Id Item F) (fates : List (Call → Fate)) :
    (step st p (.call cmd fates)).1.Inert s im ∧
      ∀ op ∈ (step st p (.call cmd fates)).2, op.2 = false := by
  cases p with
  | closed d => exact ⟨h, fun op hop => absurd hop List.not_mem_nil⟩
  | running u =>
      obtain ⟨hframed, hb, hfrozen⟩ := h.writer u rfl
      have hpoisoned : (armed u fates).poisoned = true := hfrozen.poisoned
      have hcur : Current u im := fun hhealthy => by
        rw [hfrozen.poisoned] at hhealthy
        cases hhealthy
      obtain ⟨im', ht, -, hguar, hb', -⟩ :=
        Resilient.armed_exec_ends st hframed hcur hb cmd fates
      have hfreezes := SegmentedStore.exec_freezes st cmd (armed u fates) hpoisoned
      have hloaded := loadedOf_congr (hfreezes.files MANIFEST_PATH (by simp))
      obtain rfl := hguar.image_eq hframed ht hloaded
      have hacked : ∀ op ∈ flagged (acked (cmd.exec st (armed u fates)).1) cmd.ops,
          op.2 = false := by
        by_cases hops : cmd.ops = []
        · simp [hops, flagged]
        · rw [SegmentedStore.exec_refuses st hpoisoned hops]
          simp [acked, flagged]
      refine ⟨?_, hacked⟩
      simp only [step]
      generalize (cmd.exec st (armed u fates)).1 = r
      generalize (cmd.exec st (armed u fates)).2 = t at *
      have hafter : (afterCall r t).dir = t.dir := by cases r <;> rfl
      refine ⟨hafter ▸ ht.disk, ?_, fun name hname => ?_, fun v hv => ?_⟩
      · rw [hafter]
        exact hguar.backed.trans h.backed
      · rw [hafter]
        exact (hfreezes.files name hname).trans (h.files name hname)
      · have hvt : v = t := by
          cases r with
          | ok _ => cases hv; rfl
          | err _ => cases hv; rfl
          | crash => cases hv
        subst hvt
        exact ⟨ht, hb', hfrozen.trans ⟨hfreezes.poisoned, hfreezes.epoch, hfreezes.published,
          hfreezes.files⟩⟩

theorem run (h : p.Inert s im) {calls : List (Event Id Item F)}
    (hcalls : ∀ e ∈ calls, ∃ cmd fates, e = .call cmd fates) :
    (Proc.run st p [] calls).1.Inert s im ∧ ∀ op ∈ (Proc.run st p [] calls).2, op.2 = false := by
  refine run_induction st (I := fun issued p => p.Inert s im ∧ ∀ op ∈ issued, op.2 = false)
    (C := fun e => ∃ cmd fates, e = .call cmd fates) ?_ hcalls ⟨h, by simp⟩
  rintro issued p e ⟨cmd, fates, rfl⟩ ⟨hp, hissued⟩
  obtain ⟨hnext, hacked⟩ := hp.call st cmd fates
  exact ⟨hnext, fun op hop => (List.mem_append.mp hop).elim (hissued op) (hacked op)⟩

end Inert

end Proc

variable [DecidableEq Id] [F64 F] (st : Store Id Item Seg)

/-- After a commit that failed, no call on the writer does anything outside the
process, whatever fails and wherever the process stops: no operation is
acknowledged, the view and the epoch stay, and a new catalog and the next open find
what they would have found at once. -/
theorem poisoned_writer_is_inert (fileBacked : Bool) (events : List (Event Id Item F))
    (s : SegmentedStore Id Item Seg F)
    (hs : (Proc.run st (.closed (.empty fileBacked)) [] events).1 = .running s)
    (hpoisoned : s.poisoned = true) (calls : List (Event Id Item F))
    (hcalls : ∀ e ∈ calls, ∃ cmd fates, e = .call cmd fates) :
    let q := Proc.run st (.running s) [] calls
    (∀ op ∈ q.2, op.2 = false) ∧
    (∀ u, q.1 = .running u →
      u.poisoned = true ∧ u.epoch = s.epoch ∧ u.published = s.published) ∧
    (SegmentCatalog.open { q.1.dir with fates := [] }).1 =
      (SegmentCatalog.open { s.dir with fates := [] }).1 ∧
    ∀ opts keep c v epoch, q.1.Restores st opts keep c v epoch ↔
      (Proc.running s).Restores st opts keep c v epoch := by
  intro q
  have hfresh : (Proc.closed (.empty fileBacked) : Proc Id Item Seg F).Agrees fileBacked
      (fun _ _ => True) (fun _ _ _ => True) [] :=
    ⟨rfl, emptyImage, coherent_empty fileBacked, trivial⟩
  have hagrees := (resilient_frame st).run hfresh events
  rw [hs] at hagrees
  obtain ⟨-, im, hframed, -, hb, -⟩ := hagrees
  have hstart : (Proc.running s).Inert s im :=
    ⟨hframed.disk, rfl, fun _ _ => rfl, by rintro u ⟨⟩; exact ⟨hframed, hb, .refl hpoisoned⟩⟩
  obtain ⟨hq, hissued⟩ := hstart.run st hcalls
  refine ⟨hissued, fun u hu => ?_, ?_, fun opts keep c v epoch => ?_⟩
  · obtain ⟨-, -, hfrozen⟩ := hq.writer u hu
    exact ⟨hfrozen.poisoned, hfrozen.epoch, hfrozen.published⟩
  · have hreads : ∀ d : Directory Id Item Seg, d.Coherent im →
        (SegmentCatalog.open { d with fates := [] }).1 =
          Directory.outcome (SegmentCatalog.ofManifest im.toLoadedManifest) := fun d hd =>
      ((Directory.catalog_open_reads (d := { d with fates := [] }) hd.shows hd.noLegacyWal
        hd.noLegacyCkpt).calm rfl).2
    rw [hreads _ hq.coherent, hreads _ hframed.disk]
  · have hlog : Directory.logOf q.1.dir.files (walPath im.epoch) =
        Directory.logOf s.dir.files (walPath im.epoch) := by
      rw [Directory.logOf, Directory.logOf, hq.files _ (by simp)]
    rw [Proc.restores_iff st hq.coherent, Proc.restores_iff (p := .running s) st hframed.disk,
      hq.backed, hlog]
    rfl

/-- A checkpoint that fails after its manifest has become visible, and calls that
fail and stop after it. -/
theorem poisoned_writer_is_inert_visible :
    ∃ s : SegmentedStore Nat Nat (List (Nat × Nat)) Rat,
      (Proc.run (defaultStore Nat Nat) (.closed (.empty false)) []
        [.reopen (.new 2) 0 [], .call (.add 1 5) [], .call .checkpoint
          [fun _ => .done, fun _ => .failed (.io "full") .everything]]).1 = .running s ∧
      s.epoch = 0 ∧ (∀ op ∈ (Proc.run (defaultStore Nat Nat) (.running s) []
        [.call (.add 1 6) [], .call .compact [],
          .call (.forceMergeTo 1) [fun _ => .stopped .temporary]]).2, op.2 = false) := by
  have hrun : Proc.holds (fun s => decide (s.poisoned = true ∧ s.epoch = 0))
      (Proc.run (F := Rat) (defaultStore Nat Nat) (.closed (.empty false)) []
        [.reopen (.new 2) 0 [], .call (.add 1 5) [], .call .checkpoint
          [fun _ => .done, fun _ => .failed (.io "full") .everything]]).1 = true := by
    decide +kernel
  obtain ⟨s, hs, htest⟩ := Proc.holds_iff.mp hrun
  obtain ⟨hpoisoned, hepoch⟩ := of_decide_eq_true htest
  obtain ⟨hlost, -⟩ := poisoned_writer_is_inert (defaultStore Nat Nat) false _ s hs hpoisoned
    [.call (.add 1 6) [], .call .compact [],
      .call (.forceMergeTo 1) [fun _ => .stopped .temporary]] (by simp)
  exact ⟨s, hs, hepoch, hlost⟩

end Segstore
