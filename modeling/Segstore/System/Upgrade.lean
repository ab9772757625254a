import Segstore.System.Legacy
import Segstore.System.Readers

/-!
# Upgrading a directory of the original layout

A manifest of the original layout has no marks, so it may tombstone ids whose
sealed copies nothing else keeps dead: it buries them.  As long as no buried id
is added back, the upgraded store goes on as any other.
-/

namespace Segstore

variable {Id Item F : Type} [DecidableEq Id]

/-! ## Memories with buried ids -/

namespace Contents

/-- The memory is tracked and its live copies make up the map. -/
structure Keeps (c : Contents Id Item (List (Id × Item))) (m : Id → Option Item) : Prop where
  tracked : c.Tracked
  map : Represents c.LiveCopy m

namespace Keeps

variable {c : Contents Id Item (List (Id × Item))} {m : Id → Option Item}

theorem apply (h : c.Keeps m) {op : Op Id Item} (hop : ¬ c.Exhumes op) :
    (c.apply op).Keeps (op.write.run m) :=
  ⟨h.tracked.apply hop, h.tracked.apply_represents hop h.map⟩

theorem flushBuffer (h : c.Keeps m) : (c.flushBuffer (defaultStore Id Item)).Keeps m :=
  ⟨h.tracked.flushBuffer, h.tracked.flushBuffer_represents h.map⟩

theorem sealFull (h : c.Keeps m) (flushThreshold : Nat) :
    (c.sealFull (defaultStore Id Item) flushThreshold).Keeps m ∧
      ∀ id, (c.sealFull (defaultStore Id Item) flushThreshold).Buried id ↔ c.Buried id := by
  rw [Contents.sealFull]
  split
  · exact ⟨h.flushBuffer, h.tracked.buried_flushBuffer⟩
  · exact ⟨h, fun _ => Iff.rfl⟩

theorem retainSuperseded (h : c.Keeps m) : c.retainSuperseded.Keeps m :=
  ⟨h.tracked.retainSuperseded, h.tracked.retain_represents h.map⟩

theorem merged {A : Deed Id Item (List (Id × Item)) → Prop}
    {c' : Contents Id Item (List (Id × Item))} (h : c.Keeps m)
    (hmerged : Merged (defaultStore Id Item) A c c') : c'.Keeps m :=
  hmerged.induction (I := fun c => c.Keeps m)
    (fun hc hpos _ => ⟨hc.tracked.merge hpos.1, hc.tracked.merge_represents _ hc.map⟩) h

theorem compacted (h : c.Keeps m) : (c.compacted (defaultStore Id Item)).Keeps m :=
  ⟨h.tracked.compacted.1, h.tracked.compacted.2.2 h.map⟩

omit [DecidableEq Id] in
theorem exhumes_congr {c c' : Contents Id Item (List (Id × Item))}
    (h : ∀ id, c'.Buried id ↔ c.Buried id) (op : Op Id Item) : c'.Exhumes op ↔ c.Exhumes op := by
  cases op with
  | add id item => exact h id
  | delete id => exact Iff.rfl

/-- Replay of operations that add no buried id buries and unburies nothing. -/
theorem replay (h : c.Keeps m) (flushThreshold : Nat) {ops : List (Op Id Item)}
    (hops : ∀ op ∈ ops, ¬ c.Exhumes op) :
    (c.replay (defaultStore Id Item) flushThreshold ops).Keeps (history m ops) ∧
      ∀ id, (c.replay (defaultStore Id Item) flushThreshold ops).Buried id ↔ c.Buried id := by
  induction ops generalizing c m with
  | nil => exact ⟨h, fun _ => Iff.rfl⟩
  | cons op ops ih =>
      have hop := hops op List.mem_cons_self
      obtain ⟨hnext, hburied⟩ := (h.apply hop).sealFull flushThreshold
      have hburied' : ∀ id, (((c.apply op).sealFull (defaultStore Id Item)
          flushThreshold)).Buried id ↔ c.Buried id := fun id =>
        (hburied id).trans (h.tracked.buried_apply hop id)
      obtain ⟨hrest, hburied''⟩ := ih hnext fun op' hop' =>
        (exhumes_congr hburied' op').not.mpr (hops op' (List.mem_cons_of_mem _ hop'))
      exact ⟨hrest, fun id => (hburied'' id).trans (hburied' id)⟩

end Keeps

/-- The map of a tracked memory. -/
theorem Tracked.keeps {c : Contents Id Item (List (Id × Item))} (h : c.Tracked) :
    ∃ m, c.Keeps m := by
  have hnd := h.livePairs_nodup
  refine ⟨fun id => (c.livePairs.find? (fun e => e.1 = id)).map Prod.snd, h, ?_, ?_⟩
  · intro id item
    rw [← mem_livePairs, Option.map_eq_some_iff]
    constructor
    · rintro ⟨⟨j, v⟩, hfind, rfl⟩
      obtain rfl : j = id := by simpa using List.find?_some hfind
      exact List.mem_of_find?_eq_some hfind
    · intro hmem
      have hsome : (c.livePairs.find? (fun e => e.1 = id)).isSome = true :=
        List.find?_isSome.mpr ⟨_, hmem, by simp⟩
      obtain ⟨e, he⟩ := Option.isSome_iff_exists.mp hsome
      have hkey : e.1 = id := by simpa using List.find?_some he
      refine ⟨e, he, ?_⟩
      rw [List.inj_on_of_nodup_map hnd (List.mem_of_find?_eq_some he) hmem hkey]
  · have hapart : ∀ {id seg item item'}, c.LiveCopy none id item →
        ¬ c.LiveCopy (some seg) id item' := by
      intro id seg item item' hcopy hcopy'
      obtain ⟨hlists, hlive⟩ := hcopy'.lists
      rw [h.apart id ((h.bufferIds id).mpr (List.mem_map.mpr ⟨_, hcopy, rfl⟩)) seg hlists] at hlive
      cases hlive
    intro id place place' item item' hcopy hcopy'
    cases place with
    | none =>
        cases place' with
        | none => rfl
        | some seg => exact absurd hcopy' (hapart hcopy)
    | some seg =>
        cases place' with
        | none => exact absurd hcopy (hapart hcopy')
        | some seg' => rw [h.sealed_place hcopy.lists hcopy'.lists]

end Contents

/-! ## The invariant -/

/-- Everything but adding a buried id back. -/
def NoExhuming : Deed Id Item (List (Id × Item)) → Prop
  | .write c op => ¬ c.Exhumes op
  | .merge _ _ => True

instance : DecidablePred (NoExhuming : Deed Id Item (List (Id × Item)) → Prop)
  | .write c op => inferInstanceAs (Decidable (¬ c.Exhumes op))
  | .merge _ _ => inferInstanceAs (Decidable True)

/-- The ledger since the upgrade of a store with the map `m`. -/
structure Upgraded (m : Id → Option Item) (issued : List (Op Id Item))
    (l : Ledger Id Item (List (Id × Item))) : Prop where
  keeps : l.contents.Keeps (history m issued)
  restart : ∃ base boot, issued = base ++ l.log.records ∧
    l.image.boot (defaultStore Id Item) l.image.segments = .ok boot ∧
    boot.Keeps (history m base) ∧ (∀ op ∈ l.log.records, ¬ boot.Exhumes op) ∧
    ∀ id, l.contents.Buried id ↔ boot.Buried id

namespace Upgraded

variable {m : Id → Option Item} {issued : List (Op Id Item)}
variable {l : Ledger Id Item (List (Id × Item))}

theorem commit (h : l.contents.Keeps (history m issued)) :
    Upgraded m issued (l.commit (defaultStore Id Item)) := by
  have hkeeps := h.flushBuffer.retainSuperseded
  obtain ⟨boot, hboot, hsame⟩ := hkeeps.tracked.reload (Contents.flushBuffer_buffer _ _)
    (l.image.epoch + 1)
  refine ⟨hkeeps, issued, boot, (List.append_nil _).symm, hboot, ⟨hsame.tracked hkeeps.tracked,
    hkeeps.map.congr hsame.liveCopy_iff⟩, fun op hop => absurd hop List.not_mem_nil,
    fun id => (hsame.buried_iff id).symm⟩

theorem step {flushThreshold : Nat} (h : Upgraded m issued l) {ops : List (Op Id Item)}
    {l' : Ledger Id Item (List (Id × Item))}
    (hstep : Step (defaultStore Id Item) NoExhuming flushThreshold l ops l') :
    Upgraded m (issued ++ ops) l' := by
  obtain ⟨base, boot, hbase, hboot, hkeeps, hlogged, hburied⟩ := h.restart
  cases hstep with
  | @write op hop =>
      obtain ⟨hnext, hburied'⟩ := (h.keeps.apply hop).sealFull flushThreshold
      refine ⟨?_, base, boot, ?_, hboot, hkeeps, fun op' hop' => ?_, fun id => ?_⟩
      · rw [history_concat]
        exact hnext
      · rw [hbase, List.append_assoc]
        rfl
      · rcases List.mem_append.mp hop' with hop' | hop'
        · exact hlogged op' hop'
        · rw [List.mem_singleton.mp hop']
          exact (Contents.Keeps.exhumes_congr hburied op).not.mp hop
      · exact (hburied' id).trans ((h.keeps.tracked.buried_apply hop id).trans (hburied id))
  | sync =>
      rw [List.append_nil]
      exact ⟨h.keeps, h.restart⟩
  | sealRest =>
      rw [List.append_nil]
      exact ⟨h.keeps.flushBuffer, base, boot, hbase, hboot, hkeeps, hlogged, fun id =>
        (h.keeps.tracked.buried_flushBuffer id).trans (hburied id)⟩
  | commit hmerged =>
      rw [List.append_nil]
      exact commit (h.keeps.flushBuffer.merged hmerged)
  | compact =>
      rw [List.append_nil]
      exact commit h.keeps.flushBuffer.compacted

theorem reopen (h : Upgraded m issued l) (flushThreshold : Nat) :
    ∃ boot, l.image.boot (defaultStore Id Item) l.image.segments = .ok boot ∧
      Upgraded m issued {
        contents := boot.replay (defaultStore Id Item) flushThreshold l.log.records
        image := l.image
        log := l.log
        published := boot.toPubState } := by
  obtain ⟨base, boot, hbase, hboot, hkeeps, hlogged, -⟩ := h.restart
  obtain ⟨hreplay, hburied⟩ := hkeeps.replay flushThreshold hlogged
  rw [← history_append, ← hbase] at hreplay
  exact ⟨boot, hboot, hreplay, base, boot, hbase, hboot, hkeeps, hlogged, hburied⟩

theorem lasting [F64 F] (O : Options F → Prop) (m : Id → Option Item) :
    Lasting (defaultStore Id Item) NoExhuming O (Upgraded m) :=
  ⟨fun _ h hstep => h.step hstep, fun _ h => h.reopen _⟩

end Upgraded

/-! ## Directories of the original layout -/

/-- A directory of the original layout whose history begins here.  An epoch of the source
is a `u64`, so a larger number names no WAL; only the epochs of this model go on, and
have nothing to find there. -/
structure Legacy {Seg : Type} (d : Directory Id Item Seg) (im : Image Id Seg) : Prop
    extends OriginalLayout d im where
  beyond : ∀ k, 2 ^ 64 ≤ k → Unlogged d.files (walPath k)
  past : d.past = []

omit [DecidableEq Id] in
/-- The next process finds the same layout. -/
theorem OriginalLayout.settle {Seg : Type} {d : Directory Id Item Seg} {im : Image Id Seg}
    (h : OriginalLayout d im) (keep : Nat) (fates : List (Call → Fate)) :
    OriginalLayout (d.settle keep fates) im := by
  obtain ⟨epoch, m, hlookup, hext⟩ := h.original
  refine ⟨Directory.shows_settle h.shows keep fates, ⟨epoch, m, ?_, hext⟩, h.distinct,
    Directory.unlogged_settle h.emptyWal keep fates,
    Directory.lookup_settle_none h.noLegacyWal keep fates⟩
  rw [Directory.lookup_settle, hlookup]
  rfl

omit [DecidableEq Id] in
theorem Legacy.lineage {Seg : Type} {d : Directory Id Item Seg} {im : Image Id Seg}
    (h : Legacy d im) (hnum : im.Numbered) : Lineage d.states := by
  rw [Directory.states, h.past]
  refine ⟨fun f hf => ?_, List.pairwise_singleton _ _⟩
  rw [List.mem_singleton.mp hf]
  exact ⟨im, h.shows, hnum⟩

variable [F64 F]

/-- The writer that opened such a directory.  Stale WALs, of whatever epoch, went with
the other garbage. -/
theorem Legacy.opened {d : Directory Id Item (List (Id × Item))}
    {im : Image Id (List (Id × Item))} (h : Legacy d im) (hnum : im.Numbered)
    {opts : Options F} {keep : Nat} {s : SegmentedStore Id Item (List (Id × Item)) F}
    (hopen : (Proc.step (defaultStore Id Item) (.closed d) (.reopen opts keep [])).1 =
      .running s) :
    ∃ boot, Booted im.toLoadedManifest im.segments boot ∧
      im.boot (defaultStore Id Item) im.segments = .ok boot ∧
      Sane d.fileBacked (fun _ => True) s im ∧
      s.ledger im = {
        contents := boot, image := im, log := .empty, published := boot.toPubState } := by
  have hr := step_reopen_running (defaultStore Id Item) hopen
  have hlayout := h.toOriginalLayout.settle keep []
  have hback := Directory.open_backed (defaultStore Id Item) opts (d.settle keep []) s hr
  have hunique : ¬ im.RepeatsLive := by
    intro hdup
    obtain ⟨seg, hfailed, -⟩ := hlayout.refuses rfl opts hback hdup
    cases hr.symm.trans hfailed
  obtain ⟨boot, d₂, d', hbooted, hboot, hq, -, hlocked, hsteps, hgone⟩ :=
    hlayout.runs rfl opts hback hunique
  obtain rfl : s = _ := Outcome.ok.inj (hr.symm.trans (congrArg Prod.fst hq))
  have htrim := hsteps.trimmed
  have hspared := Directory.dispensable_openGarbage im
  obtain ⟨hshows, hlineage⟩ := hsteps.lineage hspared (hlocked.shows hlayout.shows) hnum
    (hlocked.lineage hlayout.shows hnum
      (Directory.lineage_settle (h.lineage hnum) h.shows hnum keep []))
  -- a name that is left alone holds no records after the open if it held none before
  have hkept : ∀ k, Unlogged (d.settle keep []).files (walPath k) →
      Unlogged d'.files (walPath k) := by
    intro k hk
    rcases htrim (walPath k) with heq | ⟨hnone, -⟩
    · rw [Unlogged, heq, hlocked.lookup_eq _ (by simp)]
      exact hk
    · exact .inl hnone
  have hwal := hkept im.epoch hlayout.emptyWal
  have hcoh : d'.Coherent im := by
    refine ⟨hshows, hnum, fun k hk => ?_, hwal.imp_right fun hlog => ⟨_, hlog⟩, ?_, .inl ?_,
      hlineage⟩
    · rcases Nat.lt_or_ge k (2 ^ 64) with hfit | hbeyond
      · exact .inl (hgone _ (isOpenGarbage_stale hfit (Nat.ne_of_gt hk) im.segmentIds))
      · exact hkept k (Directory.unlogged_settle (h.beyond k hbeyond) keep [])
    · exact hsteps.gone ((hlocked.lookup_eq _ (by simp)).trans hlayout.noLegacyWal)
    · rw [htrim.eq hspared.manifest, hlocked.lookup_eq _ (by simp)]
      exact hlayout.manifest_ne_none
  obtain ⟨hframed, hcur, hb⟩ := opened_framed (defaultStore Id Item) hcoh opts hboot []
  have hledger : (SegmentedStore.opened (defaultStore Id Item) opts im.toLoadedManifest boot []
      d').ledger im = {
        contents := boot, image := im, log := .empty, published := boot.toPubState } := by
    rw [SegmentedStore.ledger]
    simp only [SegmentedStore.opened, hwal.logOf_eq]
    rfl
  refine ⟨boot, hbooted, hboot, ⟨hframed, hcur, hb, ⟨rfl, rfl⟩, ?_, trivial, ?_⟩, hledger⟩
  · exact hsteps.fileBacked.trans hlocked.fileBacked
  · rw [hledger]
    rfl

/-! ## After the upgrade -/

/-- Once a directory of the original layout has been opened, adds and deletes
are last-write-wins over what the open found, and every later open succeeds, in
every run without faults that adds no buried id back and whose counters fit.  What a
manifest of the original layout gives for the next segment id may be any `u64`, and
where the counters of the source overflow, it no longer does what this model does. -/
theorem upgrade_last_write_wins {d : Directory Id Item (List (Id × Item))}
    {im : Image Id (List (Id × Item))} (h : Legacy d im) (hnum : im.Numbered)
    (opts : Options F) (keep : Nat) (s : SegmentedStore Id Item (List (Id × Item)) F)
    (hopen : (Proc.step (defaultStore Id Item) (.closed d) (.reopen opts keep [])).1 =
      .running s) :
    ∃ m, Shown s.livePairs m ∧ ∀ events : List (Event Id Item F),
      (∀ e ∈ events, e.Faultless d.fileBacked) →
      Proc.Heeds (defaultStore Id Item) NoExhuming (.running s) events →
      Proc.CountersFit (defaultStore Id Item) (.running s) events →
      ∃ t, (Proc.run (defaultStore Id Item) (.running s) [] events).1 = .running t ∧
        Shown t.livePairs (history m (events.flatMap Event.ops)) := by
  obtain ⟨boot, hbooted, hboot, hsane, hledger⟩ := h.opened hnum hopen
  obtain ⟨-, hclear⟩ := Booted.of_boot h.shows.length_eq h.distinct hboot
  have htracked : boot.Tracked :=
    hbooted.tracked (boot_shape _ h.shows hnum hboot) hclear fun seg id hmark => by
      rw [h.image_eq.2] at hmark
      exact absurd hmark (not_marked_empty seg id)
  obtain ⟨m, hkeeps⟩ := htracked.keeps
  have hcontents : s.toContents = boot := congrArg Ledger.contents hledger
  have hstart : Upgraded m [] (s.ledger im) := by
    rw [hledger]
    exact ⟨hkeeps, [], boot, rfl, hboot, hkeeps, fun op hop => absurd hop List.not_mem_nil,
      fun _ => Iff.rfl⟩
  refine ⟨m, hcontents ▸ Contents.shown_livePairs hkeeps.tracked hkeeps.map, ?_⟩
  intro events hevents hheeds _
  obtain ⟨u, im', hrun, -, hI⟩ := (Upgraded.lasting (fun _ => True) m).run hevents
    (fun e _ => by cases e <;> trivial) hsane hstart hheeds []
  exact ⟨u, congrArg Prod.fst hrun, Contents.shown_livePairs hI.keeps.tracked hI.keeps.map⟩

/-! ## Two upgrades -/

theorem originalDir_legacy (nextSegId : Nat) (segs : List (Nat × List (Nat × Nat)))
    (hsorted : (segs.map Prod.fst).Pairwise (· < ·))
    (hbelow : ∀ k ∈ segs.map Prod.fst, k < nextSegId) (tombstones : List Nat) :
    Legacy (originalDir nextSegId segs tombstones) (originalImage nextSegId segs tombstones) ∧
      (originalImage nextSegId segs tombstones).Numbered :=
  ⟨⟨originalDir_original (hsorted.imp Nat.ne_of_lt),
    fun k _ => .inl (originalDir_other (by simp) (by simp)), rfl⟩, hsorted, hbelow⟩

/-- An id in two segments is replaced, another is deleted, and a compaction makes room
for the tombstoned one to come back, before and after the store is opened again. -/
theorem upgrade_last_write_wins_shared :
    ∃ s m t, (Proc.step (defaultStore Nat Nat)
        (.closed (originalDir 9 [(3, [(1, 5), (2, 6)]), (7, [(1, 8), (4, 2)])] [2]))
        (.reopen (.new (F := Rat) 10) 0 [])).1 = .running s ∧
      s.livePairs = [(1, 8), (4, 2)] ∧ Shown s.livePairs m ∧
      (Proc.run (defaultStore Nat Nat) (.running s) [] [.call (.add 1 9) [],
        .call (.extend [(5, 1), (6, 3)]) [], .call (.delete 4) [], .call .compact [],
        .call (.add 2 7) [], .reopen (.new 10) 0 [], .call (.add 5 4) []]).1 = .running t ∧
      Shown t.livePairs (history m [.add 1 9, .add 5 1, .add 6 3, .delete 4, .add 2 7,
        .add 5 4]) := by
  have hopened : Proc.holds (fun s => decide (s.livePairs = [(1, 8), (4, 2)] ∧
      Proc.Heeds (defaultStore Nat Nat) NoExhuming (.running s) [.call (.add 1 9) [],
        .call (.extend [(5, 1), (6, 3)]) [], .call (.delete 4) [], .call .compact [],
        .call (.add 2 7) [], .reopen (.new 10) 0 [], .call (.add 5 4) []] ∧
      Proc.CountersFit (defaultStore Nat Nat) (.running s) [.call (.add 1 9) [],
        .call (.extend [(5, 1), (6, 3)]) [], .call (.delete 4) [], .call .compact [],
        .call (.add 2 7) [], .reopen (.new 10) 0 [], .call (.add 5 4) []]))
      (Proc.step (defaultStore Nat Nat)
        (.closed (originalDir 9 [(3, [(1, 5), (2, 6)]), (7, [(1, 8), (4, 2)])] [2]))
        (.reopen (.new (F := Rat) 10) 0 [])).1 = true := by
    decide +kernel
  obtain ⟨s, hs, hs'⟩ := Proc.holds_iff.mp hopened
  obtain ⟨hlive, hheeds, hfits⟩ := of_decide_eq_true hs'
  obtain ⟨hlegacy, hnum⟩ := originalDir_legacy 9 [(3, [(1, 5), (2, 6)]), (7, [(1, 8), (4, 2)])]
    (by decide) (by decide) [2]
  obtain ⟨m, hm, hrun⟩ := upgrade_last_write_wins hlegacy hnum (.new 10) 0 s hs
  obtain ⟨t, ht, hshown⟩ := hrun _ (by simp [Event.Faultless, Options.new]) hheeds hfits
  exact ⟨s, m, t, hs, hlive, hm, ht, hshown⟩

/-- Adding the tombstoned id back brings its sealed copy back too. -/
theorem upgrade_revives_buried :
    Legacy (originalDir 1 [(0, [(1, 5)])] [1]) (originalImage 1 [(0, [(1, 5)])] [1]) ∧
      (originalImage 1 [(0, [(1, 5)])] [1]).Numbered ∧
      ∃ s t, (Proc.run (defaultStore Nat Nat) (.closed (originalDir 1 [(0, [(1, 5)])] [1])) []
          [.reopen (.new (F := Rat) 10) 0 []]).1 = .running s ∧
        (Proc.run (defaultStore Nat Nat) (.closed (originalDir 1 [(0, [(1, 5)])] [1])) []
          [.reopen (.new (F := Rat) 10) 0 [], .call (.add 1 6) []]).1 = .running t ∧
        s.livePairs = [] ∧ t.livePairs = [(1, 5), (1, 6)] := by
  have hopened : Proc.holds (fun s => decide (s.livePairs = []))
      (Proc.run (defaultStore Nat Nat) (.closed (originalDir 1 [(0, [(1, 5)])] [1])) []
        [.reopen (.new (F := Rat) 10) 0 []]).1 = true := by
    decide +kernel
  have hadded : Proc.holds (fun t => decide (t.livePairs = [(1, 5), (1, 6)]))
      (Proc.run (defaultStore Nat Nat) (.closed (originalDir 1 [(0, [(1, 5)])] [1])) []
        [.reopen (.new (F := Rat) 10) 0 [], .call (.add 1 6) []]).1 = true := by
    decide +kernel
  obtain ⟨s, hs, hs'⟩ := Proc.holds_iff.mp hopened
  obtain ⟨t, ht, ht'⟩ := Proc.holds_iff.mp hadded
  obtain ⟨hlegacy, hnum⟩ := originalDir_legacy 1 [(0, [(1, 5)])] (by decide) (by decide) [1]
  exact ⟨hlegacy, hnum, s, t, hs, ht, of_decide_eq_true hs', of_decide_eq_true ht'⟩

end Segstore
