import Segstore.Kernel.Prefixes
import Segstore.System.Consumers

/-!
# Point-in-time recovery

A call issues its operations as one batch.  Whatever fails, memory holds a prefix of
each batch, and so does what a new process recovers: all of it if the call returned,
and no batch has a gap.
-/

namespace Segstore

variable {Id Item Seg F : Type} [DecidableEq Id] {st : Store Id Item Seg}
variable {entries : Seg → List (Id × Item)}

/-! ## One call -/

theorem Carries.view_moves {certain issued : List (Op Id Item) → Prop}
    {l l' : Ledger Id Item Seg} (hst : st.Keeps entries)
    (h : Carries certain issued (l.view entries)) (hissued : ∀ {ops}, certain ops → issued ops)
    (hmoves : Ledger.Moves st l l') : Carries certain issued (l'.view entries) := by
  induction hmoves with
  | refl => exact h
  | tail _ hmove ih => exact ih.view_move hst hissued hmove

namespace Ledger

/-- Memory, log and disk hold a prefix of each batch. -/
abbrev Holds (entries : Seg → List (Id × Item)) (calls : List (List (Op Id Item) × Bool))
    (l : Ledger Id Item Seg) : Prop :=
  Carries (Prefixes calls) (Prefixes calls) (l.view entries)

/-- In a call that has logged and applied `done`, memory and log hold all of it. -/
abbrev Amid (entries : Seg → List (Id × Item)) (calls : List (List (Op Id Item) × Bool))
    (done : List (Op Id Item)) (l : Ledger Id Item Seg) : Prop :=
  Carries (Prefixes (calls ++ [(done, true)])) (Prefixes (calls ++ [(done, false)]))
    (l.view entries)

variable {calls : List (List (Op Id Item) × Bool)} {done ops : List (Op Id Item)}
variable {l l' : Ledger Id Item Seg}

theorem Holds.amid (h : l.Holds entries calls) : l.Amid entries calls [] :=
  h.imp (fun hp => hp.begin true) fun hp => hp.begin false

theorem Amid.moves (hst : st.Keeps entries) (h : l.Amid entries calls done)
    (hmoves : Moves st l l') : l'.Amid entries calls done :=
  Carries.view_moves hst h (fun hp => hp.unacked false) hmoves

/-- One more operation, logged and applied. -/
theorem Amid.step (h : l.Amid entries calls done) (op : Op Id Item) :
    ((l.append op).apply op).Amid entries calls (done ++ [op]) := by
  refine Carries.view_apply (l := l.append op) (Carries.apply h ?_ ?_)
  · exact fun hp => hp.lose [op]
  · exact fun hp => ⟨hp.keep op true, hp.keep op false⟩

/-- One more operation, logged but not applied. -/
theorem Amid.append (h : l.Amid entries calls done) (op : Op Id Item) :
    (l.append op).Holds entries (calls ++ [(done ++ [op], false)]) := by
  refine Carries.append h ?_ ?_ ?_
  · exact fun hp => (hp.unacked false).lose [op]
  · exact fun hp => hp.lose [op]
  · exact fun hp => ⟨hp.keep op false, hp.keep op false⟩

/-- The rest of a batch is lost. -/
theorem Holds.lose (h : l.Holds entries (calls ++ [(done, false)])) (more : List (Op Id Item)) :
    l.Holds entries (calls ++ [(done ++ more, false)]) :=
  h.imp (fun hp => hp.lose more) fun hp => hp.lose more

theorem Amid.logged (hst : st.Keeps entries) (hlogged : Logged st l ops l') :
    ∀ {done}, l.Amid entries calls done → l'.Amid entries calls (done ++ ops) := by
  induction hlogged with
  | done => exact fun h => by rwa [List.append_nil]
  | @step l l₁ l' op ops hmoves _ ih =>
      intro done h
      have h₁ := ih ((h.step op).moves hst hmoves)
      rwa [List.append_assoc] at h₁

/-- A call that did not return. -/
theorem Amid.issued (hst : st.Keeps entries) (hissued : Issued st l ops l') :
    ∀ {done}, l.Amid entries calls done → l'.Holds entries (calls ++ [(done ++ ops, false)]) := by
  induction hissued with
  | none hmoves =>
      intro done h
      have h₁ := h.moves hst hmoves
      exact Holds.lose (h₁.imp (fun hp => hp.unacked false) id) _
  | @logged l l' op ops hmoves =>
      intro done h
      have h₁ := Holds.lose (Carries.view_moves hst (h.append op) id hmoves) ops
      rwa [List.append_assoc] at h₁
  | @step l l₁ l' op ops hmoves _ ih =>
      intro done h
      have h₁ := ih ((h.step op).moves hst hmoves)
      rwa [List.append_assoc] at h₁

theorem Holds.issue (hst : st.Keeps entries) (h : l.Holds entries calls)
    (hissued : Issued st l ops l') : l'.Holds entries (calls ++ [(ops, false)]) :=
  Amid.issued hst hissued h.amid

/-- A call that returned. -/
theorem Holds.acknowledge (hst : st.Keeps entries) (h : l.Holds entries calls)
    (hacked : Acked st l ops l') : l'.Holds entries (calls ++ [(ops, true)]) := by
  rcases hacked with ⟨rfl, hmoves⟩ | ⟨l₁, hlogged, hmoves⟩
  · have h₁ := Carries.view_moves hst h id hmoves
    exact h₁.imp (fun hp => hp.begin true) fun hp => hp.begin true
  · have h₁ : l₁.Amid entries calls ops := Amid.logged hst hlogged h.amid
    exact Carries.view_moves (l := l₁.sync) hst (Carries.sync h₁ id) id hmoves

end Ledger

/-! ## Runs -/

variable [F64 F]

namespace Proc

variable (st)

/-- The batch that an event issues, and whether its call returned. -/
def batch : Proc Id Item Seg F → Event Id Item F → List (List (Op Id Item) × Bool)
  | running s, .call cmd fates => [(cmd.ops, acked (cmd.exec st (armed s fates)).1)]
  | _, _ => []

/-- The batches of a run, call by call. -/
def batches (p : Proc Id Item Seg F) : List (Event Id Item F) → List (List (Op Id Item) × Bool)
  | [] => []
  | e :: events => batch st p e ++ batches (step st p e).1 events

theorem step_batch (p : Proc Id Item Seg F) (e : Event Id Item F) :
    (step st p e).2 = (batch st p e).flatMap fun b => flagged b.2 b.1 := by
  cases p <;> cases e <;> simp [step, batch]

/-- What a run issues is what its calls issue. -/
theorem run_batches (p : Proc Id Item Seg F) (issued : List (Op Id Item × Bool))
    (events : List (Event Id Item F)) : (run st p issued events).2 =
      issued ++ (batches st p events).flatMap fun b => flagged b.2 b.1 := by
  induction events generalizing p issued with
  | nil => simp [run, batches]
  | cons e events ih =>
      rw [run, ih, batches, step_batch, List.flatMap_append, List.append_assoc]

end Proc

omit [F64 F] in
/-- A drop and an open lose no more than the ends of batches. -/
theorem restarts_holds (hst : st.Keeps entries) (calls : List (List (Op Id Item) × Bool)) :
    Restarts st (fun l => l.Holds entries calls)
      (fun im log => ∃ base, Recovers (Prefixes calls) (im.view entries) log base) where
  stop := fun h => h.disk.imp fun _ h => h.1
  settle := fun keep h => h.imp fun _ h => h.settle keep
  start := by
    rintro im log boot flushThreshold keep ⟨base, h⟩ hboot
    exact h.start_view hst hboot flushThreshold keep

/-- Writer and directory hold a prefix of each batch. -/
abbrev Proc.Batched (entries : Seg → List (Id × Item)) (fileBacked : Bool)
    (calls : List (List (Op Id Item) × Bool)) (p : Proc Id Item Seg F) : Prop :=
  p.AgreesOn fileBacked (fun l => l.Holds entries calls)
    (fun im log => ∃ base, Recovers (Prefixes calls) (im.view entries) log base)

namespace Proc.Batched

variable {fileBacked : Bool} {calls : List (List (Op Id Item) × Bool)}

omit [F64 F] in
theorem empty (entries : Seg → List (Id × Item)) (fileBacked : Bool) :
    (closed (.empty fileBacked) : Proc Id Item Seg F).Batched entries fileBacked [] := by
  obtain ⟨boot, hboot, hstores⟩ := boot_empty Id Item
  exact ⟨rfl, emptyImage, coherent_empty fileBacked, [], ⟨⟨boot, hboot, hstores⟩,
    fun n _ => by simpa [Directory.logOf, Directory.empty, RecordLog.empty] using Prefixes.nil⟩⟩

/-- One event. -/
theorem step {p : Proc Id Item Seg F} (hst : st.Keeps entries)
    (hp : p.Batched entries fileBacked calls) (e : Event Id Item F) :
    (Proc.step st p e).1.Batched entries fileBacked (calls ++ batch st p e) := by
  cases e with
  | call cmd fates =>
      cases p with
      | closed d => simpa [Proc.step, batch] using hp
      | running s =>
          exact hp.call (fun acked l => l.Holds entries (calls ++ [(cmd.ops, acked)]))
            (fun acked im log => ∃ base,
              Recovers (Prefixes (calls ++ [(cmd.ops, acked)])) (im.view entries) log base)
            cmd fates (fun h hissued => h.issue hst hissued)
            (fun h hacked => h.acknowledge hst hacked) (restarts_holds hst _).stop
  | reopen opts keep fates =>
      have hbatch : batch st p (.reopen opts keep fates) = [] := by cases p <;> rfl
      rw [hbatch, List.append_nil]
      exact hp.reopen (restarts_holds hst calls) opts keep fates

theorem run {p : Proc Id Item Seg F} (hst : st.Keeps entries)
    (hp : p.Batched entries fileBacked calls) (issued : List (Op Id Item × Bool))
    (events : List (Event Id Item F)) :
    (Proc.run st p issued events).1.Batched entries fileBacked
      (calls ++ batches st p events) := by
  induction events generalizing p calls issued with
  | nil => rwa [batches, List.append_nil]
  | cons e events ih =>
      rw [batches, ← List.append_assoc]
      exact ih (hp.step hst e) _

end Proc.Batched

/-- Over a run with any faults, take the operations call by call.  A writer that is
running shows the map of a prefix of each call's operations, all of them where the
call returned; and so does the writer that a new process then opens, however much is
left of the log. -/
theorem point_in_time (hst : st.Keeps entries) (fileBacked : Bool)
    (events : List (Event Id Item F)) :
    let q := Proc.run st (.closed (.empty fileBacked)) [] events
    let calls := Proc.batches st (.closed (.empty fileBacked)) events
    q.2 = (calls.flatMap fun b => flagged b.2 b.1) ∧
    (∀ s, q.1 = .running s → ∃ survived, Prefixes calls survived ∧
      Shown (s.livePairsOf entries) (history nothing survived)) ∧
    ∀ (opts : Options F) (keep : Nat), (opts.sync = .fsync → fileBacked = true) →
      ∃ s d survived, openWithOptions st opts (q.1.dir.settle keep []) = (.ok s, d) ∧
        Prefixes calls survived ∧ Shown (s.livePairsOf entries) (history nothing survived) := by
  intro q calls
  have hbatched : q.1.Batched entries fileBacked calls :=
    (Proc.Batched.empty entries fileBacked).run hst [] events
  refine ⟨Proc.run_batches st _ [] events, fun s hs => ?_, fun opts keep hback => ?_⟩
  · rw [hs] at hbatched
    obtain ⟨-, im, -, -, -, hholds⟩ := hbatched
    obtain ⟨survived, hprefixes, hstores⟩ := hholds.memory
    exact ⟨survived, hprefixes, Contents.shown_livePairs hstores.tracked hstores.map⟩
  · obtain ⟨hback', im, hcoh, base, hrec⟩ := hbatched.drop (restarts_holds hst calls)
    obtain ⟨boot, hboot⟩ := hrec.boots_of_view hst
    have hopen := open_calm st (hcoh.settle keep []) rfl opts
      (fun hsync => hback'.trans (hback hsync)) hboot
    rw [Directory.logOf_settle] at hopen
    obtain ⟨survived, hprefixes, hstores⟩ :=
      (hrec.start_view hst hboot opts.flushThreshold keep).memory
    exact ⟨_, _, survived, Prod.ext hopen.2 rfl, hprefixes,
      Contents.shown_livePairs hstores.tracked hstores.map⟩

/-- A batch of three, stopped before it is synced: the next process finds two records,
and the one after it opens too. -/
theorem point_in_time_mid_batch :
    let events : List (Event Nat Nat Rat) :=
      [.reopen (.new 2) 0 [], .call (.extend [(1, 5), (2, 6), (1, 7)])
        [fun _ => .done, fun _ => .done, fun _ => .done, fun _ => .stopped .nothing],
        .reopen (.new 2) 2 []]
    let q := Proc.run (mapStore Nat Nat) (.closed (.empty false)) [] events
    (∃ s survived, q.1 = .running s ∧ s.livePairsOf FinMap.pairs = [(2, 6), (1, 5)] ∧
      Prefixes [([.add 1 5, .add 2 6, .add 1 7], false)] survived ∧
      Shown [(2, 6), (1, 5)] (history nothing survived)) ∧
    ∃ s d survived, openWithOptions (mapStore Nat Nat) (.new 2 : Options Rat)
        (q.1.dir.settle 0 []) = (.ok s, d) ∧
      Prefixes [([.add 1 5, .add 2 6, .add 1 7], false)] survived ∧
      Shown (s.livePairsOf FinMap.pairs) (history nothing survived) := by
  intro events q
  obtain ⟨-, hrunning, hopens⟩ := point_in_time (F := Rat) mapStore_keeps false events
  have hcalls : Proc.batches (mapStore Nat Nat) (.closed (.empty false)) events =
      [([.add 1 5, .add 2 6, .add 1 7], false)] := by
    decide +kernel
  rw [hcalls] at hrunning hopens
  have hpairs : q.1.holds (fun s => s.livePairsOf FinMap.pairs == [(2, 6), (1, 5)]) = true := by
    decide +kernel
  obtain ⟨s, hs, htest⟩ := Proc.holds_iff.mp hpairs
  have hlive : s.livePairsOf FinMap.pairs = [(2, 6), (1, 5)] := eq_of_beq htest
  obtain ⟨survived, hprefixes, hshown⟩ := hrunning s hs
  exact ⟨⟨s, survived, hs, hlive, hprefixes, hlive ▸ hshown⟩,
    hopens (.new 2) 0 (by simp [Options.new])⟩

end Segstore
