import BulkActions.CancelRuns
import BulkActions.OneShot

namespace BulkActions

/-- The points that are left to a late delivery. -/
def BatchPc.turnedAway : BatchPc → Bool
  | .loadBatch _ => true
  | .cancelBatch => true
  | .cancelCommit => true
  | .done .alreadyCompleted => true
  | .done .cancelled => true
  | _ => false

/-- The steps between a late delivery and its return. -/
def Proc.toReturn : Proc → Nat
  | .batch _ (.loadBatch _) => 3
  | .batch _ .cancelBatch => 2
  | .batch _ .cancelCommit => 1
  | _ => 0

/-- The steps between a delivery that is past the guards and the commit of its work. -/
def BatchPc.toCommit : BatchPc → Option Nat
  | .loadAccount _ => some 10
  | .rateLimit _ _ => some 9
  | .recordAttempt _ => some 8
  | .attemptCommit _ => some 7
  | .reloadAction _ => some 6
  | .reloadBatch _ _ => some 5
  | .runBatch _ _ _ => some 4
  | .writeOutcomes _ _ => some 3
  | .updateBatch _ _ => some 2
  | .recordCompletion _ _ => some 1
  | .workCommit _ _ => some 0
  | _ => none

/-- The work transaction of `p` becomes visible as a whole: its changes to the entities, its
log rows, its batch row and its share of the counters. -/
structure CommitsInFull (p : Pid) (job : BatchJob) (r : BatchResult) (x x' : Crm) : Prop where
  entities : x'.entities = x.staged p x.entities
  logs : ∃ seq, x'.sys.world.committed.logs =
    x.sys.world.committed.logs ++ World.logRows seq job.index r.outcomes
  row : ∃ b, x'.sys.world.committed.batches job.index = some b ∧ b.status = .completed ∧
    b.successCount = r.successCount ∧ b.failureCount = r.failureCount ∧
    b.skippedCount = r.skippedCount
  counters : x'.sys.world.committed.action.map BulkAction.counters =
    x.sys.world.committed.action.map (fun a => a.counters.record r)

section States

variable {env : Env} {n : Nat} {before : Nat → Prop} {x x' : Crm} {p : Pid} {ext : External}
  {job : BatchJob} {pc : BatchPc}

theorem late_turnedAway (hs : CancelSafe env n before x) (hlate : x.late p) :
    ∃ job pc, x.sys.procs p = .batch job pc ∧ pc.turnedAway := by
  have hcrossed := hs.crossed p
  cases hp : x.sys.procs p with
  | batch job pc =>
    rw [hp] at hcrossed
    refine ⟨job, pc, rfl, ?_⟩
    cases pc with
    | loadBatch a => rfl
    | cancelBatch => rfl
    | cancelCommit => rfl
    | markBatch _ _ | markOutcomes _ _ | markRecord _ _ | markCommit _ _ => exact hcrossed.elim
    | done ret =>
      cases ret with
      | alreadyCompleted => rfl
      | cancelled => rfl
      | _ => exact absurd hlate hcrossed
    | enqueueDeferred _ | finalizeSelect _ | finalizeUpdate _ _ | refresh _ _ | publish _ _ _
    | finalizeCommit _ | logCompleted _ _ => exact absurd hlate hcrossed
    | _ => exact absurd hlate hcrossed.1
  | idle =>
    rw [hp] at hcrossed
    exact absurd hlate hcrossed
  | cancel pc =>
    rw [hp] at hcrossed
    exact absurd hlate hcrossed
  | plan pc => exact absurd hp hs.not_plan
  | lost job => exact absurd hp hs.not_lost

theorem turnedAway_report {settings : Settings} (h : pc.turnedAway) :
    pc.report settings = none := by
  cases pc <;> first | rfl | cases h

theorem turnedAway_commitsWork (h : pc.turnedAway) : (Proc.batch job pc).commitsWork = false := by
  cases pc <;> first | rfl | cases h

/-- A late delivery changes no entity, log row or counter. -/
theorem late_inert {l : Label} (hs : CancelSafe env n before x) (hlate : x.late l.pid)
    (h : x.step env readsCancelled l = some x') :
    x'.entities = x.entities ∧ Untouched x.sys.world.committed x'.sys.world.committed := by
  obtain ⟨job, pc, hp, hturned⟩ := late_turnedAway hs hlate
  constructor
  · have hcommit : x.commitsWork l = false := by
      cases l with
      | run p ext =>
        simp only [Label.pid] at hp
        simp only [Crm.commitsWork, hp]
        exact turnedAway_commitsWork hturned
      | _ => rfl
    rw [crm_step_entities h, hcommit]
    rfl
  · refine step_untouched hs.consistent (crm_step_sys h) ?_
    intro job' pc' hp'
    cases hp.symm.trans hp'
    exact turnedAway_report hturned

theorem crm_run_isSome (hr : (x.sys.procs p).running)
    (he : (x.sys.world.exec p ext.now ((x.sys.procs p).stmt env)).isSome) :
    (x.step env readsCancelled (.run p ext)).isSome := by
  obtain ⟨⟨w, reply⟩, he⟩ := Option.isSome_iff_exists.mp he
  simp only [Crm.step, Option.isSome_map, Sys.step, hr, if_true, Sys.run, he]
  split <;> rfl

/-- No other transaction holds the row of a delivery's batch. -/
theorem free_own_row (hs : CancelSafe env n before x) (hp : x.sys.procs p = .batch job pc) :
    x.sys.world.db.free p (.batch job.index) := by
  unfold ReadCommitted.Store.free
  cases hlock : x.sys.world.db.lock (.batch job.index) with
  | none => simp
  | some q =>
    obtain ⟨v, hv, hrow⟩ := hs.owned q _ hlock
    rcases wrote_batch_row (hs.consistent.wrote q) hv hrow with ⟨job', pc', hq, hi⟩ | ⟨pc', hq⟩
    · simp [hs.distinct q p job' pc' job pc hq hp hi]
    · exact absurd hq hs.not_plan

/-- A step of a delivery waits at most for the action row. -/
theorem delivery_isSome (hs : CancelSafe env n before x) (hp : x.sys.procs p = .batch job pc)
    (hr : (x.sys.procs p).running)
    (haction : ∀ u, pc.stmt env.settings job = .updateAction u → x.sys.world.db.free p .action) :
    (x.step env readsCancelled (.run p ext)).isSome := by
  apply crm_run_isSome hr
  rw [hp]
  refine exec_isSome haction ?_ ?_
  · intro i u hst
    have hi : i = job.index := by
      cases pc <;> simp only [Proc.stmt, BatchPc.stmt, writeOutcomes, Stmt.updateBatch.injEq,
        reduceCtorEq] at hst <;> first | exact hst.1.symm | (split at hst <;> cases hst)
    rw [hi]
    exact free_own_row hs hp
  · intro rows hst
    cases pc <;> simp only [Proc.stmt, BatchPc.stmt, writeOutcomes, reduceCtorEq] at hst <;>
      (split at hst <;> cases hst)

theorem turnedAway_refuses (h : pc.turnedAway) : pc.refuses = false := by
  cases pc <;> first | rfl | cases h

/-- The next step of a late delivery is never blocked and brings it closer to its return. -/
theorem late_goes_on (hs : CancelSafe env n before x) (ext : External) (hlate : x.late p)
    (hr : (x.sys.procs p).running) :
    ∃ x', x.step env readsCancelled (.run p ext) = some x' ∧
      (x'.sys.procs p).toReturn < (x.sys.procs p).toReturn := by
  obtain ⟨job, pc, hp, hturned⟩ := late_turnedAway hs hlate
  have henabled : (x.step env readsCancelled (.run p ext)).isSome := by
    refine delivery_isSome hs hp hr ?_
    intro u hst
    cases pc <;> first | (cases hturned; done) | cases hst
  obtain ⟨x', hx'⟩ := Option.isSome_iff_exists.mp henabled
  refine ⟨x', hx', ?_⟩
  have hcrossed := hs.crossed p
  have hok : DistinctBatches x (.run p ext) := by
    intro job' pc' hp'
    cases hp.symm.trans hp'
    exact turnedAway_refuses hturned
  obtain ⟨next, w, hm, _, hsys⟩ := delivery_run hs hok hp hx'
  rw [hp] at hcrossed
  rw [hsys, set_procs_self, hp]
  cases hm with
  | loadedBatch _ _ hx => exact absurd (hcrossed.1.mpr hlate) hx
  | batchMissing _ | finished _ _ | toCancel _ _ _ | cancelBatch | cancelCommit =>
    simp [Proc.toReturn]
  | _ => cases hturned

/-- A late delivery returns with its row cancelled, unless its batch was completed before. -/
theorem late_returns {ret : BatchReturn} (hs : CancelSafe env n before x) (hlate : x.late p)
    (hp : x.sys.procs p = .batch job (.done ret)) (hbefore : ¬ before job.index) :
    ret = .cancelled ∧ x.sys.world.committed.Cancelled job.index := by
  have hcrossed := hs.crossed p
  rw [hp] at hcrossed
  cases ret with
  | cancelled => exact ⟨rfl, hcrossed.2⟩
  | alreadyCompleted => exact absurd hcrossed hbefore
  | _ => exact absurd hlate hcrossed

theorem toCommit_unfinished (hs : CancelSafe env n before x) {k : Nat}
    (hp : x.sys.procs p = .batch job pc) (hk : pc.toCommit = some k) :
    x.sys.world.committed.Unfinished job.index := by
  have hcrossed := hs.crossed p
  rw [hp] at hcrossed
  cases pc <;> first | exact hcrossed.2 | cases hk

/-- Whatever the status of the action, a delivery that is past the guards goes on towards its
commit, unless it is denied its tokens. -/
theorem passed_onward {k : Nat} (hs : CancelSafe env n before x)
    (hok : DistinctBatches x (.run p ext)) (hp : x.sys.procs p = .batch job pc)
    (hk : pc.toCommit = some (k + 1)) (hallowed : ext.decision.allowed)
    (h : x.step env readsCancelled (.run p ext) = some x') :
    ∃ pc', x'.sys.procs p = .batch job pc' ∧ pc'.toCommit = some k := by
  have hunfinished := toCommit_unfinished hs hp hk
  have hpres := hs.consistent.present p
  obtain ⟨next, w, hm, _, hsys⟩ := delivery_run hs hok hp h
  rw [hp] at hpres
  rw [hsys]
  refine ⟨_, set_procs_self .., ?_⟩
  cases hm with
  | deferred hdenied => simp [hallowed] at hdenied
  | reloadMissing hnone =>
    have hsome := hpres.1
    simp [hnone] at hsome
  | finishedMeanwhile hb hc => exact absurd hc (hunfinished _ hb)
  | loadedAccount | admitted | recordAttempt | attemptCommit | reloadedAction _
  | reloadedBatch _ _ | runBatch | writeOutcomes | updateBatch | recordCompletion =>
    cases hk
    rfl
  | _ => cases hk

/-- It waits for nothing but another transaction on the action row. -/
theorem passed_waits {k : Nat} (hs : CancelSafe env n before x) (ext : External)
    (hp : x.sys.procs p = .batch job pc) (hk : pc.toCommit = some k) :
    (x.step env readsCancelled (.run p ext)).isSome ∨
      ∃ q, q ≠ p ∧ x.sys.world.db.lock .action = some q := by
  have hr : (x.sys.procs p).running := by
    rw [hp]
    cases pc <;> first | rfl | cases hk
  by_cases hfree : x.sys.world.db.free p .action
  · exact Or.inl (delivery_isSome hs hp hr (fun _ _ => hfree))
  · right
    unfold ReadCommitted.Store.free at hfree
    cases hlock : x.sys.world.db.lock .action with
    | none => simp [hlock] at hfree
    | some q =>
      refine ⟨q, ?_, rfl⟩
      rintro rfl
      simp [hlock] at hfree

/-- The commit of its work is never blocked and publishes all of it. -/
theorem passed_commits {k : Nat} {r : BatchResult} (hs : CancelSafe env n before x)
    (ext : External) (hp : x.sys.procs p = .batch job (.workCommit k r)) :
    ∃ x', x.step env readsCancelled (.run p ext) = some x' ∧ CommitsInFull p job r x x' := by
  have henabled : (x.step env readsCancelled (.run p ext)).isSome := by
    refine delivery_isSome hs hp (by rw [hp]; rfl) ?_
    intro u hst
    cases hst
  obtain ⟨x', hx'⟩ := Option.isSome_iff_exists.mp henabled
  have hok : DistinctBatches x (.run p ext) := by
    intro job' pc' hp'
    cases hp.symm.trans hp'
    rfl
  have hpres := hs.consistent.present p
  rw [hp] at hpres
  obtain ⟨b, hb⟩ := Option.isSome_iff_exists.mp hpres.2
  refine ⟨x', hx', ?_⟩
  have hentities : x'.entities = x.staged p x.entities := by
    rw [crm_step_entities hx']
    simp [Crm.commitsWork, hp, Proc.commitsWork, Label.pid]
  obtain ⟨next, w, _, hpub, hsys⟩ := delivery_run hs hok hp hx'
  rcases hpub with ⟨_, hst⟩ | ⟨_, heff⟩
  · exact absurd rfl hst
  · have hw : x'.sys.world.committed = w.committed := by rw [hsys, set_world]
    generalize w.committed = c at hw heff
    cases heff with
    | @work _ _ seq _ now now' =>
      refine ⟨hentities, ⟨seq, by rw [hw]; rfl⟩,
        ⟨r.completeUpdate.set now b, ?_, rfl, rfl, rfl, rfl⟩, ?_⟩
      · rw [hw]
        simp [hb]
      · rw [hw]
        exact counters_recordUpdate _ r now'

/-- The step of a cancel that changes the tables is the one that succeeds. -/
theorem cancel_conflict {pc : CancelPc} (hs : CancelSafe env n before x)
    (hp : x.sys.procs p = .cancel pc)
    (h : x.step env readsCancelled (.run p ext) = some x') :
    x'.sys.world.committed = x.sys.world.committed ∨
      (x'.sys.procs p = .cancel (.done .cancelled) ∧ x'.sys.status = some .cancelled) := by
  have hok : DistinctBatches x (.run p ext) := by
    intro job' pc' hp'
    cases hp.symm.trans hp'
  have hpres := hs.consistent.present p
  rw [hp] at hpres
  cases cancel_moves hs hok h with
  | starts hidle _ _ _ _ _ => cases hp.symm.trans hidle
  | calls hidle _ _ => cases hp.symm.trans hidle
  | delivery hq _ _ _ _ _ => cases hp.symm.trans hq
  | cancels hq _ _ hpub hsys _ =>
    cases hp.symm.trans hq
    rcases cancel_publishes hpub with hc | ⟨rfl, now, hc⟩
    · left
      rw [hsys]
      exact hc
    · right
      obtain ⟨a, ha⟩ := Option.isSome_iff_exists.mp hpres
      constructor
      · rw [hsys, set_procs_self]
        rfl
      · rw [hsys]
        simp [Sys.status, hc, ha, ActionUpdate.set]

end States

/-- What holds in a state `x` around a cancel, when the runs began with the tables `c₀`. -/
structure AtBoundary (env : Env) (n : Nat) (c₀ : Tables) (x : Crm) : Prop where
  inert : ∀ l x', x.late l.pid → x.step env readsCancelled l = some x' →
    x'.entities = x.entities ∧ Untouched x.sys.world.committed x'.sys.world.committed
  goesOn : ∀ p ext, x.late p → (x.sys.procs p).running →
    ∃ x', x.step env readsCancelled (.run p ext) = some x' ∧
      (x'.sys.procs p).toReturn < (x.sys.procs p).toReturn
  returns : ∀ p job ret, x.late p → x.sys.procs p = .batch job (.done ret) →
    ¬ c₀.Completed job.index → ret = .cancelled ∧ x.sys.world.committed.Cancelled job.index
  onward : ∀ p ext job pc k x', x.sys.procs p = .batch job pc → pc.toCommit = some (k + 1) →
    pc.refuses = false → ext.decision.allowed →
    x.step env readsCancelled (.run p ext) = some x' →
    ∃ pc', x'.sys.procs p = .batch job pc' ∧ pc'.toCommit = some k
  waits : ∀ p ext job pc k, x.sys.procs p = .batch job pc → pc.toCommit = some k →
    (x.step env readsCancelled (.run p ext)).isSome ∨
      ∃ q, q ≠ p ∧ x.sys.world.db.lock .action = some q
  commits : ∀ p ext job k r, x.sys.procs p = .batch job (.workCommit k r) →
    ∃ x', x.step env readsCancelled (.run p ext) = some x' ∧ CommitsInFull p job r x x'
  counted : Counted n x.sys.world.committed
  conflict : ∀ p ext pc x', x.sys.procs p = .cancel pc →
    x.step env readsCancelled (.run p ext) = some x' →
    x'.sys.world.committed = x.sys.world.committed ∨
      (x'.sys.procs p = .cancel (.done .cancelled) ∧ x'.sys.status = some .cancelled)

theorem cancelSafe_atRest {env : Env} {n : Nat} {x : Crm} (rest : x.sys.AtRest)
    (early : ∀ p, x.late p = false)
    (bounded : ∀ i, n ≤ i → x.sys.world.committed.batches i = none)
    (start : Counted n x.sys.world.committed) :
    CancelSafe env n x.sys.world.committed.Completed x where
  consistent := consistent_atRest rest
  owned := fun p r hr => by simp [rest.unlocked r] at hr
  terminal := terminalSafe_atRest rest
  bounded := bounded
  counted := start
  crossed := fun p => by simp [rest.idle p, Proc.Crossed, early p]
  distinct := fun p q job pc job' pc' hp => by simp [rest.idle p] at hp
  fresh := fun i _ => by
    by_cases hc : x.sys.world.committed.Completed i
    · exact Or.inl hc
    · exact Or.inr (fun b hb hst => hc ⟨b, hb, hst⟩)

theorem atBoundary_of_safe {env : Env} {n : Nat} {c₀ : Tables} {x : Crm}
    (hs : CancelSafe env n c₀.Completed x) : AtBoundary env n c₀ x where
  inert _ _ hlate h := late_inert hs hlate h
  goesOn _ ext hlate hr := late_goes_on hs ext hlate hr
  returns _ _ _ hlate hp hc := late_returns hs hlate hp hc
  onward p _ job pc _ _ hp hk hrefuses hallowed h := by
    refine passed_onward hs ?_ hp hk hallowed h
    intro job' pc' hp'
    cases hp.symm.trans hp'
    exact hrefuses
  waits _ ext _ _ _ hp hk := passed_waits hs ext hp hk
  commits _ ext _ _ _ hp := passed_commits hs ext hp
  counted := hs.counted
  conflict _ _ _ _ hp h := cancel_conflict hs hp h

/-- Cancellation takes effect at the next batch boundary, wherever it falls among the steps of
the deliveries. -/
theorem cancel_at_batch_boundary {env : Env} {n : Nat} {x₀ x : Crm} (rest : x₀.sys.AtRest)
    (early : ∀ p, x₀.late p = false)
    (bounded : ∀ i, n ≤ i → x₀.sys.world.committed.batches i = none)
    (start : Counted n x₀.sys.world.committed)
    (h : Runs.Reaches (Crm.step env readsCancelled) DistinctBatches x₀ x) :
    AtBoundary env n x₀.sys.world.committed x ∧
      ∀ x', Runs.Reaches (Crm.step env readsCancelled) DistinctBatches x x' →
        x.sys.status = some .cancelled → x'.sys.status = some .cancelled := by
  have safe : CancelSafe env n x₀.sys.world.committed.Completed x :=
    h.invariant cancelSafe_step (cancelSafe_atRest rest early bounded start)
  refine ⟨atBoundary_of_safe safe, ?_⟩
  intro x' h' hst
  have keep : ∀ {y y' l}, CancelSafe env n x₀.sys.world.committed.Completed y ∧
      y.sys.status = some .cancelled → DistinctBatches y l →
      y.step env readsCancelled l = some y' →
      CancelSafe env n x₀.sys.world.committed.Completed y' ∧ y'.sys.status = some .cancelled := by
    intro y y' l hy hok hl
    exact ⟨cancelSafe_step hy.1 hok hl, status_step hy.1.terminal hy.2 rfl (crm_step_sys hl)⟩
  exact (h'.invariant keep ⟨safe, hst⟩).2

def Proc.elsewhere (i : Nat) : Proc → Bool
  | .batch job _ => job.index ≠ i
  | .lost _ => false
  | _ => true

/-- Steps of the first three slots. -/
def threeSlots (x : Crm) (l : Label) : Bool :=
  l.pid < 3 && match l, x.sys.procs l.pid with
    | .deliver _ (.batch job), _ => (x.sys.world.committed.batches job.index).isSome &&
      [0, 1, 2].all (fun q => (x.sys.procs q).elsewhere job.index)
    | .cancel _, _ => true
    | .run _ _, .batch _ pc => !pc.refuses
    | .run _ _, _ => true
    | _, _ => false

theorem elsewhere_avoids {proc : Proc} {i : Nat} (h : proc.elsewhere i) : proc.Avoids i := by
  cases proc with
  | batch job pc =>
    have hne : job.index ≠ i := of_decide_eq_true h
    exact hne
  | lost job => cases h
  | _ => trivial

theorem distinctBatches_of_threeSlots {x : Crm} {l : Label}
    (idle : ∀ p, 3 ≤ p → x.sys.procs p = .idle) (h : threeSlots x l) : DistinctBatches x l := by
  obtain ⟨_, h⟩ := Bool.and_eq_true_iff.mp h
  cases l with
  | deliver p job =>
    cases job with
    | plan => simp at h
    | batch job =>
      obtain ⟨hrow, hall⟩ := Bool.and_eq_true_iff.mp h
      refine ⟨hrow, fun q => ?_⟩
      rcases q with _ | _ | _ | q
      · exact elsewhere_avoids (List.all_eq_true.mp hall 0 (by simp))
      · exact elsewhere_avoids (List.all_eq_true.mp hall 1 (by simp))
      · exact elsewhere_avoids (List.all_eq_true.mp hall 2 (by simp))
      · rw [idle (q + 3) (Nat.le_add_left 3 q)]
        trivial
  | cancel p => trivial
  | run p ext =>
    intro job pc hp
    simpa [Label.pid, hp] using h
  | _ => simp at h

/-- The cancel commits while the delivery of contact 5 waits for its tokens, and before that of
contact 6 begins. -/
def cancelBetween : List Label :=
  .deliver 0 (.batch ⟨0, 0, 1⟩) :: List.replicate 3 (.run 0 {}) ++
    .cancel 1 :: List.replicate 3 (.run 1 {}) ++
    .deliver 2 (.batch ⟨1, 0, 1⟩) :: List.replicate 4 (.run 2 {}) ++
    List.replicate 5 (.run 0 {}) ++ .run 0 activeContact :: List.replicate 4 (.run 0 {})

/-- The first batch is completed and counted, the second is cancelled. -/
theorem cancel_at_batch_boundary_between :
    ∃ x, Runs.Reaches (Crm.step defaultEnv readsCancelled) DistinctBatches
      (twoBatches.crm threeContacts) x ∧ x.sys.status = some .cancelled ∧
      x.sys.world.committed.Completed 0 ∧ x.sys.world.committed.Cancelled 1 ∧
      AtBoundary defaultEnv 2 twoBatches.world.committed x ∧
      ∀ x', Runs.Reaches (Crm.step defaultEnv readsCancelled) DistinctBatches x x' →
        x.sys.status = some .cancelled → x'.sys.status = some .cancelled := by
  obtain ⟨x, hx, hst, hfirst, hsecond⟩ : ∃ x,
      Runs.checkedSteps (Crm.step defaultEnv readsCancelled) threeSlots
        (twoBatches.crm threeContacts) cancelBetween = some x ∧
      x.sys.status = some .cancelled ∧
      (x.sys.world.committed.batches 0).map BulkActionBatch.status = some .completed ∧
      (x.sys.world.committed.batches 1).map BulkActionBatch.status = some .cancelled :=
    ⟨_, rfl, rfl, rfl, rfl⟩
  have hr : Runs.Reaches (Crm.step defaultEnv readsCancelled) DistinctBatches
      (twoBatches.crm threeContacts) x := by
    refine Runs.reaches_of_checked (P := fun x => ∀ p, 3 ≤ p → x.sys.procs p = .idle)
      distinctBatches_of_threeSlots ?_ (fun _ _ => rfl) hx
    intro y y' l idle hc h p hp
    obtain ⟨hlt, _⟩ := Bool.and_eq_true_iff.mp hc
    rw [step_procs_ne (crm_step_sys h) (ne_of_gt ((decide_eq_true_eq.mp hlt).trans_le hp))]
    exact idle p hp
  have bounded : ∀ i, 2 ≤ i → twoBatches.world.committed.batches i = none :=
    fun i hi => if_neg (Nat.not_lt.mpr hi)
  have counted : Counted 2 twoBatches.world.committed := by
    apply counted_of_pending
    · intro i b hb
      simp only [twoBatches, Tables.sys, World.committed] at hb
      split at hb
      · cases Option.some.inj hb
        rfl
      · cases hb
    · intro a ha
      cases Option.some.inj ha
      exact ⟨rfl, rfl, rfl, rfl⟩
  obtain ⟨b, hb, hbst⟩ := Option.map_eq_some_iff.mp hfirst
  obtain ⟨b', hb', hbst'⟩ := Option.map_eq_some_iff.mp hsecond
  exact ⟨x, hr, hst, ⟨b, hb, hbst⟩, ⟨b', hb', hbst'⟩,
    cancel_at_batch_boundary (Tables.sys_atRest _ _) (fun _ => rfl) bounded counted hr⟩

end BulkActions
