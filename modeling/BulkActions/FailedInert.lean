import BulkActions.Crm
import BulkActions.OneShot
import BulkActions.PlannerRace
import BulkActions.RetryBudget

namespace BulkActions

/-- A delivery is late when the action has failed by the time it begins. -/
def startsFailed (s : Sys) : Label → Option Bool
  | .deliver _ _ => some (s.status = some .failed)
  | .duplicate _ _ => some (s.status = some .failed)
  | .redeliver _ => some (s.status = some .failed)
  | .cancel _ => some false
  | _ => none

/-- The points a delivery passes before its work transaction has found something to do. -/
def BatchPc.idleSoFar : BatchPc → Bool
  | .loadAction => true
  | .loadBatch _ => true
  | .cancelBatch => true
  | .cancelCommit => true
  | .loadAccount _ => true
  | .rateLimit _ _ => true
  | .enqueueDeferred _ => true
  | .recordAttempt _ => true
  | .attemptCommit _ => true
  | .reloadAction _ => true
  | .reloadBatch _ _ => true
  | .done _ => true
  | _ => false

/-- The work transaction of a late delivery finds the batch completed, and no late delivery
raises on its last try. -/
def turnedBack (env : Env) (x : Crm) (l : Label) : Bool :=
  !x.late l.pid || match l, x.sys.procs l.pid with
    | .run _ _, .batch job (.reloadBatch _ _) =>
      (x.sys.world.committed.batches job.index).all (fun b => b.status = .completed)
    | .raise _ error, .batch job pc => (pc.handler env.settings job error).isNone
    | _, _ => true

/-- No late delivery has found something to do. -/
structure InertSafe (env : Env) (x : Crm) : Prop where
  consistent : Consistent env x.sys
  inert : ∀ p job pc, x.late p → x.sys.procs p = .batch job pc → pc.idleSoFar

theorem idleSoFar_report {settings : Settings} {pc : BatchPc} (h : pc.idleSoFar) :
    pc.report settings = none := by
  cases pc <;> first | rfl | cases h

theorem idleSoFar_commitsWork {job : BatchJob} {pc : BatchPc} (h : pc.idleSoFar) :
    (Proc.batch job pc).commitsWork = false := by
  cases pc <;> first | rfl | cases h

theorem batchMove_idleSoFar {text : PyText} {job : BatchJob} {ext : External} {c : Tables}
    {ws : List Write} {pc next : BatchPc} (h : BatchMove text job ext c ws pc next)
    (hpc : pc.idleSoFar) (hrow : ∀ n a, pc = .reloadBatch n a →
      ∀ b, c.batches job.index = some b → b.status = .completed) : next.idleSoFar := by
  cases h with
  | reloadedBatch hb hne => exact absurd (hrow _ _ rfl _ hb) hne
  | _ => first | rfl | cases hpc

theorem job_idleSoFar {job : Job} {job' : BatchJob} {pc : BatchPc}
    (h : job.proc = .batch job' pc) : pc.idleSoFar := by
  cases job <;> cases h
  rfl

section Steps

variable {env : Env} {x x' : Crm} {l : Label}

theorem inertSafe_step (hs : InertSafe env x) (hok : turnedBack env x l)
    (h : x.step env startsFailed l = some x') : InertSafe env x' := by
  have hsys := crm_step_sys h
  refine ⟨consistent_step hs.consistent hsys, ?_⟩
  intro p job pc hlate hp
  rw [crm_step_late h] at hlate
  by_cases hne : p = l.pid
  · subst hne
    rw [Function.update_self] at hlate
    generalize hx : x'.sys = s at hsys hp
    cases step_moves hs.consistent hsys with
    | deliver _ _ | duplicate _ | redeliver _ =>
      rw [Label.pid, set_procs_self] at hp
      exact job_idleSoFar hp
    | @batch q ext job' pc' next w reply hq _ hm _ =>
      rw [Label.pid, set_procs_self] at hp
      cases hp
      have hlate' : x.late q := hlate
      refine batchMove_idleSoFar hm (hs.inert q _ pc' hlate' hq) ?_
      rintro n a rfl b hb
      simpa [turnedBack, Label.pid, hlate', hq, hb] using hok
    | @raise q error _ _ =>
      rw [Label.pid, set_procs_self] at hp
      have hlate' : x.late q := hlate
      cases hq : x.sys.procs q with
      | batch job' pc' =>
        have hnone : pc'.handler env.settings job' error = none := by
          simpa [turnedBack, Label.pid, hlate', hq] using hok
        simp [hq, Proc.handler, hnone] at hp
      | plan pc' =>
        rw [hq] at hp
        simp only [Proc.handler] at hp
        cases hh : pc'.handler error <;> simp [hh] at hp
      | _ => simp [hq, Proc.handler] at hp
    | @swallow q job' n r payload error hq =>
      have hpc := hs.inert q job' _ hlate hq
      cases hpc
    | @crash q _ =>
      rw [Label.pid, set_procs_self] at hp
      cases hq : x.sys.procs q <;> simp [hq, Proc.killed] at hp
    | cancel _ | refused _ | plan _ _ _ _ _ | planFailed _ _ _ | cancelling _ _ _ _ =>
      rw [Label.pid, set_procs_self] at hp
      cases hp
  · rw [Function.update_of_ne hne] at hlate
    rw [step_procs_ne hsys hne] at hp
    exact hs.inert p job pc hlate hp

end Steps

/-- In every run in which each delivery that begins after the failure is turned back, such a
delivery changes no entity, writes no log row and moves no counter. -/
theorem failed_action_inert {env : Env} {x₀ x x' : Crm} {l : Label} (rest : x₀.sys.AtRest)
    (h : Runs.Reaches (Crm.step env startsFailed) (fun x l => turnedBack env x l) x₀ x)
    (late : x.late l.pid) (hstep : x.step env startsFailed l = some x') :
    x'.entities = x.entities ∧ Untouched x.sys.world.committed x'.sys.world.committed := by
  have safe : InertSafe env x := by
    refine h.invariant inertSafe_step ⟨consistent_atRest rest, ?_⟩
    intro p job pc _ hp
    simp [rest.idle p] at hp
  refine ⟨?_, step_untouched safe.consistent (crm_step_sys hstep) ?_⟩
  · have hcommit : x.commitsWork l = false := by
      cases l with
      | run p ext =>
        cases hp : x.sys.procs p with
        | batch job pc =>
          simp only [Crm.commitsWork, hp]
          exact idleSoFar_commitsWork (safe.inert p job pc late hp)
        | _ => simp [Crm.commitsWork, hp, Proc.commitsWork]
      | _ => rfl
    rw [crm_step_entities hstep, hcommit]
    rfl
  · intro job pc hp
    exact idleSoFar_report (safe.inert l.pid job pc late hp)

/-- The planner fails after it has enqueued its one job, which is then denied its tokens. -/
theorem failed_action_inert_denied :
    ∃ x x', Runs.Reaches (Crm.step defaultEnv startsFailed) (fun x l => turnedBack defaultEnv x l)
      (submittedContacts.crm threeContacts) x ∧ x.sys.status = some .failed ∧ x.late 1 ∧
      x.step defaultEnv startsFailed (.run 1 {}) = some x' ∧ x'.entities = x.entities ∧
      Untouched x.sys.world.committed x'.sys.world.committed := by
  let labels : List Label := planContact ++ [.raise 0 "boom", .run 0 {}, .run 0 {},
    .deliver 1 contactsJob] ++ (attemptDenied 1).dropLast
  obtain ⟨x, hx, hst, hlate, x', hx'⟩ : ∃ x,
      Runs.checkedSteps (Crm.step defaultEnv startsFailed) (turnedBack defaultEnv)
        (submittedContacts.crm threeContacts) labels = some x ∧
      x.sys.status = some .failed ∧ x.late 1 = true ∧
      ∃ x', x.step defaultEnv startsFailed (.run 1 {}) = some x' :=
    ⟨_, rfl, rfl, rfl, _, rfl⟩
  have hr : Runs.Reaches (Crm.step defaultEnv startsFailed) (fun x l => turnedBack defaultEnv x l)
      (submittedContacts.crm threeContacts) x :=
    Runs.reaches_checked (fun h => h) hx
  exact ⟨x, x', hr, hst, hlate, hx',
    failed_action_inert (Tables.sys_atRest _ _) hr (l := .run 1 {}) hlate hx'⟩

/-- A hundred and one active contacts, to be updated one by one. -/
def manyContacts : EntityTable where
  rows := (List.range 101).map (fun k => contactRecord (k + 5) "active")
  sorted := by
    refine List.pairwise_map.mpr (List.pairwise_lt_range.imp ?_)
    intro j k hjk
    exact Nat.add_lt_add_right hjk 5

def contactsOneByOne : Sys :=
  Tables.sys ⟨some { contactsAction .queued with batchSize := 1 }, fun _ => none, []⟩ [.plan]

theorem contactsOneByOne_submitted :
    Submitted contactsOneByOne { contactsAction .queued with batchSize := 1 } where
  toAtRest := Tables.sys_atRest _ _
  action := rfl
  status := Or.inl rfl
  totals := ⟨rfl, rfl, rfl⟩
  counters := ⟨rfl, rfl, rfl, rfl⟩
  batches := fun _ => rfl
  logs := rfl

/-- The planner flushes its first group and raises while it reads the next page. -/
def groupThenFailure : List Label :=
  .deliver 0 .plan :: List.replicate 3 (.run 0 {}) ++
    (List.range planFlushEvery).map (fun k => .run 0 { page := [k + 5] }) ++
    List.replicate (planFlushEvery + 3) (.run 0 {}) ++ [.raise 0 "boom", .run 0 {}, .run 0 {}]

/-- Nobody but the planner raises. -/
def planningRaises (x : Crm) (l : Label) : Bool :=
  match l, x.sys.procs l.pid with
  | .raise _ _, .plan _ => true
  | _, _ => l.ordinary

/-- The jobs of the flushed group still run: contact 5 is updated by an action that has failed. -/
theorem failed_action_active :
    ¬ ∀ (x₀ x x' : Crm) (a : BulkAction) (l : Label), Submitted x₀.sys a →
      Runs.Reaches (Crm.step defaultEnv startsFailed) (fun x l => planningRaises x l) x₀ x →
      x.late l.pid → x.step defaultEnv startsFailed l = some x' →
      x'.entities = x.entities ∧ Untouched x.sys.world.committed x'.sys.world.committed := by
  intro always
  let labels : List Label := groupThenFailure ++ .deliver 1 contactsJob ::
    List.replicate 8 (.run 1 {}) ++ .run 1 activeContact :: List.replicate 3 (.run 1 {})
  let status (x : Crm) : Option Value := x.entities.rows.head?.map (fun r => r.cols "status")
  have hd : (Runs.checkedSteps (Crm.step defaultEnv startsFailed) planningRaises
      (contactsOneByOne.crm manyContacts) labels).bind (fun x =>
        (x.step defaultEnv startsFailed (.run 1 {})).map (fun x' =>
          (x.late 1, status x, status x'))) =
      some (true, some (.str "active"), some (.str "inactive")) := by
    decide +kernel
  obtain ⟨x, hx, hv⟩ := Option.bind_eq_some_iff.mp hd
  obtain ⟨x', hx', hv⟩ := Option.map_eq_some_iff.mp hv
  simp only [Prod.mk.injEq] at hv
  obtain ⟨hlate, hbefore, hafter⟩ := hv
  have hr : Runs.Reaches (Crm.step defaultEnv startsFailed) (fun x l => planningRaises x l)
      (contactsOneByOne.crm manyContacts) x :=
    Runs.reaches_checked (fun h => h) hx
  have hsame := (always _ x x' _ (.run 1 {}) contactsOneByOne_submitted hr hlate hx').1
  simp [status, hsame, hbefore] at hafter

end BulkActions
