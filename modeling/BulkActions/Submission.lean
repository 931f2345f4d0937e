import BulkActions.Moves

namespace BulkActions

/-- A validated submission; `id` is the key its row will get. -/
structure SubmitRequest where
  id : Uuid
  accountId : Uuid
  entityType : EntityType
  config : Config
  batchSize : Option Nat := none
  scheduledAt : Option Timestamp := none
  idempotencyKey : Option String := none

def SubmitRequest.row (settings : Settings) (rateLimitPerMinute : Nat) (r : SubmitRequest) :
    BulkAction where
  id := r.id
  accountId := r.accountId
  entityType := r.entityType
  configuration := r.config
  batchSize := effectiveBatchSize settings r.batchSize rateLimitPerMinute
  status := if r.scheduledAt.isSome then .scheduled else .queued
  scheduledAt := r.scheduledAt
  idempotencyKey := r.idempotencyKey

/-- Where `create_bulk_action` stands in its request transaction, from the INSERT on. -/
inductive RequestPc where
  | flush (row : BulkAction)
  | enqueue (row : BulkAction)
  | commit (row : BulkAction)
  | done
  | rolledBack

/-- A request transaction next to the platform; the row it has inserted is its own until
`session_scope` commits. -/
structure Handoff where
  sys : Sys
  request : RequestPc

inductive HandoffLabel where
  | request
  | abort
  | worker (l : Label)

def Sys.insertAction (s : Sys) (row : BulkAction) : Sys :=
  { s with world := { s.world with db := { s.world.db with
    committed := { s.world.db.committed with action := some row } } } }

def Sys.enqueuePlan (s : Sys) : Sys :=
  { s with world := { s.world with queue := s.world.queue ++ [.plan] } }

namespace Handoff

def step (env : Env) (h : Handoff) : HandoffLabel → Option Handoff
  | .request =>
    match h.request with
    | .flush row => some { h with request := .enqueue row }
    | .enqueue row => some ⟨h.sys.enqueuePlan, .commit row⟩
    | .commit row => some ⟨h.sys.insertAction row, .done⟩
    | .done => none
    | .rolledBack => none
  | .abort =>
    match h.request with
    | .done => none
    | .rolledBack => none
    | _ => some { h with request := .rolledBack }
  | .worker l => (h.sys.step env l).map (fun s => { h with sys := s })

def Reaches (env : Env) (ok : Handoff → HandoffLabel → Prop) : Handoff → Handoff → Prop :=
  Runs.Reaches (step env) ok

end Handoff

/-- The plan job has been taken off the queue and every run of it has returned. -/
def Sys.PlanConsumed (s : Sys) : Prop :=
  .plan ∉ s.world.queue ∧ (∃ p ret, s.procs p = .plan (.done ret)) ∧
    ∀ p pc, s.procs p = .plan pc → ∃ ret, pc = .done ret

/-- A new submission on a platform that is at rest. -/
structure Handoff.Fresh (env : Env) (h : Handoff) : Prop where
  rest : h.sys.AtRest
  absent : h.sys.world.committed.action = none
  queue : h.sys.world.queue = []
  request : ∃ (r : SubmitRequest) (limit : Nat), h.request = .flush (r.row env.settings limit)

def HandoffLabel.ordinary : HandoffLabel → Bool
  | .worker l => l.ordinary
  | _ => true

/-- The planner reads the action only after the request transaction has ended. -/
def SelectsAfterCommit (h : Handoff) (l : HandoffLabel) : Prop :=
  ∀ p ext, l = .worker (.run p ext) → h.sys.procs p = .plan .loadAction →
    h.request = .done ∨ h.request = .rolledBack

/-- The planner has not committed the planning status yet. -/
def PlanPc.early : PlanPc → Bool
  | .loadAction => true
  | .setPlanning _ => true
  | .planningCommit _ => true
  | _ => false

/-- Somebody will plan the action. -/
def Sys.PlanPending (s : Sys) : Prop :=
  .plan ∈ s.world.queue ∨ ∃ p pc, s.procs p = .plan pc ∧ pc.early

/-- Before the request transaction ends, workers wait to read the action. -/
structure Sys.Waiting (s : Sys) : Prop where
  absent : s.world.committed.action = none
  closed : ∀ p, s.world.db.writes p = []
  procs : ∀ p, s.procs p = .idle ∨ s.procs p = .plan .loadAction
  queue : ∀ job ∈ s.world.queue, job = .plan

structure Sys.HandedOff (env : Env) (s : Sys) : Prop where
  consistent : Consistent env s
  present : s.world.committed.action.isSome
  found : ∀ p, s.procs p ≠ .plan (.done .missing)
  pending : s.status = some .queued → s.PlanPending

def Handoff.Safe (env : Env) (h : Handoff) : Prop :=
  match h.request with
  | .flush _ => h.sys.Waiting
  | .enqueue _ => h.sys.Waiting
  | .commit _ => h.sys.Waiting ∧ h.sys.PlanPending
  | .done => h.sys.HandedOff env
  | .rolledBack => Consistent env h.sys ∧ h.sys.world.committed.action = none

theorem Sys.Waiting.consistent {env : Env} {s : Sys} (h : s.Waiting) : Consistent env s where
  guarded := fun p w r hw => by simp [h.closed p] at hw
  wrote := fun p => by
    rcases h.procs p with hp | hp <;> rw [hp, h.closed p] <;> rfl
  present := fun p => by
    rcases h.procs p with hp | hp <;> rw [hp] <;> trivial
  applied := fun p v hv => by simp [h.closed p] at hv

theorem waiting_insertAction {env : Env} {s : Sys} (row : BulkAction) (h : s.Waiting)
    (hp : s.PlanPending) : (s.insertAction row).HandedOff env where
  consistent :=
    { guarded := fun p w r hw => absurd hw (by simp [Sys.insertAction, h.closed p])
      wrote := h.consistent.wrote
      present := fun p => by
        rcases h.procs p with hp | hp <;> simp [Sys.insertAction, hp, Proc.Present, PlanPc.Present]
      applied := fun p v hv => absurd hv (by simp [Sys.insertAction, h.closed p]) }
  present := rfl
  found := fun p => by
    rcases h.procs p with hp | hp <;> simp [Sys.insertAction, hp]
  pending := fun _ => hp

/-- No commit takes an action back to queued, and the planner's first one takes it on. -/
theorem effect_queued {settings : Settings} {c c' : Tables} {proc : Proc}
    (h : Effect settings c proc c') (hq : c'.action.map BulkAction.status = some .queued) :
    c.action.map BulkAction.status = some .queued ∧ ∀ a, proc ≠ .plan (.planningCommit a) := by
  obtain ⟨a', ha', hst⟩ := Option.map_eq_some_iff.mp hq
  cases h with
  | planning =>
    obtain ⟨a, _, rfl⟩ := Option.map_eq_some_iff.mp ha'
    simp [ActionUpdate.set] at hst
  | rows _ _ => simp_all
  | totals =>
    obtain ⟨a, ha, rfl⟩ := Option.map_eq_some_iff.mp ha'
    exact ⟨Option.map_eq_some_iff.mpr ⟨a, ha, hst⟩, by simp⟩
  | started hu _ =>
    obtain ⟨a, _, rfl⟩ := Option.map_eq_some_iff.mp ha'
    rw [hu] at hst
    split at hst <;> simp [ActionUpdate.set] at hst
  | planFailed hu _ =>
    obtain ⟨a, _, rfl⟩ := Option.map_eq_some_iff.mp ha'
    simp [hu, ActionUpdate.set] at hst
  | work =>
    obtain ⟨a, ha, rfl⟩ := Option.map_eq_some_iff.mp ha'
    exact ⟨Option.map_eq_some_iff.mpr ⟨a, ha, hst⟩, by simp⟩
  | batchFailed =>
    obtain ⟨a, ha, rfl⟩ := Option.map_eq_some_iff.mp ha'
    exact ⟨Option.map_eq_some_iff.mpr ⟨a, ha, hst⟩, by simp⟩
  | @finalized _ _ k _ _ =>
    obtain ⟨a, _, rfl⟩ := Option.map_eq_some_iff.mp ha'
    rcases finalStatus_cases k with hk | hk <;> simp [ActionUpdate.set, hk] at hst
  | cancelled _ =>
    obtain ⟨a, _, rfl⟩ := Option.map_eq_some_iff.mp ha'
    simp [ActionUpdate.set] at hst
  | _ => exact ⟨hq, by simp⟩

theorem pending_set {s : Sys} {w : World} {p : Pid} {proc : Proc} (h : s.PlanPending)
    (hq : .plan ∈ s.world.queue → (s.set w p proc).PlanPending)
    (hp : ∀ pc, s.procs p = .plan pc → pc.early → (s.set w p proc).PlanPending) :
    (s.set w p proc).PlanPending := by
  rcases h with hj | ⟨q, pc, hpc, hearly⟩
  · exact hq hj
  · by_cases hqp : q = p
    · subst hqp
      exact hp pc hpc hearly
    · exact Or.inr ⟨q, pc, by rwa [set_procs_ne _ _ _ hqp], hearly⟩

theorem pending_self {s : Sys} {w : World} {p : Pid} {pc : PlanPc} (h : pc.early) :
    (s.set w p (.plan pc)).PlanPending :=
  Or.inr ⟨p, pc, set_procs_self _ _ _ _, h⟩

/-- Taking a job off the queue leaves the plan job queued or running. -/
theorem pending_deliver {s : Sys} {p : Pid} {job : Job} (hp : s.procs p = .idle)
    (h : s.PlanPending) :
    (s.set { s.world with queue := s.world.queue.erase job } p job.proc).PlanPending := by
  cases job with
  | plan => exact pending_self rfl
  | batch job =>
    refine pending_set h ?_ (by simp [hp])
    intro hj
    exact Or.inl ((List.mem_erase_of_ne (by simp)).mpr hj)

theorem waiting_step {env : Env} {s s' : Sys} {l : Label} (hs : s.Waiting) (hl : l.ordinary)
    (hrun : ∀ p ext, l = .run p ext → s.procs p ≠ .plan .loadAction)
    (h : s.step env l = some s') : s'.Waiting ∧ (s.PlanPending → s'.PlanPending) := by
  cases l with
  | deliver p job =>
    cases step_happens h with
    | deliver hp hj =>
      cases hs.queue job hj
      refine ⟨⟨hs.absent, hs.closed, ?_, ?_⟩, pending_deliver hp⟩
      · intro q
        by_cases hq : q = p
        · subst hq
          exact Or.inr (set_procs_self _ _ _ _)
        · rw [set_procs_ne _ _ _ hq]
          exact hs.procs q
      · exact fun job hj => hs.queue job (List.mem_of_mem_erase hj)
  | run p ext =>
    rcases hs.procs p with hp | hp
    · simp [Sys.step, hp, Proc.running] at h
    · exact absurd hp (hrun p ext rfl)
  | _ => cases hl

/-- A planner that reads an existing action does not report it missing, and stays on its way
to the planning status while the action is queued. -/
theorem plan_found {env : Env} {w w' : World} {p : Pid} {ext : External} {reply : Reply}
    {pc next : PlanPc} (hw : (Proc.plan pc).Wrote env (w.db.writes p))
    (ha : w.committed.action.isSome) (hr : (Proc.plan pc).running)
    (he : w.exec p ext.now pc.stmt = some (w', reply)) (hn : pc.resume ext reply = .ok next) :
    next ≠ .done .missing ∧ (pc.early → (∀ a, pc ≠ .planningCommit a) →
      w.committed.action.map BulkAction.status = some .queued → next.early) := by
  obtain ⟨a, haction⟩ := Option.isSome_iff_exists.mp ha
  cases pc with
  | loadAction =>
    have hreply := (exec_selectAction he).2
    rw [view_eq_committed hw, haction] at hreply
    simp only [PlanPc.resume, hreply, Except.ok.injEq] at hn
    subst hn
    constructor
    · split <;> simp
    · intro _ _ hst
      have hq : a.status = .queued := by simpa [haction] using hst
      simp [hq, BulkActionStatus.isTerminal, PlanPc.early]
  | setPlanning a =>
    cases Except.ok.inj hn
    exact ⟨by simp, fun _ _ _ => rfl⟩
  | planningCommit a =>
    cases Except.ok.inj hn
    exact ⟨by simp, fun _ hne => absurd rfl (hne a)⟩
  | nextBatch loop =>
    cases Except.ok.inj hn
    refine ⟨?_, by simp [PlanPc.early]⟩
    unfold PlanPc.afterPage PlanPc.afterFlush
    split
    · split_ifs <;> simp
    · dsimp only
      split_ifs <;> simp
  | enqueueJobs loop rows last =>
    refine ⟨?_, by simp [PlanPc.early]⟩
    cases rows <;> cases Except.ok.inj hn
    · unfold PlanPc.afterFlush
      split_ifs <;> simp
    · simp
  | failCommit error => simp [PlanPc.resume] at hn
  | done ret => simp [Proc.running] at hr
  | _ =>
    cases Except.ok.inj hn
    exact ⟨by simp, by simp [PlanPc.early]⟩

theorem handedOff_set {env : Env} {s : Sys} {w : World} {p : Pid} {proc : Proc}
    (hs : s.HandedOff env) (hc : Consistent env (s.set w p proc))
    (ha : w.committed.action.isSome) (hfound : proc ≠ .plan (.done .missing))
    (hpending : w.committed.action.map BulkAction.status = some .queued →
      (s.set w p proc).PlanPending) : (s.set w p proc).HandedOff env where
  consistent := hc
  present := ha
  found := by
    intro q
    by_cases hq : q = p
    · subst hq
      rwa [set_procs_self]
    · rw [set_procs_ne _ _ _ hq]
      exact hs.found q
  pending := hpending

theorem publishes_queued {env : Env} {c c' : Tables} {proc : Proc} (h : Publishes env c proc c')
    (hst : c'.action.map BulkAction.status = some .queued) :
    c.action.map BulkAction.status = some .queued ∧ ∀ a, proc ≠ .plan (.planningCommit a) := by
  rcases h with ⟨hc, hstmt⟩ | ⟨_, heff⟩
  · refine ⟨hc ▸ hst, ?_⟩
    rintro a rfl
    exact hstmt rfl
  · exact effect_queued heff hst

theorem handedOff_step {env : Env} {s s' : Sys} {l : Label} (hs : s.HandedOff env)
    (hl : l.ordinary) (h : s.step env l = some s') : s'.HandedOff env := by
  have hc := consistent_step hs.consistent h
  cases step_moves hs.consistent h with
  | @deliver p job hp hj =>
    refine handedOff_set hs hc hs.present (by cases job <;> simp [Job.proc]) ?_
    exact fun hst => pending_deliver hp (hs.pending hst)
  | @batch p ext job pc next w reply hp he _ hpub =>
    refine handedOff_set hs hc ((exec_action_isSome he).trans hs.present) (by simp) ?_
    intro hst
    refine pending_set (hs.pending (publishes_queued hpub hst).1) ?_ (by simp [hp])
    exact fun hj => Or.inl (exec_queue_mem he hj)
  | @refused p ext job limit n hp =>
    refine handedOff_set hs hc hs.present (by simp) ?_
    exact fun hst => pending_set (hs.pending hst) Or.inl (by simp [hp])
  | @plan p ext pc next w reply hp hr he hn hpub =>
    have hw := hs.consistent.wrote p
    rw [hp] at hw
    obtain ⟨hfound, hearly⟩ := plan_found hw hs.present hr he hn
    refine handedOff_set hs hc ((exec_action_isSome he).trans hs.present) (by simpa using hfound) ?_
    intro hst
    obtain ⟨hst, hne⟩ := publishes_queued hpub hst
    refine pending_set (hs.pending hst) (fun hj => Or.inl (exec_queue_mem he hj)) ?_
    intro pc' hp' he'
    cases hp.symm.trans hp'
    exact pending_self (hearly he' (fun a ha => hne a (by rw [ha])) hst)
  | @planFailed p ext error w reply hp he hpub =>
    refine handedOff_set hs hc ((exec_action_isSome he).trans hs.present) (by simp) ?_
    intro hst
    refine pending_set (hs.pending (publishes_queued hpub hst).1) ?_ ?_
    · exact fun hj => Or.inl (exec_queue_mem he hj)
    · intro pc' hp' he'
      cases hp.symm.trans hp'
      cases he'
  | @cancelling p ext pc w reply hp _ he hpub =>
    refine handedOff_set hs hc ((exec_action_isSome he).trans hs.present) (by simp) ?_
    intro hst
    refine pending_set (hs.pending (publishes_queued hpub hst).1) ?_ (by simp [hp])
    exact fun hj => Or.inl (exec_queue_mem he hj)
  | duplicate _ => cases hl
  | redeliver _ => cases hl
  | cancel _ => cases hl
  | raise _ _ => cases hl
  | swallow _ => cases hl
  | crash _ => cases hl

theorem waiting_enqueuePlan {s : Sys} (hs : s.Waiting) :
    s.enqueuePlan.Waiting ∧ s.enqueuePlan.PlanPending := by
  refine ⟨⟨hs.absent, hs.closed, hs.procs, ?_⟩, Or.inl (by simp [Sys.enqueuePlan])⟩
  intro job hj
  rcases List.mem_append.mp hj with hj | hj
  · exact hs.queue job hj
  · exact List.mem_singleton.mp hj

theorem safe_step {env : Env} {h h' : Handoff} {l : HandoffLabel} (hs : h.Safe env)
    (ok : l.ordinary ∧ SelectsAfterCommit h l) (hl : h.step env l = some h') : h'.Safe env := by
  obtain ⟨s, request⟩ := h
  obtain ⟨hord, hsel⟩ := ok
  cases l with
  | request =>
    cases request with
    | flush row => cases Option.some.inj hl; exact hs
    | enqueue row => cases Option.some.inj hl; exact waiting_enqueuePlan hs
    | commit row => cases Option.some.inj hl; exact waiting_insertAction row hs.1 hs.2
    | _ => simp [Handoff.step] at hl
  | abort =>
    cases request with
    | flush row => cases Option.some.inj hl; exact ⟨hs.consistent, hs.absent⟩
    | enqueue row => cases Option.some.inj hl; exact ⟨hs.consistent, hs.absent⟩
    | commit row => cases Option.some.inj hl; exact ⟨hs.1.consistent, hs.1.absent⟩
    | _ => simp [Handoff.step] at hl
  | worker l =>
    obtain ⟨s', hstep, rfl⟩ := Option.map_eq_some_iff.mp hl
    have early : request ≠ .done → request ≠ .rolledBack →
        ∀ p ext, l = .run p ext → s.procs p ≠ .plan .loadAction := by
      rintro hd hr p ext rfl hp
      rcases hsel p ext rfl hp with hq | hq
      · exact hd hq
      · exact hr hq
    cases request with
    | flush row => exact (waiting_step hs hord (early (by simp) (by simp)) hstep).1
    | enqueue row => exact (waiting_step hs hord (early (by simp) (by simp)) hstep).1
    | commit row =>
      obtain ⟨hw, hp⟩ := waiting_step hs.1 hord (early (by simp) (by simp)) hstep
      exact ⟨hw, hp hs.2⟩
    | done => exact handedOff_step hs hord hstep
    | rolledBack =>
      have hkept := step_action_isSome hs.1 hstep
      rw [hs.2] at hkept
      exact ⟨consistent_step hs.1 hstep, by simpa using hkept⟩

theorem safe_fresh {env : Env} {h : Handoff} (hf : h.Fresh env) : h.Safe env := by
  obtain ⟨r, limit, hr⟩ := hf.request
  rw [Handoff.Safe, hr]
  exact ⟨hf.absent, hf.rest.closed, fun p => Or.inl (hf.rest.idle p), by simp [hf.queue]⟩

theorem safe_reaches {env : Env} {h₀ h : Handoff}
    (hr : Handoff.Reaches env (fun h l => l.ordinary ∧ SelectsAfterCommit h l) h₀ h)
    (hs : h₀.Safe env) : h.Safe env :=
  Runs.Reaches.invariant safe_step hr hs

/-- When the planner's first SELECT waits for the end of the request transaction, no queued
action has lost its plan job, and a plan job whose action is committed has found its row. -/
theorem submission_keeps_plan_job {env : Env} {h₀ h : Handoff} (fresh : h₀.Fresh env)
    (hr : Handoff.Reaches env (fun h l => l.ordinary ∧ SelectsAfterCommit h l) h₀ h) :
    ¬ (h.sys.status = some .queued ∧ h.sys.PlanConsumed) ∧
    ((∃ p, h.sys.procs p = .plan (.done .missing)) → h.sys.world.committed.action = none) := by
  have safe : h.Safe env := safe_reaches hr (safe_fresh fresh)
  obtain ⟨s, request⟩ := h
  have absent : s.world.committed.action = none →
      ¬ (s.status = some .queued ∧ s.PlanConsumed) ∧
      ((∃ p, s.procs p = .plan (.done .missing)) → s.world.committed.action = none) :=
    fun ha => ⟨by simp [Sys.status, ha], fun _ => ha⟩
  cases request with
  | flush row => exact absent safe.absent
  | enqueue row => exact absent safe.absent
  | commit row => exact absent safe.1.absent
  | rolledBack => exact absent safe.2
  | done =>
    constructor
    · rintro ⟨hst, hqueue, _, hdone⟩
      rcases safe.pending hst with hj | ⟨p, pc, hp, he⟩
      · exact hqueue hj
      · obtain ⟨ret, rfl⟩ := hdone p pc hp
        cases he
    · rintro ⟨p, hp⟩
      exact absurd hp (safe.found p)

/-- The submission of the deactivation of account 1's active contacts. -/
def newContacts : Handoff where
  sys := Tables.sys { action := none, batches := fun _ => none, logs := [] } []
  request := .flush (SubmitRequest.row defaultEnv.settings 10000
    { id := 7, accountId := 1, entityType := .contact, config := deactivateContacts })

theorem newContacts_fresh : newContacts.Fresh defaultEnv where
  rest := Tables.sys_atRest _ _
  absent := rfl
  queue := rfl
  request := ⟨_, _, rfl⟩

/-- Workers run only after the request transaction has committed. -/
def runsAfterCommit (h : Handoff) : HandoffLabel → Bool
  | .request => true
  | .abort => true
  | .worker (.deliver _ _) => true
  | .worker (.run _ _) => match h.request with
    | .done => true
    | _ => false
  | .worker _ => false

/-- The worker takes the plan job before the commit, but reads the action after it. -/
theorem submission_keeps_plan_job_after_commit :
    ∃ h, Handoff.Reaches defaultEnv (fun h l => l.ordinary ∧ SelectsAfterCommit h l) newContacts h ∧
      (∃ p action, h.sys.procs p = .plan (.setPlanning action)) ∧
      ¬ (h.sys.status = some .queued ∧ h.sys.PlanConsumed) := by
  let labels : List HandoffLabel :=
    [.request, .request, .worker (.deliver 0 .plan), .request, .worker (.run 0 {})]
  obtain ⟨h, hs, hp⟩ : ∃ h,
      Runs.checkedSteps (Handoff.step defaultEnv) runsAfterCommit newContacts labels = some h ∧
      ∃ p action, h.sys.procs p = .plan (.setPlanning action) := ⟨_, rfl, 0, _, rfl⟩
  have hr : Handoff.Reaches defaultEnv (fun h l => l.ordinary ∧ SelectsAfterCommit h l)
      newContacts h := by
    refine Runs.reaches_checked ?_ hs
    intro h l hc
    refine ⟨?_, ?_⟩
    · cases l with
      | request => rfl
      | abort => rfl
      | worker l => cases l <;> first | rfl | simp [runsAfterCommit] at hc
    · rintro p ext rfl _
      cases hq : h.request with
      | done => exact Or.inl rfl
      | _ => simp [runsAfterCommit, hq] at hc
  exact ⟨h, hr, hp, (submission_keeps_plan_job newContacts_fresh hr).1⟩

/-- A worker that reads the action before the commit finds none, and the action that is then
committed stays queued without a plan job. -/
theorem submitted_action_left_queued :
    ¬ ∀ (h₀ h : Handoff), h₀.Fresh defaultEnv →
      Handoff.Reaches defaultEnv (fun _ l => l.ordinary) h₀ h →
      ¬ (h.sys.status = some .queued ∧ h.sys.PlanConsumed) ∧
      ((∃ p, h.sys.procs p = .plan (.done .missing)) → h.sys.world.committed.action = none) := by
  intro always
  let labels : List HandoffLabel :=
    [.request, .request, .worker (.deliver 0 .plan), .worker (.run 0 {}), .request]
  obtain ⟨h, hs, hst, hqueue, hmissing, hidle⟩ : ∃ h,
      Runs.steps (Handoff.step defaultEnv) newContacts labels = some h ∧
      h.sys.status = some .queued ∧ h.sys.world.queue = [] ∧
      h.sys.procs 0 = .plan (.done .missing) ∧ ∀ p, h.sys.procs (p + 1) = .idle :=
    ⟨_, rfl, rfl, rfl, rfl, fun _ => rfl⟩
  have hr : Handoff.Reaches defaultEnv (fun _ l => l.ordinary) newContacts h :=
    Runs.reaches_of_allowed (by simp [labels, HandoffLabel.ordinary, Label.ordinary]) hs
  have consumed : h.sys.PlanConsumed := by
    refine ⟨by simp [hqueue], ⟨0, .missing, hmissing⟩, ?_⟩
    intro p pc hp
    cases p with
    | zero => exact ⟨.missing, by simpa [hmissing] using hp.symm⟩
    | succ p => simp [hidle p] at hp
  exact (always newContacts h newContacts_fresh hr).1 ⟨hst, consumed⟩

end BulkActions
