import BulkActions.PoisonBatch
import BulkActions.RetryBudget

namespace BulkActions

/-- The `_job_id` under which a batch is enqueued: by the planner, or after a denial. -/
def BatchJob.jobId (actionId : String) (job : BatchJob) : String :=
  if job.deferrals = 0 then s!"batch:{actionId}:{job.index}"
  else s!"batch:{actionId}:{job.index}:d{job.deferrals}"

theorem toDigits_inj {m n : Nat} (h : Nat.toDigits 10 m = Nat.toDigits 10 n) : m = n := by
  rw [← Nat.ofDigitChars_ten_toDigits (n := m), h, Nat.ofDigitChars_ten_toDigits]

/-- What follows the batch index in a job id. -/
def deferralSuffix (deferrals : Nat) : List Char :=
  if deferrals = 0 then [] else ':' :: 'd' :: Nat.toDigits 10 deferrals

theorem deferralSuffix_inj {m n : Nat} (h : deferralSuffix m = deferralSuffix n) : m = n := by
  unfold deferralSuffix at h
  split_ifs at h with hm hn hn
  · omega
  · simp only [List.cons.injEq, true_and] at h
    exact toDigits_inj h

theorem jobId_toList (actionId : String) (job : BatchJob) :
    (job.jobId actionId).toList = "batch:".toList ++ actionId.toList ++ [':'] ++
      (Nat.toDigits 10 job.index ++ deferralSuffix job.deferrals) := by
  unfold BatchJob.jobId deferralSuffix
  split_ifs <;> simp [String.toList_append, toString]

/-- The index can be read off an id: it ends at the first character that is no digit. -/
theorem takeWhile_index (i k : Nat) :
    (Nat.toDigits 10 i ++ deferralSuffix k).takeWhile Char.isDigit = Nat.toDigits 10 i := by
  rw [List.takeWhile_append_of_pos
    (fun c hc => Nat.isDigit_of_mem_toDigits (by decide) (by decide) hc)]
  have hnone : (deferralSuffix k).takeWhile Char.isDigit = [] := by
    unfold deferralSuffix
    split_ifs
    · rfl
    · rfl
  simp [hnone]

theorem jobId_inj {actionId : String} {job job' : BatchJob}
    (h : job.jobId actionId = job'.jobId actionId) :
    job.index = job'.index ∧ job.deferrals = job'.deferrals := by
  have hlist := congrArg String.toList h
  rw [jobId_toList, jobId_toList] at hlist
  have htail := List.append_cancel_left hlist
  have hdigits := congrArg (List.takeWhile Char.isDigit) htail
  rw [takeWhile_index, takeWhile_index] at hdigits
  have hi := toDigits_inj hdigits
  rw [hi] at htail
  exact ⟨hi, deferralSuffix_inj (List.append_cancel_left htail)⟩

/-- The job a worker holds, whether or not the task has returned. -/
def Proc.holding : Proc → Option BatchJob
  | .batch job _ => some job
  | .lost (.batch job) => some job
  | _ => none

/-- The job of a task that has not returned. One that was interrupted is on arq's queue until
it is delivered again. -/
def Proc.executing : Proc → Option BatchJob
  | .batch _ (.done _) => none
  | .batch job _ => some job
  | .lost (.batch job) => some job
  | _ => none

/-- The platform, the ids of the results arq keeps, and those of all calls of `enqueue_job`
for a batch so far. -/
structure Arq where
  sys : Sys
  results : List String
  enqueued : List String

inductive ArqLabel where
  /-- a step of the platform, whose call of `enqueue_job` may be dropped -/
  | work (l : Label) (dropped : Bool)
  /-- arq keeps the result of a task that has returned, and the worker is free again -/
  | finish (p : Pid)
  /-- the worker dies before that -/
  | interrupt (p : Pid)
  /-- `keep_result` is over -/
  | expire (id : String)

/-- The batch job a step calls `enqueue_job` for. -/
def Sys.enqueues (env : Env) (s : Sys) : Label → Option BatchJob
  | .run p _ =>
    match (s.procs p).stmt env with
    | .enqueue (.batch job) => some job
    | _ => none
  | _ => none

def Sys.withQueue (s : Sys) (queue : List Job) : Sys :=
  { s with world := { s.world with queue := queue } }

namespace Arq

variable (env : Env) (actionId : String)

def step (x : Arq) : ArqLabel → Option Arq
  | .work l dropped => (x.sys.step env l).map (fun s =>
      { x with
        sys := if dropped then s.withQueue x.sys.world.queue else s
        enqueued := x.enqueued ++ ((x.sys.enqueues env l).map (BatchJob.jobId actionId)).toList })
  | .finish p =>
    match x.sys.procs p with
    | .batch job (.done _) => some
      { x with sys := x.sys.set x.sys.world p .idle, results := job.jobId actionId :: x.results }
    | _ => none
  | .interrupt p =>
    match x.sys.procs p with
    | .batch job (.done _) => some { x with sys := x.sys.set x.sys.world p (.lost (.batch job)) }
    | _ => none
  | .expire id => some { x with results := x.results.filter (fun r => r ≠ id) }

/-- The task of the job has returned. -/
def Returned (x : Arq) (id : String) : Prop :=
  id ∈ x.results ∨ ∃ p job ret, x.sys.procs p = .batch job (.done ret) ∧ job.jobId actionId = id

/-- A job of this id is queued, is running or has a kept result. -/
def Busy (x : Arq) (id : String) : Prop :=
  (∃ job : BatchJob, .batch job ∈ x.sys.world.queue ∧ job.jobId actionId = id) ∨
    (∃ p job, (x.sys.procs p).holding = some job ∧ job.jobId actionId = id) ∨ id ∈ x.results

/-- No task raises, and a job that is delivered a second time has been enqueued. -/
def undisturbed (x : Arq) (l : Label) : Bool :=
  match l, x.sys.procs l.pid with
  | .duplicate _ (.batch job), _ => job.jobId actionId ∈ x.enqueued
  | .raise _ _, _ => false
  | .run _ _, .batch _ pc => !pc.refuses
  | _, _ => true

/-- arq drops the enqueues of busy ids, and no others. -/
def Allowed (x : Arq) : ArqLabel → Prop
  | .work l dropped => x.undisturbed actionId l ∧
    (dropped ↔ ∃ job, x.sys.enqueues env l = some job ∧ x.Busy actionId (job.jobId actionId))
  | _ => True

end Arq

/-- The same link of the same chain. -/
def BatchJob.Same (job job' : BatchJob) : Prop :=
  job'.index = job.index ∧ job'.deferrals = job.deferrals

theorem BatchJob.Same.jobId {job job' : BatchJob} (h : job.Same job') (actionId : String) :
    job'.jobId actionId = job.jobId actionId := by
  unfold BatchJob.jobId
  rw [h.1, h.2]

theorem executing_holding {proc : Proc} {job : BatchJob} (h : proc.executing = some job) :
    proc.holding = some job := by
  cases proc with
  | batch job' pc => cases pc <;> first | exact h | cases h
  | lost job' => cases job' <;> exact h
  | _ => cases h

theorem holding_cases {proc : Proc} {job : BatchJob} (h : proc.holding = some job) :
    proc.executing = some job ∨ ∃ ret, proc = .batch job (.done ret) := by
  cases proc with
  | batch job' pc =>
    cases Option.some.inj h
    cases pc with
    | done ret => exact Or.inr ⟨ret, rfl⟩
    | _ => exact Or.inl rfl
  | lost job' => cases job' <;> exact Or.inl h
  | _ => cases h

def Label.raises : Label → Bool
  | .raise _ _ => true
  | _ => false

theorem same_again (job : BatchJob) :
    ∃ job', (Job.batch job).again.proc.executing = some job' ∧ job.Same job' :=
  ⟨{ job with jobTry := job.jobTry + 1 }, rfl, rfl, rfl⟩

theorem executing_batch (job : BatchJob) (pc : BatchPc) :
    (Proc.batch job pc).executing = some job ∨ ∃ ret, pc = .done ret := by
  cases pc with
  | done ret => exact Or.inr ⟨ret, rfl⟩
  | _ => exact Or.inl rfl

/-- A task that is under way stays so, unless the step brings it to its return. -/
theorem executing_step {env : Env} {s s' : Sys} {l : Label} (hs : Consistent env s)
    (hl : l.raises = false) (h : s.step env l = some s') {q : Pid} {job : BatchJob}
    (hq : (s.procs q).executing = some job) :
    (∃ job', (s'.procs q).executing = some job' ∧ job.Same job') ∨
      ∃ ext ret, l = .run q ext ∧ s'.procs q = .batch job (.done ret) := by
  by_cases hne : q = l.pid
  · cases step_moves hs h with
    | deliver hp _ | duplicate hp | cancel hp =>
      cases hne
      simp [Label.pid, hp, Proc.executing] at hq
    | @redeliver p job' hp =>
      cases hne
      simp only [Label.pid, hp] at hq
      rw [Label.pid, set_procs_self]
      cases job' with
      | plan => cases hq
      | batch job' =>
        cases Option.some.inj hq
        exact Or.inl (same_again _)
    | @batch p ext job' pc next w reply hp _ hm _ =>
      cases hne
      have hrun := batchMove_running hm
      simp only [Label.pid, hp] at hq
      rw [Label.pid, set_procs_self]
      have hj : job' = job := by
        cases pc <;> first | exact Option.some.inj hq | cases hrun
      subst hj
      rcases executing_batch job' next with hx | ⟨ret, rfl⟩
      · exact Or.inl ⟨job', hx, rfl, rfl⟩
      · exact Or.inr ⟨ext, ret, rfl, rfl⟩
    | @refused p ext job' limit n hp =>
      cases hne
      simp only [Label.pid, hp] at hq
      rw [Label.pid, set_procs_self]
      exact Or.inl ⟨job, hq, rfl, rfl⟩
    | plan hp _ _ _ _ | planFailed hp _ _ | cancelling hp _ _ _ =>
      cases hne
      simp [Label.pid, hp, Proc.executing] at hq
    | raise _ _ | swallow _ => cases hl
    | @crash p _ =>
      cases hne
      refine Or.inl ⟨job, ?_, rfl, rfl⟩
      rw [Label.pid, set_procs_self]
      simp only [Label.pid] at hq
      have hj := executing_holding hq
      cases hp : s.procs p <;> simp only [hp, Proc.killed] at hq hj ⊢ <;>
        first | exact hq | exact hj
  · rw [step_procs_ne h hne]
    exact Or.inl ⟨job, hq, rfl, rfl⟩

/-- Only a delivery gives a worker a job. -/
theorem holding_step {env : Env} {s s' : Sys} {l : Label} (hs : Consistent env s)
    (hl : l.raises = false) (h : s.step env l = some s') {q : Pid} {job : BatchJob}
    (hq : (s'.procs q).holding = some job) :
    (∃ job', (s.procs q).holding = some job' ∧ job'.Same job) ∨
      l = .deliver q (.batch job) ∨ l = .duplicate q (.batch job) := by
  by_cases hne : q = l.pid
  · cases step_moves hs h with
    | @deliver p job' _ _ =>
      cases hne
      rw [Label.pid, set_procs_self] at hq
      cases job' with
      | plan => cases hq
      | batch job' =>
        cases Option.some.inj hq
        exact Or.inr (Or.inl rfl)
    | @duplicate p job' _ =>
      cases hne
      rw [Label.pid, set_procs_self] at hq
      cases job' with
      | plan => cases hq
      | batch job' =>
        cases Option.some.inj hq
        exact Or.inr (Or.inr rfl)
    | @redeliver p job' hp =>
      cases hne
      rw [Label.pid, set_procs_self] at hq
      cases job' with
      | plan => cases hq
      | batch job' =>
        cases Option.some.inj hq
        exact Or.inl ⟨job', by rw [Label.pid, hp]; rfl, rfl, rfl⟩
    | batch hp _ _ _ | refused hp =>
      cases hne
      rw [Label.pid, set_procs_self] at hq
      exact Or.inl ⟨job, by rw [Label.pid, hp]; exact hq, rfl, rfl⟩
    | cancel _ | plan _ _ _ _ _ | planFailed _ _ _ | cancelling _ _ _ _ =>
      cases hne
      rw [Label.pid, set_procs_self] at hq
      cases hq
    | raise _ _ | swallow _ => cases hl
    | @crash p _ =>
      cases hne
      rw [Label.pid, set_procs_self] at hq
      refine Or.inl ⟨job, ?_, rfl, rfl⟩
      rw [Label.pid]
      cases hp : s.procs p <;> simp only [hp, Proc.killed] at hq ⊢ <;> exact hq
  · rw [step_procs_ne h hne] at hq
    exact Or.inl ⟨job, hq, rfl, rfl⟩

/-- Everything a step can do to the queue. -/
theorem queue_step {env : Env} {s s' : Sys} {l : Label} (h : s.step env l = some s') :
    s'.world.queue = s.world.queue ∨
    (∃ p job, l = .deliver p job ∧ s'.world.queue = s.world.queue.erase job) ∨
    ∃ p ext job, l = .run p ext ∧ (s.procs p).stmt env = .enqueue job ∧
      s'.world.queue = s.world.queue ++ [job] := by
  cases step_happens h with
  | @deliver p job _ _ => exact Or.inr (Or.inl ⟨p, job, rfl, rfl⟩)
  | @run p ext w reply next _ he _ =>
    rcases exec_queue he with hq | ⟨job, hst, hq⟩
    · exact Or.inl hq
    · exact Or.inr (Or.inr ⟨p, ext, job, rfl, hst, hq⟩)
  | @fail p ext w reply error _ he _ =>
    rcases exec_queue he with hq | ⟨job, hst, hq⟩
    · exact Or.inl hq
    · exact Or.inr (Or.inr ⟨p, ext, job, rfl, hst, hq⟩)
  | _ => exact Or.inl rfl

/-- Only the planner and a denied delivery enqueue jobs, and these are jobs of batches. -/
theorem enqueue_cases {env : Env} {proc : Proc} {job : Job} (h : proc.stmt env = .enqueue job) :
    (∃ loop row rows last, proc = .plan (.enqueueJobs loop (row :: rows) last) ∧
      job = .batch ⟨row.batchIndex, 0, 1⟩) ∨
    ∃ job' ms, proc = .batch job' (.enqueueDeferred ms) ∧
      job = .batch ⟨job'.index, job'.deferrals + 1, 1⟩ := by
  cases proc with
  | batch job' pc =>
    obtain ⟨⟨ms, rfl⟩, rfl⟩ := stmt_enqueue h
    exact Or.inr ⟨job', ms, rfl, rfl⟩
  | plan pc =>
    cases pc with
    | enqueueJobs loop rows last =>
      cases rows with
      | nil => cases h
      | cons row rows =>
        cases h
        exact Or.inl ⟨loop, row, rows, last, rfl, rfl⟩
    | _ => cases h
  | cancel pc => cases pc <;> cases h
  | idle => cases h
  | lost job' => cases h

theorem enqueues_eq_some {env : Env} {s : Sys} {l : Label} {job : BatchJob}
    (h : s.enqueues env l = some job) :
    ∃ p ext, l = .run p ext ∧ (s.procs p).stmt env = .enqueue (.batch job) := by
  cases l with
  | run p ext =>
    refine ⟨p, ext, rfl, ?_⟩
    simp only [Sys.enqueues] at h
    split at h
    next hst =>
      cases Option.some.inj h
      exact hst
    next => cases h
  | _ => cases h

theorem enqueues_of_stmt {env : Env} {s : Sys} {p : Pid} {ext : External} {job : BatchJob}
    (h : (s.procs p).stmt env = .enqueue (.batch job)) :
    s.enqueues env (.run p ext) = some job := by
  simp only [Sys.enqueues, h]

/-- A step of the platform `s`, as arq sees it. -/
structure Worked (env : Env) (actionId : String) (x : Arq) (l : Label) (dropped : Bool) (s : Sys)
    (x' : Arq) : Prop where
  step : x.sys.step env l = some s
  sys : x'.sys = if dropped then s.withQueue x.sys.world.queue else s
  results : x'.results = x.results
  enqueued : x'.enqueued =
    x.enqueued ++ ((x.sys.enqueues env l).map (BatchJob.jobId actionId)).toList

section Steps

variable {env : Env} {actionId : String} {x x' : Arq} {l : Label} {dropped : Bool} {s : Sys}

theorem worked_of_step (h : x.step env actionId (.work l dropped) = some x') :
    ∃ s, Worked env actionId x l dropped s x' := by
  obtain ⟨s, hs, rfl⟩ := Option.map_eq_some_iff.mp h
  exact ⟨s, hs, rfl, rfl, rfl⟩

theorem Worked.procs (h : Worked env actionId x l dropped s x') : x'.sys.procs = s.procs := by
  rw [h.sys]
  split_ifs <;> rfl

theorem Worked.db (h : Worked env actionId x l dropped s x') : x'.sys.world.db = s.world.db := by
  rw [h.sys]
  split_ifs <;> rfl

theorem Worked.committed (h : Worked env actionId x l dropped s x') :
    x'.sys.world.committed = s.world.committed :=
  congrArg ReadCommitted.Store.committed h.db

/-- A queued job stays queued until it is delivered. -/
theorem Worked.queue_kept (h : Worked env actionId x l dropped s x') {job : Job}
    (hj : job ∈ x.sys.world.queue) : job ∈ x'.sys.world.queue ∨ ∃ p, l = .deliver p job := by
  rw [h.sys]
  split_ifs with hd
  · exact Or.inl hj
  · rcases queue_step h.step with hq | ⟨p, job', rfl, hq⟩ | ⟨p, ext, job', rfl, _, hq⟩
    · exact Or.inl (hq ▸ hj)
    · by_cases he : job = job'
      · exact Or.inr ⟨p, by rw [he]⟩
      · exact Or.inl (hq ▸ (List.mem_erase_of_ne he).mpr hj)
    · exact Or.inl (hq ▸ List.mem_append_left _ hj)

theorem Worked.queue_new (h : Worked env actionId x l dropped s x') {job : BatchJob}
    (hj : .batch job ∈ x'.sys.world.queue) :
    .batch job ∈ x.sys.world.queue ∨ x.sys.enqueues env l = some job := by
  rw [h.sys] at hj
  split_ifs at hj with hd
  · exact Or.inl hj
  · rcases queue_step h.step with hq | ⟨p, job', rfl, hq⟩ | ⟨p, ext, job', rfl, hst, hq⟩
    · exact Or.inl (hq ▸ hj)
    · exact Or.inl (List.mem_of_mem_erase (hq ▸ hj))
    · rw [hq, List.mem_append, List.mem_singleton] at hj
      rcases hj with hj | rfl
      · exact Or.inl hj
      · exact Or.inr (enqueues_of_stmt hst)

theorem Worked.queue_accepted (h : Worked env actionId x l dropped s x') {job : BatchJob}
    (hd : dropped = false) (henq : x.sys.enqueues env l = some job) :
    .batch job ∈ x'.sys.world.queue := by
  obtain ⟨p, ext, rfl, hst⟩ := enqueues_eq_some henq
  have hsys : x'.sys = s := by simpa [hd] using h.sys
  have hstep := h.step
  rw [hsys]
  cases step_happens hstep with
  | run _ he _ | fail _ he _ =>
    rw [hst] at he
    rw [set_world, exec_enqueue he]
    exact List.mem_append_right _ (List.mem_singleton.mpr rfl)

end Steps

end BulkActions
