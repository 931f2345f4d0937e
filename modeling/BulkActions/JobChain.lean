import BulkActions.PendingRows
import BulkActions.PlannerRace

namespace BulkActions

/-- A job of batch `i` with `k` deferrals is queued or running. -/
def Sys.Link (s : Sys) (i k : Nat) : Prop :=
  ∃ job : BatchJob, job.index = i ∧ job.deferrals = k ∧
    (.batch job ∈ s.world.queue ∨ ∃ p, (s.procs p).executing = some job)

/-- The chain of jobs of a pending batch goes on behind every job that has returned. -/
structure ChainSafe (env : Env) (actionId : String) (x : Arq) : Prop where
  consistent : Consistent env x.sys
  queued : ∀ job : BatchJob, .batch job ∈ x.sys.world.queue → job.jobId actionId ∈ x.enqueued
  held : ∀ p job, (x.sys.procs p).holding = some job → job.jobId actionId ∈ x.enqueued
  kept : ∀ id ∈ x.results, id ∈ x.enqueued
  present : ∀ job : BatchJob, job.jobId actionId ∈ x.enqueued →
    x.sys.world.committed.action.isSome ∧ (x.sys.world.committed.batches job.index).isSome
  sound : ∀ p, (x.sys.procs p).Sound x.sys.world.committed (x.sys.world.db.writes p)
  succeeded : ∀ job : BatchJob, x.Returned actionId (job.jobId actionId) →
    x.sys.world.committed.Pending job.index → ∃ k, job.deferrals < k ∧ x.sys.Link job.index k
  alive : ∀ job : BatchJob, job.jobId actionId ∈ x.enqueued →
    x.sys.world.committed.Pending job.index → ∃ k, x.sys.Link job.index k

section Steps

variable {env : Env} {actionId : String} {x x' : Arq} {l : Label} {dropped : Bool} {s : Sys}

/-- A link of a chain stays, unless the step brings its task to its return. -/
theorem Worked.link (h : Worked env actionId x l dropped s x') (hs : Consistent env x.sys)
    (hl : l.raises = false) {i k : Nat} (hlink : x.sys.Link i k) :
    x'.sys.Link i k ∨ ∃ p ext job ret, l = .run p ext ∧ (x.sys.procs p).executing = some job ∧
      s.procs p = .batch job (.done ret) ∧ job.index = i ∧ job.deferrals = k := by
  obtain ⟨job, rfl, rfl, hq | ⟨p, hp⟩⟩ := hlink
  · rcases h.queue_kept hq with hq' | ⟨p, rfl⟩
    · exact Or.inl ⟨job, rfl, rfl, Or.inl hq'⟩
    · refine Or.inl ⟨job, rfl, rfl, Or.inr ⟨p, ?_⟩⟩
      have hstep := h.step
      rw [h.procs]
      cases step_happens hstep with
      | deliver _ _ =>
        rw [set_procs_self]
        rfl
  · rcases executing_step hs hl h.step hp with ⟨job', hp', hsame⟩ | ⟨ext, ret, rfl, hp'⟩
    · exact Or.inl ⟨job', hsame.1, hsame.2, Or.inr ⟨p, by rw [h.procs]; exact hp'⟩⟩
    · exact Or.inr ⟨p, ext, job, ret, rfl, hp, hp', rfl, rfl⟩

/-- A delivery that returns and leaves its row pending has called for its successor. -/
theorem return_enqueues (hs : ChainSafe env actionId x) {p : Pid} {ext : External}
    (h : x.sys.step env (.run p ext) = some s) {job : BatchJob} {ret : BatchReturn}
    (hp : (x.sys.procs p).executing = some job) (hp' : s.procs p = .batch job (.done ret))
    (hpend : s.world.committed.Pending job.index) :
    x.sys.enqueues env (.run p ext) = some ⟨job.index, job.deferrals + 1, 1⟩ := by
  obtain ⟨haction, hrow⟩ := hs.present job (hs.held p job (executing_holding hp))
  have hbefore := pending_step hs.consistent h hrow hpend
  have hsound := hs.sound p
  have notCompleted : ∀ {b : BulkActionBatch},
      x.sys.world.committed.batches job.index = some b → b.status ≠ .completed := by
    intro b hb hc
    obtain ⟨b', hb', hst⟩ := hbefore
    cases Option.some.inj (hb.symm.trans hb')
    rw [hc] at hst
    cases hst
  cases step_moves hs.consistent h with
  | @batch _ _ job' pc next w reply hq he hm hpub =>
    rw [set_procs_self] at hp'
    cases hp'
    rw [hq] at hsound
    generalize hn : BatchPc.done ret = next at hm
    cases hm with
    | actionMissing hnone => simp [hnone] at haction
    | batchMissing hnone => simp [hnone] at hrow
    | finished hb hc => exact absurd hc (notCompleted hb)
    | cancelCommit =>
      rcases hpub with ⟨_, hst⟩ | ⟨_, heff⟩
      · exact absurd rfl hst
      · obtain ⟨b', hb', hst⟩ := hpend
        rw [set_world] at hb'
        generalize w.committed = c at hb' heff
        cases heff with
        | batchCancelled =>
          rw [Tables.updateBatch_batches, Function.update_self] at hb'
          obtain ⟨b, _, rfl⟩ := Option.map_eq_some_iff.mp hb'
          cases hst
    | enqueueDeferred => exact enqueues_of_stmt (by rw [hq]; rfl)
    | reloadMissing hnone => simp [hnone] at haction
    | finishedMeanwhile hb hc => exact absurd hc (notCompleted hb)
    | failedCommit => exact absurd hbefore (hsound.resolve_left (by simp [BatchPc.beforeAttempt]))
    | logCompleted => exact absurd hbefore (hsound.resolve_left (by simp [BatchPc.beforeAttempt]))
    | @notFinalizable after _ => cases after <;> cases hn
    | @finalizeUpdate after _ _ => cases after <;> cases hn
    | _ => cases hn
  | refused _ | planFailed _ _ _ | plan _ _ _ _ _ | cancelling _ _ _ _ =>
    rw [set_procs_self] at hp'
    cases hp'

/-- The task that calls `enqueue_job` stands before the job it calls for in the chain. -/
theorem Worked.link_of_enqueue (h : Worked env actionId x l dropped s x')
    (hs : Consistent env x.sys) {job : BatchJob} {k : Nat}
    (henq : x.sys.enqueues env l = some job) (hk : job.deferrals ≤ k)
    (hlink : x.sys.Link job.index k) : x'.sys.Link job.index k := by
  obtain ⟨p, ext, rfl, hst⟩ := enqueues_eq_some henq
  rcases h.link hs rfl hlink with hlink' | ⟨p', ext', job', ret, hl, hp, _, _, hk'⟩
  · exact hlink'
  · cases hl
    rcases enqueue_cases hst with ⟨loop, row, rows, last, hq, _⟩ | ⟨job'', ms, hq, hj⟩
    · rw [hq] at hp
      cases hp
    · rw [hq] at hp
      cases Option.some.inj hp
      cases hj
      simp only at hk
      omega

/-- Whether or not arq accepts it, the job that a delivery or the planner calls for has a link
of its chain at or behind it. -/
theorem Worked.enqueued_link (h : Worked env actionId x l dropped s x')
    (hs : ChainSafe env actionId x) (hok : x.Allowed env actionId (.work l dropped))
    {job : BatchJob} (henq : x.sys.enqueues env l = some job)
    (hpend : x.sys.world.committed.Pending job.index) :
    ∃ k, job.deferrals ≤ k ∧ x'.sys.Link job.index k := by
  have behind : x.Returned actionId (job.jobId actionId) →
      ∃ k, job.deferrals ≤ k ∧ x'.sys.Link job.index k := by
    intro hret
    obtain ⟨k, hk, hlink⟩ := hs.succeeded job hret hpend
    exact ⟨k, hk.le, h.link_of_enqueue hs.consistent henq hk.le hlink⟩
  have here : x.sys.Link job.index job.deferrals →
      ∃ k, job.deferrals ≤ k ∧ x'.sys.Link job.index k :=
    fun hlink => ⟨job.deferrals, le_rfl, h.link_of_enqueue hs.consistent henq le_rfl hlink⟩
  cases hd : dropped with
  | false =>
    exact ⟨job.deferrals, le_rfl, job, rfl, rfl, Or.inl (h.queue_accepted hd henq)⟩
  | true =>
    obtain ⟨job', henq', hbusy⟩ := hok.2.mp hd
    cases Option.some.inj (henq.symm.trans henq')
    rcases hbusy with ⟨job', hq, hid⟩ | ⟨p, job', hp, hid⟩ | hres
    · obtain ⟨hi, hk⟩ := jobId_inj hid
      exact here ⟨job', hi, hk, Or.inl hq⟩
    · obtain ⟨hi, hk⟩ := jobId_inj hid
      rcases holding_cases hp with hx | ⟨ret, hdone⟩
      · exact here ⟨job', hi, hk, Or.inr ⟨p, hx⟩⟩
      · exact behind (Or.inr ⟨p, job', ret, hdone, hid⟩)
    · exact behind (Or.inl hres)

/-- A delivery that returns leaves a link behind it, while its row is pending. -/
theorem Worked.returned_link (h : Worked env actionId x l dropped s x')
    (hs : ChainSafe env actionId x) (hok : x.Allowed env actionId (.work l dropped))
    {p : Pid} {ext : External} {job : BatchJob} {ret : BatchReturn} (hl : l = .run p ext)
    (hp : (x.sys.procs p).executing = some job) (hp' : s.procs p = .batch job (.done ret))
    (hpend : x'.sys.world.committed.Pending job.index) :
    ∃ k, job.deferrals < k ∧ x'.sys.Link job.index k := by
  subst hl
  rw [h.committed] at hpend
  have hrow := (hs.present job (hs.held p job (executing_holding hp))).2
  have henq := return_enqueues hs h.step hp hp' hpend
  have hbefore := pending_step hs.consistent h.step hrow hpend
  exact h.enqueued_link hs hok henq hbefore

/-- The chain of a pending batch only moves on. -/
theorem Worked.advances (h : Worked env actionId x l dropped s x')
    (hs : ChainSafe env actionId x) (hok : x.Allowed env actionId (.work l dropped))
    (hl : l.raises = false) {i k : Nat} (hpend : x'.sys.world.committed.Pending i)
    (hlink : x.sys.Link i k) : ∃ k', k ≤ k' ∧ x'.sys.Link i k' := by
  rcases h.link hs.consistent hl hlink with hlink' | ⟨p, ext, job, ret, hrun, hp, hp', rfl, rfl⟩
  · exact ⟨k, le_rfl, hlink'⟩
  · obtain ⟨k, hk, hlink'⟩ := h.returned_link hs hok hrun hp hp' hpend
    exact ⟨k, hk.le, hlink'⟩

theorem enqueues_present (hs : ChainSafe env actionId x) {job : BatchJob}
    (henq : x.sys.enqueues env l = some job) :
    x.sys.world.committed.action.isSome ∧ (x.sys.world.committed.batches job.index).isSome := by
  obtain ⟨p, ext, rfl, hst⟩ := enqueues_eq_some henq
  rcases enqueue_cases hst with ⟨loop, row, rows, last, hp, hj⟩ | ⟨job', ms, hp, hj⟩
  · have hpres := hs.consistent.present p
    have hsound := hs.sound p
    rw [hp] at hpres hsound
    cases hj
    exact ⟨hpres, hsound row List.mem_cons_self⟩
  · cases hj
    exact hs.present job' (hs.held p job' (by rw [hp]; rfl))

theorem Worked.mem_enqueued (h : Worked env actionId x l dropped s x') {id : String} :
    id ∈ x'.enqueued ↔
      id ∈ x.enqueued ∨ ∃ job, x.sys.enqueues env l = some job ∧ job.jobId actionId = id := by
  rw [h.enqueued, List.mem_append]
  cases hj : x.sys.enqueues env l <;> simp [eq_comm]

theorem not_raises (hok : x.Allowed env actionId (.work l dropped)) : l.raises = false := by
  cases l with
  | raise p error => simp [Arq.Allowed, Arq.undisturbed] at hok
  | _ => rfl

/-- Who is seen to have returned had done so before, or does with this step. -/
theorem done_step (hs : Consistent env x.sys) (hl : l.raises = false)
    (h : x.sys.step env l = some s) {p : Pid} {job : BatchJob} {ret : BatchReturn}
    (hp : s.procs p = .batch job (.done ret)) :
    x.sys.procs p = .batch job (.done ret) ∨
      ∃ ext, l = .run p ext ∧ (x.sys.procs p).executing = some job := by
  by_cases hne : p = l.pid
  · subst hne
    cases step_moves hs h with
    | @deliver p job' _ _ | @duplicate p job' _ | @redeliver p job' _ =>
      rw [Label.pid, set_procs_self] at hp
      cases job' <;> cases hp
    | @batch p ext job' pc next w reply hq _ hm _ =>
      rw [Label.pid, set_procs_self] at hp
      cases hp
      refine Or.inr ⟨ext, rfl, ?_⟩
      rw [Label.pid, hq]
      exact (executing_batch _ pc).resolve_right (by
        rintro ⟨ret', rfl⟩
        exact absurd (batchMove_running hm) (by simp [Proc.running]))
    | cancel _ | refused _ | planFailed _ _ _ | plan _ _ _ _ _ | cancelling _ _ _ _ =>
      rw [Label.pid, set_procs_self] at hp
      cases hp
    | raise _ _ | swallow _ => cases hl
    | @crash p _ =>
      rw [Label.pid, set_procs_self] at hp
      cases hq : x.sys.procs p <;> simp [hq, Proc.killed] at hp
  · rw [step_procs_ne h hne] at hp
    exact Or.inl hp

theorem Worked.consistent (h : Worked env actionId x l dropped s x')
    (hs : Consistent env x.sys) : Consistent env x'.sys := by
  have hc := consistent_step hs h.step
  rw [h.sys]
  split_ifs
  · exact ⟨hc.guarded, hc.wrote, hc.present, hc.applied⟩
  · exact hc

/-- The job a worker holds after a step had been enqueued before it. -/
theorem Worked.held_enqueued (h : Worked env actionId x l dropped s x')
    (hs : ChainSafe env actionId x) (hok : x.Allowed env actionId (.work l dropped)) {p : Pid}
    {job : BatchJob} (hp : (x'.sys.procs p).holding = some job) :
    job.jobId actionId ∈ x.enqueued := by
  rw [h.procs] at hp
  rcases holding_step hs.consistent (not_raises hok) h.step hp with ⟨job', hp', hsame⟩ | rfl | rfl
  · rw [hsame.jobId]
    exact hs.held p job' hp'
  · have hstep := h.step
    cases step_happens hstep with
    | deliver _ hj => exact hs.queued job hj
  · simpa [Arq.undisturbed] using hok.1

theorem chainSafe_work (hs : ChainSafe env actionId x)
    (hok : x.Allowed env actionId (.work l dropped)) (h : Worked env actionId x l dropped s x') :
    ChainSafe env actionId x' := by
  have hl := not_raises hok
  have before : ∀ {i}, (x.sys.world.committed.batches i).isSome →
      x'.sys.world.committed.Pending i → x.sys.world.committed.Pending i := by
    intro i hrow hpend
    rw [h.committed] at hpend
    exact pending_step hs.consistent h.step hrow hpend
  have moreRows : ∀ {i}, x.sys.world.committed.action.isSome ∧
      (x.sys.world.committed.batches i).isSome → x'.sys.world.committed.action.isSome ∧
      (x'.sys.world.committed.batches i).isSome := by
    intro i hrow
    rw [h.committed]
    exact ⟨(step_action_isSome hs.consistent h.step).trans hrow.1,
      step_batch_isSome hs.consistent h.step hrow.2⟩
  have behind : ∀ job : BatchJob, x.Returned actionId (job.jobId actionId) →
      (x.sys.world.committed.batches job.index).isSome →
      x'.sys.world.committed.Pending job.index →
      ∃ k, job.deferrals < k ∧ x'.sys.Link job.index k := by
    intro job hret hrow hpend
    obtain ⟨k, hk, hlink⟩ := hs.succeeded job hret (before hrow hpend)
    obtain ⟨k', hk', hlink'⟩ := h.advances hs hok hl hpend hlink
    exact ⟨k', hk.trans_le hk', hlink'⟩
  constructor
  case consistent =>
    exact h.consistent hs.consistent
  case queued =>
    intro job hj
    rw [h.mem_enqueued]
    rcases h.queue_new hj with hj | henq
    · exact Or.inl (hs.queued job hj)
    · exact Or.inr ⟨job, henq, rfl⟩
  case held =>
    intro p job hp
    exact h.mem_enqueued.mpr (Or.inl (h.held_enqueued hs hok hp))
  case kept =>
    intro id hid
    rw [h.mem_enqueued]
    rw [h.results] at hid
    exact Or.inl (hs.kept id hid)
  case present =>
    intro job hj
    apply moreRows
    rcases h.mem_enqueued.mp hj with hj | ⟨job', henq, hid⟩
    · exact hs.present job hj
    · rw [← (jobId_inj hid).1]
      exact enqueues_present hs henq
  case sound =>
    rw [h.procs, h.committed, h.db]
    exact sound_step hs.consistent hl h.step hs.sound
  case succeeded =>
    rintro job (hres | ⟨p, job', ret, hp, hid⟩) hpend
    · rw [h.results] at hres
      exact behind job (Or.inl hres) (hs.present job (hs.kept _ hres)).2 hpend
    · obtain ⟨hi, hk⟩ := jobId_inj hid
      rw [h.procs] at hp
      rcases done_step hs.consistent hl h.step hp with hp' | ⟨ext, hrun, hp'⟩
      · have hheld := hs.held p job' (by rw [hp']; rfl)
        refine behind job (Or.inr ⟨p, job', ret, hp', hid⟩) (hs.present job ?_).2 hpend
        rwa [← hid]
      · rw [← hi] at hpend ⊢
        rw [← hk]
        exact h.returned_link hs hok hrun hp' hp hpend
  case alive =>
    intro job hj hpend
    rcases h.mem_enqueued.mp hj with hj | ⟨job', henq, hid⟩
    · obtain ⟨k, hlink⟩ := hs.alive job hj (before (hs.present job hj).2 hpend)
      obtain ⟨k', _, hlink'⟩ := h.advances hs hok hl hpend hlink
      exact ⟨k', hlink'⟩
    · rw [← (jobId_inj hid).1] at hpend ⊢
      obtain ⟨k, _, hlink⟩ :=
        h.enqueued_link hs hok henq (before (enqueues_present hs henq).2 hpend)
      exact ⟨k, hlink⟩

/-- A worker whose task has returned is freed or dies; arq keeps the result or not. -/
theorem chainSafe_slot {p : Pid} {job : BatchJob} {ret : BatchReturn} {proc : Proc}
    {results : List String} (hs : ChainSafe env actionId x)
    (hp : x.sys.procs p = .batch job (.done ret)) (hproc : proc = .idle ∨ proc = .lost (.batch job))
    (hres : ∀ id ∈ results, id ∈ x.results ∨ id = job.jobId actionId) :
    ChainSafe env actionId
      { x with sys := x.sys.set x.sys.world p proc, results := results } := by
  have hheld := hs.held p job (by rw [hp]; rfl)
  have links : ∀ {i k}, x.sys.Link i k → (x.sys.set x.sys.world p proc).Link i k := by
    rintro i k ⟨job', hi, hk, hq | ⟨q, hq⟩⟩
    · exact ⟨job', hi, hk, Or.inl hq⟩
    · have hne : q ≠ p := by
        rintro rfl
        rw [hp] at hq
        cases hq
      exact ⟨job', hi, hk, Or.inr ⟨q, by rwa [set_procs_ne _ _ _ hne]⟩⟩
  constructor
  case queued => exact hs.queued
  case present => exact hs.present
  case consistent =>
    have hw := hs.consistent.wrote p
    rw [hp] at hw
    rcases hproc with rfl | rfl <;> exact consistent_set hs.consistent rfl hw trivial
  case held =>
    refine fun q => forall_procs_set
      (P := fun _ proc => ∀ job, proc.holding = some job → job.jobId actionId ∈ x.enqueued)
      ?_ (fun q _ => hs.held q) q
    intro job' hj
    rcases hproc with rfl | rfl
    · cases hj
    · cases Option.some.inj hj
      exact hheld
  case kept =>
    intro id hid
    rcases hres id hid with hid | rfl
    · exact hs.kept id hid
    · exact hheld
  case sound =>
    refine forall_procs_set ?_ (fun q _ => hs.sound q)
    rcases hproc with rfl | rfl <;> trivial
  case succeeded =>
    intro job' hret hpend
    have hbefore : x.Returned actionId (job'.jobId actionId) := by
      rcases hret with hid | ⟨q, job'', ret', hq, hid⟩
      · rcases hres _ hid with hid | hid
        · exact Or.inl hid
        · exact Or.inr ⟨p, job, ret, hp, hid.symm⟩
      · have hne : q ≠ p := by
          rintro rfl
          rcases hproc with rfl | rfl <;> simp at hq
        rw [set_procs_ne _ _ _ hne] at hq
        exact Or.inr ⟨q, job'', ret', hq, hid⟩
    obtain ⟨k, hk, hlink⟩ := hs.succeeded job' hbefore hpend
    exact ⟨k, hk, links hlink⟩
  case alive =>
    intro job' hj hpend
    obtain ⟨k, hlink⟩ := hs.alive job' hj hpend
    exact ⟨k, links hlink⟩

theorem chainSafe_expire {id : String} (hs : ChainSafe env actionId x) :
    ChainSafe env actionId { x with results := x.results.filter (fun r => r ≠ id) } := by
  refine ⟨hs.consistent, hs.queued, hs.held, ?_, hs.present, hs.sound, ?_, hs.alive⟩
  · exact fun r hr => hs.kept r (List.mem_of_mem_filter hr)
  · exact fun job hret => hs.succeeded job (hret.imp_left List.mem_of_mem_filter)

theorem chainSafe_step {l : ArqLabel} (hs : ChainSafe env actionId x)
    (hok : x.Allowed env actionId l) (h : x.step env actionId l = some x') :
    ChainSafe env actionId x' := by
  cases l with
  | work l dropped =>
    obtain ⟨s, hw⟩ := worked_of_step h
    exact chainSafe_work hs hok hw
  | finish p =>
    simp only [Arq.step] at h
    split at h
    next job ret hp =>
      cases Option.some.inj h
      exact chainSafe_slot hs hp (Or.inl rfl) (fun id hid => (List.mem_cons.mp hid).symm)
    next => cases h
  | interrupt p =>
    simp only [Arq.step] at h
    split at h
    next job ret hp =>
      cases Option.some.inj h
      exact chainSafe_slot hs hp (Or.inr rfl) (fun id hid => Or.inl hid)
    next => cases h
  | expire id =>
    cases Option.some.inj h
    exact chainSafe_expire hs

end Steps

/-- No batch job of the action has been enqueued yet. -/
structure Arq.Fresh (x : Arq) : Prop extends x.sys.AtRest where
  unqueued : ∀ job : BatchJob, .batch job ∉ x.sys.world.queue
  unkept : x.results = []
  uncalled : x.enqueued = []

/-- However often token requests are denied and jobs delivered again, a pending batch whose
job the planner has enqueued has a job that is queued or running. -/
theorem rate_limiting_keeps_batches {env : Env} {actionId : String} {x₀ x : Arq}
    (start : x₀.Fresh)
    (h : Runs.Reaches (Arq.step env actionId) (Arq.Allowed env actionId) x₀ x) {i : Nat}
    {b : BulkActionBatch} (hb : x.sys.world.committed.batches i = some b)
    (pending : b.status = .pending)
    (enqueued : (BatchJob.mk i 0 1).jobId actionId ∈ x.enqueued) :
    ∃ job : BatchJob, job.index = i ∧
      (.batch job ∈ x.sys.world.queue ∨ ∃ p, (x.sys.procs p).executing = some job) := by
  have safe : ChainSafe env actionId x := by
    refine h.invariant chainSafe_step ⟨consistent_atRest start.toAtRest, ?_, ?_, ?_, ?_, ?_, ?_, ?_⟩
    · exact fun job hj => absurd hj (start.unqueued job)
    · intro p job hp
      rw [start.idle p] at hp
      cases hp
    · simp [start.unkept]
    · simp [start.uncalled]
    · intro p
      rw [start.idle p]
      trivial
    · rintro job (hres | ⟨p, job', ret, hp, _⟩)
      · simp [start.unkept] at hres
      · rw [start.idle p] at hp
        cases hp
    · simp [start.uncalled]
  obtain ⟨k, job, hi, _, hlink⟩ := safe.alive _ enqueued ⟨b, hb, pending⟩
  exact ⟨job, hi, hlink⟩

/-- The job is queued, or held by one of the first two workers. -/
def Sys.holdsJob (s : Sys) (job : BatchJob) : Bool :=
  s.world.queue.any (fun
    | .batch job' => job'.index = job.index && job'.deferrals = job.deferrals
    | .plan => false) ||
  [0, 1].any (fun p => (s.procs p).holding.any
    (fun job' => job'.index = job.index && job'.deferrals = job.deferrals))

/-- Two workers, before any result is kept. -/
def twoWorkers (x : Arq) : ArqLabel → Bool
  | .work l dropped => x.undisturbed "7" l && l.pid < 2 && x.results.isEmpty &&
    dropped == (x.sys.enqueues defaultEnv l).any x.sys.holdsJob
  | .interrupt p => p < 2
  | _ => false

theorem busy_iff_holdsJob {x : Arq} {job : BatchJob} {actionId : String}
    (idle : ∀ p, 2 ≤ p → x.sys.procs p = .idle) (hres : x.results = []) :
    x.Busy actionId (job.jobId actionId) ↔ x.sys.holdsJob job := by
  have same : ∀ job' : BatchJob, job'.jobId actionId = job.jobId actionId ↔
      job'.index = job.index ∧ job'.deferrals = job.deferrals :=
    fun job' => ⟨jobId_inj, fun h => BatchJob.Same.jobId h actionId⟩
  simp only [Arq.Busy, hres, List.not_mem_nil, or_false, same, Sys.holdsJob, Bool.or_eq_true]
  constructor
  · rintro (⟨job', hq, hj⟩ | ⟨p, job', hp, hj⟩)
    · exact Or.inl (List.any_eq_true.mpr ⟨_, hq, by simpa using hj⟩)
    · have hmem : p ∈ [0, 1] := by
        rcases p with _ | _ | p
        · simp
        · simp
        · rw [idle (p + 2) (Nat.le_add_left 2 p)] at hp
          cases hp
      exact Or.inr (List.any_eq_true.mpr ⟨p, hmem, by simpa [hp] using hj⟩)
  · rintro (hq | hp)
    · obtain ⟨job', hq, hj⟩ := List.any_eq_true.mp hq
      cases job' with
      | plan => cases hj
      | batch job' => exact Or.inl ⟨job', hq, by simpa using hj⟩
    · obtain ⟨p, _, hj⟩ := List.any_eq_true.mp hp
      cases hp : (x.sys.procs p).holding with
      | none => simp [hp] at hj
      | some job' => exact Or.inr ⟨p, job', hp, by simpa [hp] using hj⟩

/-- The job of contact 5 is denied, dies after it has enqueued its successor, and is denied
again when it is redelivered: arq drops the second call for the successor. -/
def deniedTwice : List ArqLabel :=
  (planContact ++ .deliver 1 contactsJob :: attemptDenied 1).map (fun l => .work l false) ++
    [.interrupt 1, .work (.redeliver 1) false] ++
    (attemptDenied 1).dropLast.map (fun l => .work l false) ++ [.work (.run 1 {}) true]

theorem rate_limiting_keeps_batches_redelivered :
    ∃ x b, Runs.Reaches (Arq.step defaultEnv "7") (Arq.Allowed defaultEnv "7")
      ⟨submittedContacts, [], []⟩ x ∧ x.sys.world.committed.batches 0 = some b ∧
      b.status = .pending ∧ ∃ job : BatchJob, job.index = 0 ∧
        (.batch job ∈ x.sys.world.queue ∨ ∃ p, (x.sys.procs p).executing = some job) := by
  have start : Arq.Fresh ⟨submittedContacts, [], []⟩ :=
    ⟨Tables.sys_atRest _ _, fun job hj => Job.noConfusion (List.mem_singleton.mp hj), rfl, rfl⟩
  obtain ⟨x, hx, hrow, henq⟩ : ∃ x, Runs.checkedSteps (Arq.step defaultEnv "7") twoWorkers
      ⟨submittedContacts, [], []⟩ deniedTwice = some x ∧
      (x.sys.world.committed.batches 0).map BulkActionBatch.status = some .pending ∧
      (BatchJob.mk 0 0 1).jobId "7" ∈ x.enqueued :=
    ⟨_, rfl, rfl, List.mem_cons_self⟩
  obtain ⟨b, hb, hst⟩ := Option.map_eq_some_iff.mp hrow
  have hr : Runs.Reaches (Arq.step defaultEnv "7") (Arq.Allowed defaultEnv "7")
      ⟨submittedContacts, [], []⟩ x := by
    refine Runs.reaches_of_checked (P := fun x => ∀ p, 2 ≤ p → x.sys.procs p = .idle) ?_ ?_
      (fun _ _ => rfl) hx
    · intro x l idle hc
      cases l with
      | work l dropped =>
        simp only [twoWorkers, Bool.and_eq_true, beq_iff_eq, List.isEmpty_iff] at hc
        obtain ⟨⟨⟨hund, _⟩, hres⟩, hdrop⟩ := hc
        refine ⟨hund, ?_⟩
        rw [hdrop]
        cases henq : x.sys.enqueues defaultEnv l with
        | none => simp
        | some job => simp [busy_iff_holdsJob idle hres]
      | _ => trivial
    · intro x x' l idle hc h p hp
      cases l with
      | work l dropped =>
        simp only [twoWorkers, Bool.and_eq_true, decide_eq_true_eq] at hc
        obtain ⟨s, hw⟩ := worked_of_step h
        rw [hw.procs, step_procs_ne hw.step (ne_of_gt (hc.1.1.2.trans_le hp))]
        exact idle p hp
      | interrupt q =>
        simp only [twoWorkers, decide_eq_true_eq] at hc
        simp only [Arq.step] at h
        split at h
        · cases Option.some.inj h
          rw [set_procs_ne _ _ _ (ne_of_gt (hc.trans_le hp))]
          exact idle p hp
        · cases h
      | finish q => cases hc
      | expire id => cases hc
  exact ⟨x, b, hr, hb, hst, rate_limiting_keeps_batches start hr hb hst henq⟩

end BulkActions
