import BulkActions.TaskWrites

namespace BulkActions

open ReadCommitted

theorem LogWrites.row_none {i : Nat} {outcomes : List EntityOutcome} {ws : List Write}
    (h : LogWrites i outcomes ws) {v : Write} (hv : v ∈ ws) : v.row = none := by
  rcases h with ⟨_, rfl⟩ | ⟨seq, rfl⟩
  · simp at hv
  · have he : v = _ := List.mem_singleton.mp hv
    rw [he]
    rfl

/-- Only a delivery of the batch and the planner write a batch row. -/
theorem wrote_batch_row {env : Env} {proc : Proc} {ws : List Write} {v : Write} {i : Nat}
    (hw : proc.Wrote env ws) (hv : v ∈ ws) (hr : v.row = some (.batch i)) :
    (∃ job pc, proc = .batch job pc ∧ job.index = i) ∨ ∃ pc, proc = .plan pc := by
  cases proc with
  | idle => simp [show ws = [] from hw] at hv
  | lost job => simp [show ws = [] from hw] at hv
  | plan pc => exact Or.inr ⟨pc, rfl⟩
  | cancel pc =>
    cases pc with
    | commit =>
      obtain ⟨now, rfl⟩ := hw
      cases List.mem_singleton.mp hv
      cases hr
    | _ => simp [show ws = [] from hw] at hv
  | batch job pc =>
    refine Or.inl ⟨job, pc, rfl, ?_⟩
    have logged : ∀ {outcomes ls}, LogWrites job.index outcomes ls → v ∉ ls := by
      intro outcomes ls hls hv
      simp [hls.row_none hv] at hr
    have finalized : FinalizeWrites ws → job.index = i := by
      rintro (rfl | ⟨k, now, rfl⟩)
      · cases hv
      · cases List.mem_singleton.mp hv
        cases hr
    cases pc with
    | cancelCommit =>
      obtain ⟨now, rfl⟩ := hw
      cases List.mem_singleton.mp hv
      cases hr
      rfl
    | attemptCommit k =>
      rcases hw with rfl | ⟨now, rfl⟩
      · cases hv
      · cases List.mem_singleton.mp hv
        cases hr
        rfl
    | updateBatch k r => exact absurd hv (logged hw)
    | recordCompletion k r =>
      obtain ⟨ls, now, hls, rfl⟩ := hw
      rcases List.mem_append.mp hv with hv | hv
      · exact absurd hv (logged hls)
      · cases List.mem_singleton.mp hv
        cases hr
        rfl
    | workCommit k r =>
      obtain ⟨ls, now, now', hls, rfl⟩ := hw
      rcases List.mem_append.mp hv with hv | hv
      · exact absurd hv (logged hls)
      · rcases List.mem_cons.mp hv with rfl | hv
        · cases hr
          rfl
        · cases List.mem_singleton.mp hv
          cases hr
    | refresh k r => exact finalized hw
    | publish k r payload => exact finalized hw
    | finalizeCommit after => exact finalized hw
    | markOutcomes k error =>
      obtain ⟨now, rfl⟩ := hw
      cases List.mem_singleton.mp hv
      cases hr
      rfl
    | markRecord k error =>
      obtain ⟨ls, now, hls, rfl⟩ := hw
      rcases List.mem_cons.mp hv with rfl | hv
      · cases hr
        rfl
      · exact absurd hv (logged hls)
    | markCommit k error =>
      obtain ⟨ls, now, now', hls, rfl⟩ := hw
      rcases List.mem_append.mp hv with hv | hv
      · rcases List.mem_cons.mp hv with rfl | hv
        · cases hr
          rfl
        · exact absurd hv (logged hls)
      · cases List.mem_singleton.mp hv
        cases hr
    | _ => simp [show ws = [] from hw] at hv

/-- A transaction updates the action row once, except for the planner's last one, which
writes the totals before the status. -/
theorem wrote_updateAction {env : Env} {proc : Proc} {ws : List Write} {u : ActionUpdate}
    (hw : proc.Wrote env ws) (h : proc.stmt env = .updateAction u) :
    (∀ v ∈ ws, v.row ≠ some .action) ∨
    ∃ e b now, ws = [.action (.setTotals e b) now] ∧ (u = .closeEmpty ∨ u = .markStarted) := by
  cases proc with
  | batch job pc =>
    left
    cases pc <;> simp only [Proc.stmt, BatchPc.stmt, writeOutcomes, reduceCtorEq] at h
    case recordCompletion n r =>
      obtain ⟨ls, now, hls, rfl⟩ := hw
      intro v hv
      rcases List.mem_append.mp hv with hv | hv
      · simp [hls.row_none hv]
      · have he : v = _ := List.mem_singleton.mp hv
        simp [he, Write.row]
    case markRecord n error =>
      obtain ⟨ls, now, hls, rfl⟩ := hw
      intro v hv
      rcases List.mem_cons.mp hv with rfl | hv
      · simp [Write.row]
      · simp [hls.row_none hv]
    case finalizeUpdate after status =>
      have hws : ws = [] := hw
      simp [hws]
    all_goals (split at h <;> simp at h)
  | plan pc =>
    cases pc with
    | closeOrStart e b =>
      obtain ⟨now, rfl⟩ := hw
      refine Or.inr ⟨e, b, now, rfl, ?_⟩
      have hu : (if b = 0 then ActionUpdate.closeEmpty else .markStarted) = u := by
        simpa [Proc.stmt, PlanPc.stmt] using h
      rw [← hu]
      split_ifs <;> simp
    | setPlanning a | writeTotals e b | failUpdate error =>
      have hws : ws = [] := hw
      simp [hws]
    | enqueueJobs loop rows last => cases rows <;> simp [Proc.stmt, PlanPc.stmt] at h
    | _ => simp [Proc.stmt, PlanPc.stmt] at h
  | cancel pc =>
    cases pc with
    | update =>
      have hws : ws = [] := hw
      simp [hws]
    | _ => simp [Proc.stmt, CancelPc.stmt] at h
  | idle => simp [Proc.stmt] at h
  | lost job => simp [Proc.stmt] at h

theorem wrote_updateBatch {env : Env} {proc : Proc} {ws : List Write} {i : Nat} {u : BatchUpdate}
    (hw : proc.Wrote env ws) (h : proc.stmt env = .updateBatch i u) :
    ∀ v ∈ ws, v.row ≠ some (.batch i) := by
  cases proc with
  | batch job pc =>
    cases pc <;> simp only [Proc.stmt, BatchPc.stmt, writeOutcomes, reduceCtorEq] at h
    case updateBatch n r =>
      intro v hv
      simp [LogWrites.row_none hw hv]
    case cancelBatch | recordAttempt | markBatch =>
      have hws : ws = [] := hw
      simp [hws]
    all_goals (split at h <;> simp at h)
  | plan pc =>
    cases pc with
    | enqueueJobs loop rows last => cases rows <;> simp [Proc.stmt, PlanPc.stmt] at h
    | _ => simp [Proc.stmt, PlanPc.stmt] at h
  | cancel pc => cases pc <;> simp [Proc.stmt, CancelPc.stmt] at h
  | idle => simp [Proc.stmt] at h
  | lost job => simp [Proc.stmt] at h

theorem wrote_insertBatches {env : Env} {proc : Proc} {ws : List Write}
    {rows : List BulkActionBatch} (hw : proc.Wrote env ws)
    (h : proc.stmt env = .insertBatches rows) : ws = [] := by
  cases proc with
  | batch job pc =>
    cases pc <;> simp [Proc.stmt, BatchPc.stmt, writeOutcomes] at h <;> split at h <;> simp at h
  | plan pc =>
    cases pc with
    | insertRows loop last => exact hw
    | enqueueJobs loop rows last => cases rows <;> simp [Proc.stmt, PlanPc.stmt] at h
    | _ => simp [Proc.stmt, PlanPc.stmt] at h
  | cancel pc => cases pc <;> simp [Proc.stmt, CancelPc.stmt] at h
  | idle => simp [Proc.stmt] at h
  | lost job => simp [Proc.stmt] at h

/-- The row an UPDATE finds is, as far as its WHERE clause can tell, the committed one. -/
theorem update_applies_committed {env : Env} {proc : Proc} {w : World} {p : Pid}
    {u : ActionUpdate} {a : BulkAction} (hw : proc.Wrote env (w.db.writes p))
    (h : proc.stmt env = .updateAction u) (hv : (w.view p).action = some a) (ha : u.applies a)
    (now : Timestamp) : (Write.action u now).Applies w.committed := by
  intro b hb
  rcases wrote_updateAction hw h with hnone | ⟨e, n, at', hws, hu⟩
  · have hsame : (w.view p).action = w.committed.action := replay_action_of_none hnone
    rw [hsame, hb] at hv
    cases Option.some.inj hv
    exact ha
  · have hset : (w.view p).action = some ((ActionUpdate.setTotals e n).set at' b) := by
      simp only [World.view, Store.view, hws, replay_cons, replay_nil, Write.apply]
      have hc : w.db.committed.action = some b := hb
      simp [hc]
    rw [hset] at hv
    cases Option.some.inj hv
    rcases hu with rfl | rfl <;> exact ha

theorem exec_applied {env : Env} {proc : Proc} {w w' : World} {p : Pid} {now : Timestamp}
    {reply : Reply} (hw : proc.Wrote env (w.db.writes p))
    (ha : ∀ v ∈ w.db.writes p, v.Applies w.committed) (hst : proc.stmt env ≠ .commit)
    (h : w.exec p now (proc.stmt env) = some (w', reply)) :
    ∀ v ∈ w'.db.writes p, v.Applies w.committed := by
  have push : ∀ {v : Write}, v.Applies w.committed →
      ∀ x ∈ w.db.writes p ++ [v], x.Applies w.committed := by
    intro v hv x hx
    rcases List.mem_append.mp hx with hx | hx
    · exact ha x hx
    · cases List.mem_singleton.mp hx
      exact hv
  cases he : proc.stmt env with
  | updateAction u =>
    rw [he] at h
    rcases exec_updateAction h with ⟨_, rfl, _⟩ | ⟨a, hva, happ, _, rfl, _⟩
    · exact ha
    · rw [write_writes_self]
      exact push (update_applies_committed hw he hva happ now)
  | updateBatch i u =>
    rw [he] at h
    rcases exec_updateBatch h with ⟨_, rfl⟩ | ⟨b, hvb, happ, _, rfl⟩
    · exact ha
    · rw [write_writes_self]
      apply push
      intro b' hb'
      have hsame : (w.view p).batches i = w.committed.batches i :=
        replay_batch_of_none (wrote_updateBatch hw he)
      rw [hsame, hb'] at hvb
      cases Option.some.inj hvb
      exact happ
  | insertBatches rows =>
    rw [he] at h
    obtain ⟨fresh, rfl, _, rfl⟩ := exec_insertBatches h
    have hws := wrote_insertBatches hw he
    rw [insertAll_writes_self, hws]
    intro v hv
    obtain ⟨row, hrow, rfl⟩ := List.mem_map.mp (List.nil_append _ ▸ hv)
    have hnone := (List.mem_filter.mp hrow).2
    rw [view_eq_committed hws] at hnone
    exact Option.isNone_iff_eq_none.mp hnone
  | insertLogs i outcomes =>
    rw [he] at h
    cases Option.some.inj h
    let rows : Write := .logs (World.logRows w.logSeq i outcomes)
    have hself : (w.write p rows).db.writes p = w.db.writes p ++ [rows] :=
      write_writes_self w p rows
    have hrows : rows.Applies w.committed := trivial
    intro v hv
    exact push hrows v (hself ▸ hv)
  | commit => exact absurd he hst
  | _ =>
    rw [he] at h
    cases Option.some.inj h
    exact ha

/-- The handler of an exception starts from an empty transaction. -/
theorem handler_wrote (env : Env) (error : String) (proc : Proc) :
    (proc.handler env error).Wrote env [] := by
  cases proc with
  | plan pc => cases pc <;> rfl
  | batch job pc =>
    rcases handler_batch env error job pc with ⟨hl, _⟩ | ⟨n, _, _, hm⟩
    · rw [hl]
      rfl
    · rw [hm]
      rfl
  | _ => rfl

theorem tryCount_present {job : BatchJob} {pc : BatchPc} {c : Tables} {n : Nat}
    (hp : pc.Present job c) (h : pc.tryCount = some n) :
    c.action.isSome ∧ (c.batches job.index).isSome := by
  cases pc with
  | finalizeUpdate after status => exact ⟨hp.1, hp.2.1⟩
  | loadAction | loadBatch _ | done _ => simp [BatchPc.tryCount] at h
  | _ => exact hp

theorem handler_present {env : Env} {error : String} {proc : Proc} {c : Tables}
    (hp : proc.Present c) : (proc.handler env error).Present c := by
  cases proc with
  | plan pc => cases pc <;> first | exact hp | trivial
  | batch job pc =>
    rcases handler_batch env error job pc with ⟨hl, _⟩ | ⟨n, hn, _, hm⟩
    · rw [hl]
      trivial
    · rw [hm]
      exact tryCount_present hp hn
  | _ => trivial

theorem proc_run {env : Env} {proc next : Proc} {w w' : World} {p : Pid} {ext : External}
    {reply : Reply} (hw : proc.Wrote env (w.db.writes p)) (hp : proc.Present w.committed)
    (h : w.exec p ext.now (proc.stmt env) = some (w', reply))
    (hn : proc.resume env ext reply = .ok next) :
    next.Wrote env (w'.db.writes p) ∧ next.Present w'.committed := by
  cases proc with
  | plan pc =>
    obtain ⟨pc', hr, rfl⟩ := plan_resume_ok hn
    exact ⟨plan_run_wrote hw hp h hr, plan_run_present hp h hr⟩
  | batch job pc =>
    obtain ⟨pc', hr, rfl⟩ := batch_resume_ok hn
    exact ⟨batch_run_wrote hw hp h hr, batch_run_present hw hp h hr⟩
  | cancel pc =>
    cases Except.ok.inj hn
    exact cancel_run hw hp h
  | idle =>
    cases Except.ok.inj hn
    cases exec_skip h
    exact ⟨hw, hp⟩
  | lost job =>
    cases Except.ok.inj hn
    cases exec_skip h
    exact ⟨hw, hp⟩

/-- The task raises on its own at three points: the planner re-raises after closing the
action, the rate limiter refuses an oversized batch, and a batch row is missing. -/
theorem resume_error {env : Env} {proc : Proc} {ext : External} {reply : Reply} {error : String}
    (h : proc.resume env ext reply = .error error) :
    (∃ e, proc = .plan (.failCommit e)) ∨ (∃ job limit n, proc = .batch job (.rateLimit limit n)) ∨
    (∃ job n a, proc = .batch job (.reloadBatch n a) ∧ reply.batch = none) := by
  cases proc with
  | plan pc =>
    cases pc with
    | failCommit e => exact Or.inl ⟨e, rfl⟩
    | loadAction =>
      cases ha : reply.action <;> simp [Proc.resume, PlanPc.resume, ha, Except.map] at h
    | enqueueJobs loop rows last =>
      cases rows <;> simp [Proc.resume, PlanPc.resume, Except.map] at h
    | _ => simp [Proc.resume, PlanPc.resume, Except.map] at h
  | batch job pc =>
    cases pc with
    | rateLimit limit n => exact Or.inr (Or.inl ⟨job, limit, n, rfl⟩)
    | reloadBatch n a =>
      cases hb : reply.batch with
      | none => exact Or.inr (Or.inr ⟨job, n, a, rfl, rfl⟩)
      | some b => simp [Proc.resume, BatchPc.resume, hb, Except.map] at h
    | loadAction | reloadAction _ | finalizeSelect _ | refresh _ _ =>
      cases ha : reply.action <;> simp [Proc.resume, BatchPc.resume, ha, Except.map] at h
    | finalizeCommit after => cases after <;> simp [Proc.resume, BatchPc.resume, Except.map] at h
    | _ => simp [Proc.resume, BatchPc.resume, Except.map] at h
  | cancel pc => simp [Proc.resume] at h
  | idle => simp [Proc.resume] at h
  | lost job => simp [Proc.resume] at h

theorem fail_writes {env : Env} {proc : Proc} {w w' : World} {p : Pid} {ext : External}
    {reply : Reply} {error : String} (hw : proc.Wrote env (w.db.writes p))
    (h : w.exec p ext.now (proc.stmt env) = some (w', reply))
    (hn : proc.resume env ext reply = .error error) : w'.db.writes p = [] := by
  rcases resume_error hn with ⟨e, rfl⟩ | ⟨job, limit, n, rfl⟩ | ⟨job, n, a, rfl, _⟩
  · exact exec_commit_writes h
  · cases exec_skip h
    exact hw
  · obtain ⟨rfl, _⟩ := exec_selectBatch h
    exact hw

section

variable {env : Env} {s : Sys} {p : Pid}

/-- Replacing the state of one process whose transaction is empty, with the queue free to
change. -/
theorem consistent_set {w : World} {proc : Proc} (hs : Consistent env s)
    (hdb : w.db = s.world.db) (hw : proc.Wrote env (s.world.db.writes p))
    (hp : proc.Present s.world.committed) : Consistent env (s.set w p proc) where
  guarded := by rw [set_world, hdb]; exact hs.guarded
  wrote := by
    intro q
    rw [set_world, hdb]
    by_cases hq : q = p
    · subst hq
      rwa [set_procs_self]
    · rw [set_procs_ne s w proc hq]
      exact hs.wrote q
  present := by
    intro q
    have hc : w.committed = s.world.committed := by simp only [World.committed, hdb]
    rw [set_world, hc]
    by_cases hq : q = p
    · subst hq
      rwa [set_procs_self]
    · rw [set_procs_ne s w proc hq]
      exact hs.present q
  applied := by
    intro q
    have hc : w.committed = s.world.committed := by simp only [World.committed, hdb]
    rw [set_world, hc, hdb]
    exact hs.applied q

theorem consistent_rollback {proc : Proc} (hs : Consistent env s) (hw : proc.Wrote env [])
    (hp : proc.Present s.world.committed) :
    Consistent env (s.set (s.world.rollback p) p proc) where
  guarded := Store.guarded_rollback hs.guarded
  wrote := by
    intro q
    rw [set_world]
    by_cases hq : q = p
    · subst hq
      rwa [set_procs_self, rollback_writes_self]
    · rw [set_procs_ne s _ proc hq, rollback_writes_ne _ hq]
      exact hs.wrote q
  present := by
    intro q
    rw [set_world, rollback_committed]
    by_cases hq : q = p
    · subst hq
      rwa [set_procs_self]
    · rw [set_procs_ne s _ proc hq]
      exact hs.present q
  applied := by
    intro q
    rw [set_world, rollback_committed]
    by_cases hq : q = p
    · subst hq
      rw [rollback_writes_self]
      simp
    · rw [rollback_writes_ne _ hq]
      exact hs.applied q

theorem exec_applied_all {w : World} {now : Timestamp} {reply : Reply} (hs : Consistent env s)
    (h : s.world.exec p now ((s.procs p).stmt env) = some (w, reply)) (q : Pid) :
    ∀ v ∈ w.db.writes q, v.Applies w.committed := by
  rcases exec_committed h with ⟨hc, hst⟩ | ⟨hst, hc⟩
  · rw [hc]
    by_cases hq : q = p
    · subst hq
      exact exec_applied (hs.wrote q) (hs.applied q) hst h
    · rw [exec_writes_ne h hq]
      exact hs.applied q
  · rw [hc]
    by_cases hq : q = p
    · subst hq
      rw [hst] at h
      simp [exec_commit_writes h]
    · rw [exec_writes_ne h hq]
      exact fun v hv => applies_commit hs.guarded hv (hs.applied q v hv) (Ne.symm hq)

theorem consistent_exec {w : World} {proc : Proc} {now : Timestamp} {reply : Reply}
    (hs : Consistent env s)
    (h : s.world.exec p now ((s.procs p).stmt env) = some (w, reply))
    (hw : proc.Wrote env (w.db.writes p)) (hp : proc.Present w.committed) :
    Consistent env (s.set w p proc) where
  guarded := exec_guarded hs.guarded h
  wrote := by
    intro q
    rw [set_world]
    by_cases hq : q = p
    · subst hq
      rwa [set_procs_self]
    · rw [set_procs_ne s _ proc hq, exec_writes_ne h hq]
      exact hs.wrote q
  present := by
    intro q
    rw [set_world]
    by_cases hq : q = p
    · subst hq
      rwa [set_procs_self]
    · rw [set_procs_ne s _ proc hq]
      exact (hs.present q).mono (fun ha => exec_action_isSome h ▸ ha)
        (fun i hi => exec_batch_isSome h hi)
  applied := exec_applied_all hs h

theorem consistent_step {s' : Sys} {l : Label} (hs : Consistent env s)
    (h : s.step env l = some s') : Consistent env s' := by
  have empty : ∀ {q proc}, s.procs q = proc → (proc = .idle ∨ ∃ job, proc = .lost job) →
      s.world.db.writes q = [] := by
    intro q proc hq hproc
    have hw := hs.wrote q
    rcases hproc with rfl | ⟨job, rfl⟩ <;> (rw [hq] at hw; exact hw)
  have job_start : ∀ (job : Job), job.proc.Wrote env [] ∧ job.proc.Present s.world.committed := by
    intro job
    cases job <;> exact ⟨rfl, trivial⟩
  cases step_happens h with
  | @deliver p job hp _ =>
    exact consistent_set hs rfl (empty hp (Or.inl rfl) ▸ (job_start job).1) (job_start job).2
  | @duplicate p job hp =>
    exact consistent_set hs rfl (empty hp (Or.inl rfl) ▸ (job_start job).1) (job_start job).2
  | @redeliver p job hp =>
    exact consistent_set hs rfl (empty hp (Or.inr ⟨job, rfl⟩) ▸ (job_start job.again).1)
      (job_start job.again).2
  | @cancel p hp => exact consistent_set hs rfl (empty hp (Or.inl rfl)) trivial
  | @run p ext w reply next _ he hn =>
    obtain ⟨hw, hp⟩ := proc_run (hs.wrote p) (hs.present p) he hn
    exact consistent_exec hs he hw hp
  | @fail p ext w reply error _ he hn =>
    have hw := fail_writes (hs.wrote p) he hn
    have mid : Consistent env (s.set w p .idle) := consistent_exec hs he hw trivial
    have hp : ((s.procs p).handler env error).Present w.committed :=
      (handler_present (hs.present p)).mono (fun ha => exec_action_isSome he ▸ ha)
        (fun i hi => exec_batch_isSome he hi)
    have hr := consistent_rollback (p := p) mid (handler_wrote env error _) hp
    simpa [Sys.set] using hr
  | @raise p error _ _ =>
    exact consistent_rollback hs (handler_wrote env error _) (handler_present (hs.present p))
  | @swallow p job n r payload error hp =>
    have hw := hs.wrote p
    have hpr := hs.present p
    rw [hp] at hw hpr
    exact consistent_set hs rfl hw hpr
  | @crash p _ =>
    apply consistent_rollback hs
    · cases s.procs p <;> rfl
    · cases s.procs p <;> trivial

end

end BulkActions
