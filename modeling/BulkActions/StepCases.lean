import BulkActions.System
import BulkActions.StatementFacts

namespace BulkActions

/-- At the one point where an exception does not reach the handler. -/
def Proc.publishing : Proc → Bool
  | .batch _ (.publish _ _ _) => true
  | _ => false

/-- Everything one step can do, guards included. -/
inductive Happens (env : Env) (s : Sys) : Label → Sys → Prop where
  | deliver {p : Pid} {job : Job} : s.procs p = .idle → job ∈ s.world.queue →
      Happens env s (.deliver p job)
        (s.set { s.world with queue := s.world.queue.erase job } p job.proc)
  | duplicate {p : Pid} {job : Job} : s.procs p = .idle →
      Happens env s (.duplicate p job) (s.set s.world p job.proc)
  | redeliver {p : Pid} {job : Job} : s.procs p = .lost job →
      Happens env s (.redeliver p) (s.set s.world p job.again.proc)
  | cancel {p : Pid} : s.procs p = .idle →
      Happens env s (.cancel p) (s.set s.world p (.cancel .loadAction))
  | run {p : Pid} {ext : External} {w : World} {reply : Reply} {next : Proc} :
      (s.procs p).running → s.world.exec p ext.now ((s.procs p).stmt env) = some (w, reply) →
      (s.procs p).resume env ext reply = .ok next →
      Happens env s (.run p ext) (s.set w p next)
  | fail {p : Pid} {ext : External} {w : World} {reply : Reply} {error : String} :
      (s.procs p).running → s.world.exec p ext.now ((s.procs p).stmt env) = some (w, reply) →
      (s.procs p).resume env ext reply = .error error →
      Happens env s (.run p ext) (s.set (w.rollback p) p ((s.procs p).handler env error))
  | raise {p : Pid} {error : String} : (s.procs p).running → ¬ (s.procs p).publishing →
      Happens env s (.raise p error)
        (s.set (s.world.rollback p) p ((s.procs p).handler env error))
  | swallow {p : Pid} {job : BatchJob} {n : Nat} {r : BatchResult} {payload : ProgressPayload}
      {error : String} : s.procs p = .batch job (.publish n r payload) →
      Happens env s (.raise p error)
        (s.set s.world p (.batch job (.finalizeCommit (.batchDone n r))))
  | crash {p : Pid} : (s.procs p).running →
      Happens env s (.crash p) (s.set (s.world.rollback p) p (s.procs p).killed)

theorem raised_eq (env : Env) (s : Sys) (w : World) (p : Pid) (error : String) :
    (¬ (s.procs p).publishing ∧
      s.raised env w p error = s.set (w.rollback p) p ((s.procs p).handler env error)) ∨
    ∃ job n r payload, s.procs p = .batch job (.publish n r payload) ∧
      s.raised env w p error = s.set w p (.batch job (.finalizeCommit (.batchDone n r))) := by
  unfold Sys.raised
  split
  next job n r payload hp => exact Or.inr ⟨job, n, r, payload, hp, rfl⟩
  next proc hp =>
    refine Or.inl ⟨?_, rfl⟩
    unfold Proc.publishing
    split
    next job n r payload he => exact absurd he (hp job n r payload)
    next => simp

/-- An exception interrupts a job, outside the `try` block or with tries left, or else makes it
mark its batch failed. -/
theorem handler_batch (env : Env) (error : String) (job : BatchJob) (pc : BatchPc) :
    ((Proc.batch job pc).handler env error = .lost (.batch job) ∧
      (pc.tryCount.isSome → job.jobTry < env.settings.jobMaxTries)) ∨
    ∃ n, pc.tryCount = some n ∧ env.settings.jobMaxTries ≤ job.jobTry ∧
      (Proc.batch job pc).handler env error = .batch job (.markBatch n error) := by
  simp only [Proc.handler, BatchPc.handler]
  cases pc.tryCount with
  | none => exact Or.inl ⟨rfl, by simp⟩
  | some n =>
    by_cases hlt : job.jobTry < env.settings.jobMaxTries
    · exact Or.inl ⟨by simp [hlt], fun _ => hlt⟩
    · exact Or.inr ⟨n, rfl, not_lt.mp hlt, by simp [hlt]⟩

theorem start_eq_some {s s' : Sys} {p : Pid} {proc : Proc} (h : s.start p proc = some s') :
    s.procs p = .idle ∧ s' = s.set s.world p proc := by
  unfold Sys.start at h
  split at h
  next hp =>
    cases Option.some.inj h
    exact ⟨hp, rfl⟩
  next => simp at h

theorem run_happens {env : Env} {s s' : Sys} {p : Pid} {ext : External}
    (hr : (s.procs p).running) (h : s.run env p ext = some s') :
    Happens env s (.run p ext) s' := by
  unfold Sys.run at h
  split at h
  next => simp at h
  next w reply he =>
    split at h
    next next hn =>
      cases Option.some.inj h
      exact .run hr he hn
    next error hn =>
      cases Option.some.inj h
      rcases raised_eq env s w p error with ⟨_, heq⟩ | ⟨job, n, r, payload, hp, _⟩
      · rw [heq]
        exact .fail hr he hn
      · simp [hp, Proc.resume, BatchPc.resume, Except.map] at hn

theorem step_happens {env : Env} {s s' : Sys} {l : Label} (h : s.step env l = some s') :
    Happens env s l s' := by
  cases l with
  | deliver p job =>
    simp only [Sys.step] at h
    split at h
    next hm =>
      obtain ⟨hp, rfl⟩ := start_eq_some h
      exact .deliver hp hm
    next => simp at h
  | duplicate p job =>
    obtain ⟨hp, rfl⟩ := start_eq_some h
    exact .duplicate hp
  | redeliver p =>
    simp only [Sys.step] at h
    split at h
    next job hp =>
      cases Option.some.inj h
      exact .redeliver hp
    next => simp at h
  | cancel p =>
    obtain ⟨hp, rfl⟩ := start_eq_some h
    exact .cancel hp
  | run p ext =>
    simp only [Sys.step] at h
    split at h
    next hr => exact run_happens hr h
    next => simp at h
  | raise p error =>
    simp only [Sys.step] at h
    split at h
    next hr =>
      cases Option.some.inj h
      rcases raised_eq env s s.world p error with ⟨hpub, heq⟩ | ⟨job, n, r, payload, hp, heq⟩
      · rw [heq]
        exact .raise hr hpub
      · rw [heq]
        exact .swallow hp
    next => simp at h
  | crash p =>
    simp only [Sys.step] at h
    split at h
    next hr =>
      cases Option.some.inj h
      exact .crash hr
    next => simp at h

theorem batch_resume_ok {env : Env} {job : BatchJob} {pc : BatchPc} {ext : External}
    {reply : Reply} {next : Proc} (h : (Proc.batch job pc).resume env ext reply = .ok next) :
    ∃ pc', pc.resume env.text ext reply = .ok pc' ∧ next = .batch job pc' := by
  cases hr : pc.resume env.text ext reply with
  | error e => simp [Proc.resume, hr, Except.map] at h
  | ok pc' => exact ⟨pc', rfl, by simpa [Proc.resume, hr, Except.map] using h.symm⟩

theorem plan_resume_ok {env : Env} {pc : PlanPc} {ext : External} {reply : Reply} {next : Proc}
    (h : (Proc.plan pc).resume env ext reply = .ok next) :
    ∃ pc', pc.resume ext reply = .ok pc' ∧ next = .plan pc' := by
  cases hr : pc.resume ext reply with
  | error e => simp [Proc.resume, hr, Except.map] at h
  | ok pc' => exact ⟨pc', rfl, by simpa [Proc.resume, hr, Except.map] using h.symm⟩

@[simp] theorem set_world (s : Sys) (w : World) (p : Pid) (proc : Proc) :
    (s.set w p proc).world = w := rfl

@[simp] theorem set_procs_self (s : Sys) (w : World) (p : Pid) (proc : Proc) :
    (s.set w p proc).procs p = proc := by
  simp [Sys.set]

theorem set_procs_ne (s : Sys) (w : World) {p q : Pid} (proc : Proc) (h : q ≠ p) :
    (s.set w p proc).procs q = s.procs q := by
  simp [Sys.set, h]

/-- A fact about every process, once one of them has moved. -/
theorem forall_procs_set {s : Sys} {w : World} {p : Pid} {proc : Proc} {P : Pid → Proc → Prop}
    (hp : P p proc) (hs : ∀ q, q ≠ p → P q (s.procs q)) : ∀ q, P q ((s.set w p proc).procs q) := by
  intro q
  by_cases hq : q = p
  · subst hq
    rwa [set_procs_self]
  · rw [set_procs_ne _ _ _ hq]
    exact hs q hq

/-- The worker or request a step belongs to. -/
def Label.pid : Label → Pid
  | .deliver p _ => p
  | .duplicate p _ => p
  | .redeliver p => p
  | .cancel p => p
  | .run p _ => p
  | .raise p _ => p
  | .crash p => p

/-- A worker takes a job off the queue, or a task takes its next step. -/
def Label.ordinary : Label → Bool
  | .deliver _ _ => true
  | .run _ _ => true
  | _ => false

theorem step_procs_ne {env : Env} {s s' : Sys} {l : Label} (h : s.step env l = some s') {q : Pid}
    (hq : q ≠ l.pid) : s'.procs q = s.procs q := by
  cases step_happens h <;> exact set_procs_ne _ _ _ hq

/-- All work is done by one worker. -/
def Sys.Alone (p : Pid) (s : Sys) : Prop := ∀ q, q ≠ p → s.procs q = .idle

theorem alone_step {env : Env} {p : Pid} {s s' : Sys} {l : Label} (hs : s.Alone p)
    (hl : l.pid = p) (h : s.step env l = some s') : s'.Alone p := by
  intro q hq
  rw [step_procs_ne h (hl ▸ hq)]
  exact hs q hq

@[simp] theorem rollback_committed (w : World) (p : Pid) :
    (w.rollback p).committed = w.committed := rfl

@[simp] theorem rollback_writes_self (w : World) (p : Pid) : (w.rollback p).db.writes p = [] :=
  ReadCommitted.Store.rollback_writes_self

theorem rollback_writes_ne (w : World) {p q : Pid} (h : q ≠ p) :
    (w.rollback p).db.writes q = w.db.writes q :=
  ReadCommitted.Store.rollback_writes_ne h

/-- A step touches the write set of its own transaction only. -/
theorem step_writes_ne {env : Env} {s s' : Sys} {l : Label} (h : s.step env l = some s') {q : Pid}
    (hq : q ≠ l.pid) : s'.world.db.writes q = s.world.db.writes q := by
  cases step_happens h with
  | run _ he _ => exact exec_writes_ne he hq
  | fail _ he _ => exact (rollback_writes_ne _ hq).trans (exec_writes_ne he hq)
  | raise _ _ => exact rollback_writes_ne _ hq
  | crash _ => exact rollback_writes_ne _ hq
  | _ => rfl

/-- Only a commit shows others what a transaction has written. -/
theorem step_committed {env : Env} {s s' : Sys} {l : Label} (h : s.step env l = some s') :
    ((∀ p ext, l = .run p ext → (s.procs p).stmt env ≠ .commit) ∧
        s'.world.committed = s.world.committed) ∨
      ∃ p ext, l = .run p ext ∧ (s.procs p).stmt env = .commit ∧ s'.world.committed =
        ReadCommitted.replay Write.apply (s.world.db.writes p) s.world.committed := by
  have run : ∀ {p : Pid} {ext : External} {w reply},
      s.world.exec p ext.now ((s.procs p).stmt env) = some (w, reply) →
      ((∀ q ext', Label.run p ext = .run q ext' → (s.procs q).stmt env ≠ .commit) ∧
          w.committed = s.world.committed) ∨
        ∃ q ext', Label.run p ext = .run q ext' ∧ (s.procs q).stmt env = .commit ∧
          w.committed =
            ReadCommitted.replay Write.apply (s.world.db.writes q) s.world.committed := by
    intro p ext w reply he
    rcases exec_committed he with ⟨hw, hst⟩ | ⟨hst, hw⟩
    · refine Or.inl ⟨fun q ext' heq => ?_, hw⟩
      cases heq
      exact hst
    · exact Or.inr ⟨p, ext, rfl, hst, hw⟩
  cases step_happens h with
  | run _ he _ => exact run he
  | fail _ he _ =>
    have hw := run he
    exact hw
  | _ => exact Or.inl ⟨by simp, rfl⟩

/-- Messages are only added to the channel. -/
theorem step_published {env : Env} {s s' : Sys} {l : Label} (h : s.step env l = some s') :
    ∃ extra, s'.world.published = s.world.published ++ extra := by
  have run : ∀ {p now stmt w reply}, s.world.exec p now stmt = some (w, reply) →
      ∃ extra, w.published = s.world.published ++ extra := by
    intro p now stmt w reply he
    rcases exec_published he with hw | ⟨payload, _, hw⟩
    · exact ⟨[], by simp [hw]⟩
    · exact ⟨[payload], hw⟩
  cases step_happens h with
  | run _ he _ => exact run he
  | fail _ he _ =>
    have hw := run he
    exact hw
  | _ => exact ⟨[], (List.append_nil _).symm⟩

theorem step_owned {env : Env} {s s' : Sys} {l : Label} (ho : s.world.db.Owned Write.row)
    (h : s.step env l = some s') : s'.world.db.Owned Write.row := by
  cases step_happens h with
  | run _ he _ => exact exec_owned ho he
  | fail _ he _ => exact ReadCommitted.Store.owned_rollback (exec_owned ho he)
  | raise _ _ => exact ReadCommitted.Store.owned_rollback ho
  | crash _ => exact ReadCommitted.Store.owned_rollback ho
  | _ => exact ho

theorem exec_rateLimit {w w' : World} {p : Pid} {now : Timestamp} {st : Stmt} {reply : Reply}
    (h : w.exec p now st = some (w', reply)) : w'.rateLimitPerMinute = w.rateLimitPerMinute := by
  cases st with
  | updateAction u => rcases exec_updateAction h with ⟨_, rfl, _⟩ | ⟨a, _, _, _, rfl, _⟩ <;> rfl
  | updateBatch i u => rcases exec_updateBatch h with ⟨_, rfl⟩ | ⟨b, _, _, _, rfl⟩ <;> rfl
  | insertBatches rows =>
    obtain ⟨fresh, _, _, rfl⟩ := exec_insertBatches h
    exact insertAll_proj (f := World.rateLimitPerMinute) (fun _ _ => rfl) w fresh
  | _ => cases Option.some.inj h; rfl

/-- The limit of the account is changed by no task. -/
theorem step_rateLimit {env : Env} {s s' : Sys} {l : Label} (h : s.step env l = some s') :
    s'.world.rateLimitPerMinute = s.world.rateLimitPerMinute := by
  cases step_happens h with
  | run _ he _ => exact exec_rateLimit he
  | fail _ he _ =>
    have hsame := exec_rateLimit he
    exact hsame
  | _ => rfl

end BulkActions
