import BulkActions.BatchRows
import BulkActions.CrashRecovery

namespace BulkActions

def Job.ofBatch (i : Nat) : Job → Bool
  | .batch job => job.index = i
  | .plan => false

/-- A delivery of batch `i` that has not returned. -/
def Proc.live (i : Nat) : Proc → Bool
  | .batch _ (.done _) => false
  | .batch job _ => job.index = i
  | .lost (.batch job) => job.index = i
  | _ => false

/-- The points at which a delivery has not recorded its attempt. -/
def BatchPc.beforeAttempt : BatchPc → Bool
  | .loadAction => true
  | .loadBatch _ => true
  | .cancelBatch => true
  | .cancelCommit => true
  | .loadAccount _ => true
  | .rateLimit _ _ => true
  | .enqueueDeferred _ => true
  | .recordAttempt _ => true
  | .attemptCommit _ => true
  | _ => false

/-- The chain of jobs of batch `i`: each link is taken off the queue once, and redelivered
with one more try until the tries are used up. -/
def chained (env : Env) (i : Nat) (s : Sys) (l : Label) : Bool :=
  l.executes && match l, s.procs l.pid with
    | .deliver _ (.batch job), _ => job.index ≠ i || job.jobTry ≤ env.settings.jobMaxTries
    | .duplicate _ (.batch job), _ => job.index ≠ i
    | .redeliver _, .lost (.batch job) =>
      job.index ≠ i || job.jobTry < env.settings.jobMaxTries
    | _, _ => true

/-- A denial defers batch `i` only while none of its attempts has been recorded. -/
def deniedFresh (i : Nat) (s : Sys) (l : Label) : Bool :=
  match l, s.procs l.pid with
  | .run _ ext, .batch job (.rateLimit _ _) => job.index ≠ i || ext.decision.allowed ||
    (s.world.committed.batches i).all (fun b => b.attempts = 0)
  | _, _ => true

/-- At most `n` attempts have been recorded on the row. -/
def Tables.Attempts (c : Tables) (i n : Nat) : Prop :=
  ∀ b, c.batches i = some b → b.attempts ≤ n

/-- The attempts that a delivery of batch `i` accounts for: one per try, its own from the
moment it is recorded. -/
def BatchPc.Spent (c : Tables) (i jobTry : Nat) (pc : BatchPc) : Prop :=
  (pc.beforeAttempt → ∀ b, c.batches i = some b → b.attempts + 1 ≤ jobTry) ∧
    c.Attempts i jobTry ∧ ∀ ms, pc = .enqueueDeferred ms → c.Attempts i 0

def Proc.Spent (settings : Settings) (c : Tables) (i : Nat) : Proc → Prop
  | .batch job pc => job.index = i → job.jobTry ≤ settings.jobMaxTries ∧
    ((Proc.batch job pc).live i → pc.Spent c i job.jobTry)
  | .lost (.batch job) => job.index = i →
    job.jobTry ≤ settings.jobMaxTries ∧ c.Attempts i job.jobTry
  | _ => True

/-- One link of the chain is alive at a time, and the attempts fit its tries. -/
structure RetrySafe (env : Env) (i : Nat) (s : Sys) : Prop where
  consistent : Consistent env s
  runs : ∀ p, (s.procs p).runsBatch
  queued : s.world.queue.countP (Job.ofBatch i) ≤ 1
  fresh : ∀ job, .batch job ∈ s.world.queue → job.index = i →
    job.jobTry = 1 ∧ s.world.committed.Attempts i 0
  alone : ∀ p, (s.procs p).live i → s.world.queue.countP (Job.ofBatch i) = 0
  single : ∀ p q, (s.procs p).live i → (s.procs q).live i → p = q
  spent : ∀ p, (s.procs p).Spent env.settings s.world.committed i
  bounded : s.world.committed.Attempts i env.settings.jobMaxTries

theorem Tables.Attempts.mono {c : Tables} {i n m : Nat} (h : c.Attempts i n) (hle : n ≤ m) :
    c.Attempts i m :=
  fun b hb => (h b hb).trans hle

/-- The attempts on the row have not changed. -/
def SameAttempts (c c' : Tables) (i : Nat) : Prop :=
  ∀ b', c'.batches i = some b' → ∃ b, c.batches i = some b ∧ b'.attempts = b.attempts

theorem Tables.Attempts.same {c c' : Tables} {i n : Nat} (h : c.Attempts i n)
    (hsame : SameAttempts c c' i) : c'.Attempts i n := by
  intro b' hb'
  obtain ⟨b, hb, heq⟩ := hsame b' hb'
  exact heq ▸ h b hb

theorem BatchPc.Spent.same {c c' : Tables} {i jobTry : Nat} {pc : BatchPc}
    (h : pc.Spent c i jobTry) (hsame : SameAttempts c c' i) : pc.Spent c' i jobTry := by
  refine ⟨?_, h.2.1.same hsame, fun ms he => (h.2.2 ms he).same hsame⟩
  intro hpc b' hb'
  obtain ⟨b, hb, heq⟩ := hsame b' hb'
  exact heq ▸ h.1 hpc b hb

theorem Proc.Spent.same {settings : Settings} {c c' : Tables} {i : Nat} {proc : Proc}
    (h : proc.Spent settings c i) (hsame : proc.live i → SameAttempts c c' i) :
    proc.Spent settings c' i := by
  cases proc with
  | batch job pc =>
    intro hi
    obtain ⟨hmax, hspent⟩ := h hi
    exact ⟨hmax, fun hlive => (hspent hlive).same (hsame hlive)⟩
  | lost job =>
    cases job with
    | plan => trivial
    | batch job =>
      intro hi
      obtain ⟨hmax, hspent⟩ := h hi
      exact ⟨hmax, hspent.same (hsame (by simp [Proc.live, hi]))⟩
  | _ => trivial

/-- A commit of a delivery changes the attempts on its row only where it records one. -/
theorem publishes_attempts {env : Env} {c c' : Tables} {job : BatchJob} {pc : BatchPc}
    (h : Publishes env c (.batch job pc) c') (i : Nat) :
    SameAttempts c c' i ∨ (job.index = i ∧ (∃ n, pc = .attemptCommit n) ∧
      ∀ b', c'.batches i = some b' → ∃ b, c.batches i = some b ∧ b'.attempts = b.attempts + 1) := by
  rcases h with ⟨rfl, _⟩ | ⟨_, heff⟩
  · exact Or.inl (fun b hb => ⟨b, hb, rfl⟩)
  · rcases effect_row heff i with hsame | ⟨_, _, _, hp, _⟩ | ⟨job', pc', u, now, hp, hi, hu, hnew⟩
    · exact Or.inl (fun b hb => ⟨b, hsame ▸ hb, rfl⟩)
    · cases hp
    · cases hp
      have updated : ∀ b', c'.batches i = some b' →
          ∃ b, c.batches i = some b ∧ b' = u.set now b := by
        intro b' hb'
        obtain ⟨b, hb, rfl⟩ := Option.map_eq_some_iff.mp (hnew.symm.trans hb')
        exact ⟨b, hb, rfl⟩
      cases pc with
      | attemptCommit n =>
        cases Option.some.inj hu
        refine Or.inr ⟨hi, ⟨n, rfl⟩, ?_⟩
        intro b' hb'
        obtain ⟨b, hb, rfl⟩ := updated b' hb'
        exact ⟨b, hb, rfl⟩
      | cancelCommit =>
        cases Option.some.inj hu
        refine Or.inl (fun b' hb' => ?_)
        obtain ⟨b, hb, rfl⟩ := updated b' hb'
        exact ⟨b, hb, rfl⟩
      | workCommit n r =>
        cases Option.some.inj hu
        refine Or.inl (fun b' hb' => ?_)
        obtain ⟨b, hb, rfl⟩ := updated b' hb'
        exact ⟨b, hb, rfl⟩
      | markCommit n error =>
        cases Option.some.inj hu
        refine Or.inl (fun b' hb' => ?_)
        obtain ⟨b, hb, rfl⟩ := updated b' hb'
        exact ⟨b, hb, rfl⟩
      | _ => cases hu

section Steps

variable {env : Env} {i : Nat} {s : Sys} {p : Pid} {w : World}

/-- A step that leaves the jobs of the batch on the queue. -/
theorem retrySafe_set {proc : Proc} (hs : RetrySafe env i s) (hc : Consistent env (s.set w p proc))
    (hruns : proc.runsBatch)
    (queue : w.queue.countP (Job.ofBatch i) = s.world.queue.countP (Job.ofBatch i))
    (members : ∀ job : BatchJob, .batch job ∈ w.queue → job.index = i → .batch job ∈ s.world.queue)
    (live : proc.live i → (s.procs p).live i)
    (row : (s.procs p).live i = false → SameAttempts s.world.committed w.committed i)
    (spent : proc.Spent env.settings w.committed i)
    (bounded : w.committed.Attempts i env.settings.jobMaxTries) :
    RetrySafe env i (s.set w p proc) := by
  have held : ∀ q, ((s.set w p proc).procs q).live i → (s.procs q).live i := by
    intro q hq
    by_cases hqp : q = p
    · subst hqp
      rw [set_procs_self] at hq
      exact live hq
    · rwa [set_procs_ne _ _ _ hqp] at hq
  refine ⟨hc, runsBatch_set hs.runs hruns, ?_, ?_, ?_, ?_, ?_, bounded⟩
  · exact queue ▸ hs.queued
  · intro job hj hi
    obtain ⟨htry, hzero⟩ := hs.fresh job (members job hj hi) hi
    refine ⟨htry, hzero.same (row ?_)⟩
    by_contra hlive
    have hnone := hs.alone p (by simpa using hlive)
    have := List.countP_eq_zero.mp hnone _ (members job hj hi)
    simp [Job.ofBatch, hi] at this
  · intro q hq
    exact queue.trans (hs.alone q (held q hq))
  · intro q r hq hr
    exact hs.single q r (held q hq) (held r hr)
  · refine forall_procs_set spent (fun q hq => (hs.spent q).same (fun hlive => row ?_))
    by_contra hp
    exact hq (hs.single q p hlive (by simpa using hp))

/-- The denied delivery puts the next link on the queue and returns. -/
theorem retrySafe_deferred {job job' : BatchJob} {ret : BatchReturn} {ms : Nat}
    (hs : RetrySafe env i s) (hc : Consistent env (s.set w p (.batch job (.done ret))))
    (hp : s.procs p = .batch job (.enqueueDeferred ms)) (hi : job.index = i)
    (hw : w = { s.world with queue := s.world.queue ++ [.batch job'] }) (htry : job'.jobTry = 1)
    (hi' : job'.index = i) : RetrySafe env i (s.set w p (.batch job (.done ret))) := by
  subst hw
  have hlive : (s.procs p).live i := by simp [hp, Proc.live, hi]
  have hspent := hs.spent p
  rw [hp] at hspent
  obtain ⟨hmax, hpc⟩ := hspent hi
  have hzero : s.world.committed.Attempts i 0 :=
    (hpc (by simp [Proc.live, hi])).2.2 ms rfl
  have gone : ∀ q, ((s.set { s.world with queue := s.world.queue ++ [.batch job'] } p
      (.batch job (.done ret))).procs q).live i = false := by
    intro q
    by_cases hqp : q = p
    · subst hqp
      rw [set_procs_self]
      rfl
    · rw [set_procs_ne _ _ _ hqp]
      by_contra hq
      exact hqp (hs.single q p (by simpa using hq) hlive)
  refine ⟨hc, runsBatch_set hs.runs rfl, ?_, ?_, ?_, ?_, ?_, hs.bounded⟩
  · simp [hs.alone p hlive, Job.ofBatch, hi']
  · intro job₀ hj hi₀
    rcases List.mem_append.mp hj with hj | hj
    · exact hs.fresh job₀ hj hi₀
    · cases List.mem_singleton.mp hj
      exact ⟨htry, hzero⟩
  · intro q hq
    simp [gone q] at hq
  · intro q r hq
    simp [gone q] at hq
  · refine forall_procs_set ?_ (fun q _ => hs.spent q)
    intro _
    exact ⟨hmax, by simp [Proc.live]⟩

/-- What a delivery has spent after its next step. -/
theorem batchMove_spent {job : BatchJob} {ext : External} {c c' : Tables} {ws : List Write}
    {pc next : BatchPc} (hm : BatchMove env.text job ext c ws pc next)
    (hpub : Publishes env c (.batch job pc) c') (h : pc.Spent c job.index job.jobTry)
    (hdenied : ∀ limit n, pc = .rateLimit limit n → ext.decision.allowed = false →
      c.Attempts job.index 0) : next.Spent c' job.index job.jobTry := by
  rcases publishes_attempts hpub job.index with hsame | ⟨_, ⟨n, rfl⟩, hmore⟩
  · have hspent := h.same hsame
    have keep : (next.beforeAttempt → pc.beforeAttempt) →
        (∀ ms, next ≠ .enqueueDeferred ms) → next.Spent c' job.index job.jobTry := by
      intro hbefore hnot
      exact ⟨fun hn => hspent.1 (hbefore hn), hspent.2.1, fun ms he => absurd he (hnot ms)⟩
    cases hm with
    | deferred hallowed =>
      exact ⟨fun _ => hspent.1 rfl, hspent.2.1,
        fun _ _ => (hdenied _ _ rfl hallowed).same hsame⟩
    | @notFinalizable after _ =>
      cases after <;> exact keep (by simp [BatchPc.afterFinalize, BatchPc.beforeAttempt])
        (by simp [BatchPc.afterFinalize])
    | @finalizeUpdate after st _ =>
      cases after <;> exact keep (by simp [BatchPc.afterFinalize, BatchPc.beforeAttempt])
        (by simp [BatchPc.afterFinalize])
    | _ => exact keep (by simp [BatchPc.beforeAttempt]) (by simp)
  · cases hm
    refine ⟨by simp [BatchPc.beforeAttempt], ?_, by simp⟩
    intro b' hb'
    obtain ⟨b, hb, heq⟩ := hmore b' hb'
    rw [heq]
    exact h.1 rfl b hb

theorem stmt_enqueue {settings : Settings} {job : BatchJob} {pc : BatchPc} {job' : Job}
    (h : pc.stmt settings job = .enqueue job') :
    (∃ ms, pc = .enqueueDeferred ms) ∧ job' = .batch ⟨job.index, job.deferrals + 1, 1⟩ := by
  cases pc with
  | enqueueDeferred ms =>
    cases h
    exact ⟨⟨ms, rfl⟩, rfl⟩
  | writeOutcomes n r =>
    simp only [BatchPc.stmt, writeOutcomes] at h
    split at h <;> cases h
  | markOutcomes n error =>
    simp only [BatchPc.stmt, writeOutcomes] at h
    split at h <;> cases h
  | _ => cases h

theorem live_of_running {job : BatchJob} {pc : BatchPc} (hr : (Proc.batch job pc).running)
    (hi : job.index = i) : (Proc.batch job pc).live i := by
  cases pc with
  | done ret => cases hr
  | _ => simp [Proc.live, hi]

theorem not_live_of_ne {job : BatchJob} (pc : BatchPc) (hi : job.index ≠ i) :
    (Proc.batch job pc).live i = false := by
  cases pc <;> simp [Proc.live, hi]

theorem retrySafe_batch {ext : External} {job : BatchJob} {pc next : BatchPc} {reply : Reply}
    (hs : RetrySafe env i s) (hc : Consistent env (s.set w p (.batch job next)))
    (hp : s.procs p = .batch job pc)
    (he : s.world.exec p ext.now (pc.stmt env.settings job) = some (w, reply))
    (hm : BatchMove env.text job ext s.world.committed (w.db.writes p) pc next)
    (hpub : Publishes env s.world.committed (.batch job pc) w.committed)
    (hdenied : job.index = i → ∀ limit n, pc = .rateLimit limit n → ext.decision.allowed = false →
      s.world.committed.Attempts i 0) : RetrySafe env i (s.set w p (.batch job next)) := by
  have hspent := hs.spent p
  rw [hp] at hspent
  by_cases hi : job.index = i
  · subst hi
    obtain ⟨hmax, hpc⟩ := hspent rfl
    have hlive := live_of_running (batchMove_running hm) (i := job.index) rfl
    have hnext := batchMove_spent hm hpub (hpc hlive) (hdenied rfl)
    rcases exec_queue he with hq | ⟨job', hst, hq⟩
    · refine retrySafe_set hs hc rfl (by rw [hq]) (fun _ hj _ => hq ▸ hj) (fun _ => hp ▸ hlive) ?_
        (fun _ => ⟨hmax, fun _ => hnext⟩) (hnext.2.1.mono hmax)
      intro hdead
      rw [hp, hlive] at hdead
      cases hdead
    · obtain ⟨⟨ms, rfl⟩, rfl⟩ := stmt_enqueue hst
      cases hm
      exact retrySafe_deferred hs hc hp rfl (exec_enqueue he) rfl rfl
  · have hsame : SameAttempts s.world.committed w.committed i :=
      (publishes_attempts hpub i).resolve_right (fun h => hi h.1)
    have hdead := not_live_of_ne next hi
    have hother : ∀ job' : BatchJob, job'.index = i → .batch job' ∈ w.queue →
        .batch job' ∈ s.world.queue := by
      intro job' hi' hj
      rcases exec_queue he with hq | ⟨job₀, hst, hq⟩
      · exact hq ▸ hj
      · obtain ⟨_, rfl⟩ := stmt_enqueue hst
        rw [hq, List.mem_append, List.mem_singleton] at hj
        rcases hj with hj | hj
        · exact hj
        · cases hj
          exact absurd hi' hi
    refine retrySafe_set hs hc rfl ?_ (fun job' hj hi' => hother job' hi' hj)
      (fun hlive => by simp [hdead] at hlive) (fun _ => hsame) (fun hi' => absurd hi' hi)
      (hs.bounded.same hsame)
    rcases exec_queue he with hq | ⟨job₀, hst, hq⟩
    · rw [hq]
    · obtain ⟨_, rfl⟩ := stmt_enqueue hst
      rw [hq, List.countP_append]
      simp [Job.ofBatch, hi]

/-- A delivery is interrupted, or one of another batch begins. -/
theorem retrySafe_quiet {proc : Proc} (hs : RetrySafe env i s)
    (hc : Consistent env (s.set w p proc)) (hw : w.committed = s.world.committed)
    (queue : w.queue.countP (Job.ofBatch i) = s.world.queue.countP (Job.ofBatch i))
    (members : ∀ job : BatchJob, .batch job ∈ w.queue → job.index = i → .batch job ∈ s.world.queue)
    (hruns : proc.runsBatch) (live : proc.live i → (s.procs p).live i)
    (spent : proc.Spent env.settings s.world.committed i) : RetrySafe env i (s.set w p proc) :=
  retrySafe_set hs hc hruns queue members live (fun _ => hw ▸ fun b hb => ⟨b, hb, rfl⟩)
    (hw ▸ spent) (hw ▸ hs.bounded)

theorem lost_spent {job : BatchJob} {pc : BatchPc} {c : Tables}
    (h : (Proc.batch job pc).Spent env.settings c i) (hr : (Proc.batch job pc).running) :
    (Proc.lost (.batch job)).Spent env.settings c i := by
  intro hi
  obtain ⟨hmax, hpc⟩ := h hi
  exact ⟨hmax, (hpc (live_of_running hr hi)).2.1⟩

theorem handler_spent {job : BatchJob} {pc : BatchPc} {c : Tables} {error : String}
    (h : (Proc.batch job pc).Spent env.settings c i) (hr : (Proc.batch job pc).running) :
    ((Proc.batch job pc).handler env error).Spent env.settings c i := by
  rcases handler_batch env error job pc with ⟨hl, _⟩ | ⟨n, _, _, hm⟩
  · rw [hl]
    exact lost_spent h hr
  · rw [hm]
    intro hi
    obtain ⟨hmax, hpc⟩ := h hi
    exact ⟨hmax, fun _ => ⟨by simp [BatchPc.beforeAttempt], (hpc (live_of_running hr hi)).2.1,
      by simp⟩⟩

/-- An exception leaves the job with its batch. -/
theorem handler_live {job : BatchJob} {pc : BatchPc} {error : String}
    (h : ((Proc.batch job pc).handler env error).live i) : job.index = i := by
  rcases handler_batch env error job pc with ⟨hl, _⟩ | ⟨n, _, _, hm⟩
  · rw [hl] at h
    exact of_decide_eq_true h
  · rw [hm] at h
    exact of_decide_eq_true h

/-- An interrupted job is delivered again with the next try. -/
theorem again_spent {settings : Settings} {job : BatchJob} {c : Tables}
    (h : (Proc.lost (.batch job)).Spent settings c i)
    (hlt : job.index = i → job.jobTry < settings.jobMaxTries) :
    (Job.again (.batch job)).proc.Spent settings c i := by
  intro hi
  obtain ⟨_, hattempts⟩ := h hi
  refine ⟨hlt hi, fun _ => ⟨?_, hattempts.mono (Nat.le_succ _), by simp⟩⟩
  intro _ b hb
  exact Nat.succ_le_succ (hattempts b hb)

end Steps

theorem deniedFresh_run {i : Nat} {s : Sys} {p : Pid} {ext : External} {job : BatchJob}
    {limit n : Nat} (h : deniedFresh i s (.run p ext))
    (hp : s.procs p = .batch job (.rateLimit limit n)) (hi : job.index = i)
    (hdenied : ext.decision.allowed = false) : s.world.committed.Attempts i 0 := by
  intro b hb
  simp only [deniedFresh, Label.pid, hp, hi, hdenied, hb, ne_eq, not_true_eq_false, decide_false,
    Bool.or_self, Bool.false_or, Option.all_some, decide_eq_true_eq] at h
  exact le_of_eq h

/-- A link of the chain is taken off the queue. -/
theorem retrySafe_deliver {env : Env} {i : Nat} {s : Sys} {p : Pid} {job : BatchJob}
    (hs : RetrySafe env i s)
    (hc : Consistent env (s.set { s.world with queue := s.world.queue.erase (.batch job) } p
      (.batch job .loadAction)))
    (hi : job.index = i) (hj : .batch job ∈ s.world.queue)
    (hmax : job.jobTry ≤ env.settings.jobMaxTries) :
    RetrySafe env i (s.set { s.world with queue := s.world.queue.erase (.batch job) } p
      (.batch job .loadAction)) := by
  have hof : Job.ofBatch i (.batch job) := by simp [Job.ofBatch, hi]
  have hcount : (s.world.queue.erase (.batch job)).countP (Job.ofBatch i) = 0 := by
    have hpos : 0 < s.world.queue.countP (Job.ofBatch i) :=
      List.countP_pos_iff.mpr ⟨_, hj, hof⟩
    have hle := hs.queued
    rw [List.countP_erase]
    simp only [hj, hof, and_self, if_true]
    omega
  have dead : ∀ q, (s.procs q).live i = false := by
    intro q
    by_contra hlive
    have hzero := hs.alone q (by simpa using hlive)
    exact absurd hof (by simpa using List.countP_eq_zero.mp hzero _ hj)
  obtain ⟨htry, hzero⟩ := hs.fresh job hj hi
  have only : ∀ q, ((s.set { s.world with queue := s.world.queue.erase (.batch job) } p
      (.batch job .loadAction)).procs q).live i → q = p := by
    intro q hq
    by_contra hqp
    rw [set_procs_ne _ _ _ hqp, dead q] at hq
    cases hq
  refine ⟨hc, runsBatch_set hs.runs rfl, by rw [set_world, hcount]; omega, ?_,
    fun _ _ => hcount, fun q r hq hr => (only q hq).trans (only r hr).symm, ?_, hs.bounded⟩
  · intro job' hj' hi'
    have := List.countP_eq_zero.mp hcount _ hj'
    simp [Job.ofBatch, hi'] at this
  · refine forall_procs_set ?_ (fun q _ => hs.spent q)
    intro _
    refine ⟨hmax, fun _ => ⟨?_, hzero.mono (Nat.zero_le _), by simp⟩⟩
    intro _ b hb
    have := hzero b hb
    omega

theorem retrySafe_step {env : Env} {i : Nat} {s s' : Sys} {l : Label} (hs : RetrySafe env i s)
    (ok : chained env i s l ∧ deniedFresh i s l) (h : s.step env l = some s') :
    RetrySafe env i s' := by
  have hc := consistent_step hs.consistent h
  obtain ⟨hchain, hdenied⟩ := ok
  obtain ⟨hex, hlink⟩ := Bool.and_eq_true_iff.mp hchain
  cases step_moves hs.consistent h with
  | @deliver p job hp hj =>
    cases job with
    | plan => cases hex
    | batch job =>
      by_cases hi : job.index = i
      · exact retrySafe_deliver hs hc hi hj (by simpa [hi] using hlink)
      · refine retrySafe_quiet hs hc rfl ?_ (fun _ hj' _ => List.mem_of_mem_erase hj') rfl
          (fun hlive => ?_) (fun hi' => absurd hi' hi)
        · rw [List.countP_erase]
          simp [Job.ofBatch, hi]
        · simp [Job.proc, Proc.live, hi] at hlive
  | @duplicate p job hp =>
    cases job with
    | plan => cases hex
    | batch job =>
      have hi : job.index ≠ i := by simpa using hlink
      refine retrySafe_quiet hs hc rfl rfl (fun _ hj _ => hj) rfl (fun hlive => ?_)
        (fun hi' => absurd hi' hi)
      simp [Job.proc, Proc.live, hi] at hlive
  | @redeliver p job hp =>
    have hspent := hs.spent p
    have hrun := hs.runs p
    rw [hp] at hspent hrun
    cases job with
    | plan => cases hrun
    | batch job =>
      refine retrySafe_quiet hs hc rfl rfl (fun _ hj _ => hj) rfl ?_ (again_spent hspent ?_)
      · rw [hp]
        exact id
      · intro hi
        simpa [Label.pid, hp, hi] using hlink
  | cancel _ => cases hex
  | @batch p ext job pc next w reply hp he hm hpub =>
    refine retrySafe_batch hs hc hp he hm hpub ?_
    rintro hi limit n rfl hden
    exact deniedFresh_run hdenied hp hi hden
  | @refused p ext job limit n hp =>
    have hspent := hs.spent p
    rw [hp] at hspent
    refine retrySafe_quiet hs hc rfl rfl (fun _ hj _ => hj) rfl ?_ (lost_spent hspent rfl)
    rw [hp]
    exact id
  | @plan p ext pc next w reply hp _ _ _ _ => simpa [hp, Proc.runsBatch] using hs.runs p
  | @planFailed p ext error w reply hp _ _ => simpa [hp, Proc.runsBatch] using hs.runs p
  | @cancelling p ext pc w reply hp _ _ _ => simpa [hp, Proc.runsBatch] using hs.runs p
  | @raise p error hr _ =>
    obtain ⟨job, pc, hp⟩ := batch_of_running hr (hs.runs p)
    have hspent := hs.spent p
    rw [hp] at hspent hr hc ⊢
    refine retrySafe_quiet hs hc rfl rfl (fun _ hj _ => hj) ?_ ?_ (handler_spent hspent hr)
    · exact handler_runsBatch (by rfl)
    · intro hlive
      rw [hp]
      exact live_of_running hr (handler_live hlive)
  | @swallow p job n r payload error hp =>
    have hspent := hs.spent p
    rw [hp] at hspent
    refine retrySafe_quiet hs hc rfl rfl (fun _ hj _ => hj) rfl ?_ ?_
    · rw [hp]
      exact id
    · intro hi
      obtain ⟨hmax, hpc⟩ := hspent hi
      exact ⟨hmax, fun hlive => ⟨by simp [BatchPc.beforeAttempt], (hpc hlive).2.1, by simp⟩⟩
  | @crash p hr =>
    obtain ⟨job, pc, hp⟩ := batch_of_running hr (hs.runs p)
    have hspent := hs.spent p
    rw [hp] at hspent hr hc ⊢
    refine retrySafe_quiet hs hc rfl rfl (fun _ hj _ => hj) rfl ?_ (lost_spent hspent hr)
    intro hlive
    rw [hp]
    exact live_of_running hr (by simpa [Proc.killed, Proc.live] using hlive)

/-- Batch `i` has never been attempted, and one job for it is on the queue. -/
structure Enqueued (s : Sys) (i : Nat) : Prop extends s.AtRest where
  row : s.world.committed.Attempts i 0
  queued : s.world.queue.countP (Job.ofBatch i) = 1
  fresh : ∀ job : BatchJob, .batch job ∈ s.world.queue → job.index = i → job.jobTry = 1

/-- While batch `i` is deferred only before its first attempt, no number of deferrals and
retries takes its attempts past the budget. -/
theorem attempts_within_budget {env : Env} {i : Nat} {s₀ s : Sys} (start : Enqueued s₀ i)
    (h : Sys.Reaches env (fun s l => chained env i s l ∧ deniedFresh i s l) s₀ s)
    {b : BulkActionBatch} (hb : s.world.committed.batches i = some b) :
    b.attempts ≤ env.settings.jobMaxTries := by
  have safe : RetrySafe env i s := by
    refine h.invariant retrySafe_step ⟨consistent_atRest start.toAtRest, ?_, start.queued.le, ?_,
      ?_, ?_, ?_, start.row.mono (Nat.zero_le _)⟩
    · intro p
      simp [start.idle p, Proc.runsBatch]
    · intro job hj hi
      exact ⟨start.fresh job hj hi, start.row⟩
    · intro p hp
      simp [start.idle p, Proc.live] at hp
    · intro p q hp
      simp [start.idle p, Proc.live] at hp
    · intro p
      simp [start.idle p, Proc.Spent]
  exact safe.bounded b hb

theorem plannedContacts_enqueued : Enqueued (plannedContacts [contactsJob]) 0 := by
  refine ⟨Tables.sys_atRest _ _, ?_, rfl, ?_⟩
  · intro b hb
    cases Option.some.inj hb
    exact Nat.le_refl 0
  · intro job hj _
    cases List.mem_singleton.mp hj
    rfl

/-- An attempt that raises in the work transaction. -/
def attemptRaises (p : Pid) : List Label := List.replicate 8 (.run p {}) ++ [.raise p "boom"]

/-- The rate limiter turns the delivery away. -/
def attemptDenied (p : Pid) : List Label :=
  List.replicate 3 (.run p {}) ++ [.run p { decision := ⟨false, 50⟩ }, .run p {}]

/-- One deferral, then two attempts. -/
theorem attempts_within_budget_deferred :
    ∃ s b, Sys.Reaches defaultEnv (fun s l => chained defaultEnv 0 s l ∧ deniedFresh 0 s l)
      (plannedContacts [contactsJob]) s ∧ s.world.committed.batches 0 = some b ∧
      b.attempts = 2 ∧ b.attempts ≤ 3 := by
  let labels : List Label := .deliver 0 contactsJob :: attemptDenied 0 ++
    .deliver 1 (.batch ⟨0, 1, 1⟩) :: attemptRaises 1 ++ .redeliver 1 :: attemptRaises 1
  obtain ⟨s, hs, hrow⟩ : ∃ s,
      Runs.checkedSteps (Sys.step defaultEnv)
        (fun s l => chained defaultEnv 0 s l && deniedFresh 0 s l)
        (plannedContacts [contactsJob]) labels = some s ∧
      (s.world.committed.batches 0).map BulkActionBatch.attempts = some 2 :=
    ⟨_, rfl, rfl⟩
  obtain ⟨b, hb, hattempts⟩ := Option.map_eq_some_iff.mp hrow
  have hr : Sys.Reaches defaultEnv (fun s l => chained defaultEnv 0 s l ∧ deniedFresh 0 s l)
      (plannedContacts [contactsJob]) s :=
    Runs.reaches_checked (fun h => Bool.and_eq_true_iff.mp h) hs
  exact ⟨s, b, hr, hb, hattempts, attempts_within_budget plannedContacts_enqueued hr hb⟩

/-- A denial after two attempts gives the batch a new set of tries. -/
theorem attempts_exceed_budget :
    ¬ ∀ (i : Nat) (s₀ s : Sys) (b : BulkActionBatch), Enqueued s₀ i →
      Sys.Reaches defaultEnv (fun s l => chained defaultEnv i s l) s₀ s →
      s.world.committed.batches i = some b → b.status ≠ .failed →
      b.attempts ≤ defaultEnv.settings.jobMaxTries := by
  intro always
  let labels : List Label := .deliver 0 contactsJob :: attemptRaises 0 ++
    .redeliver 0 :: attemptRaises 0 ++ .redeliver 0 :: attemptDenied 0 ++
    .deliver 1 (.batch ⟨0, 1, 1⟩) :: attemptRaises 1 ++ .redeliver 1 :: attemptRaises 1
  obtain ⟨s, hs, hrow⟩ : ∃ s,
      Runs.checkedSteps (Sys.step defaultEnv) (chained defaultEnv 0) (plannedContacts [contactsJob])
        labels = some s ∧
      (s.world.committed.batches 0).map (fun b => (b.status, b.attempts)) = some (.processing, 4) :=
    ⟨_, rfl, rfl⟩
  obtain ⟨b, hb, hv⟩ := Option.map_eq_some_iff.mp hrow
  simp only [Prod.mk.injEq] at hv
  have hle := always 0 _ s b plannedContacts_enqueued
    (Runs.reaches_checked (fun h => h) hs)
    hb (by simp [hv.1])
  rw [hv.2] at hle
  exact absurd hle (by decide)

end BulkActions
