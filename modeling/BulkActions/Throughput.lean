import BulkActions.Credit
import BulkActions.DriftAccounting
import BulkActions.Totals

namespace BulkActions

open RateLimiter Totals

/-- The limit and the amount of the token request that a worker is about to make. -/
def Proc.asks : Proc → Option (ℕ × ℕ)
  | .batch _ (.rateLimit limit n) => some (limit, n)
  | _ => none

/-- The entities of a batch that has been admitted and not executed yet. -/
def Proc.paid : Proc → ℕ
  | .batch _ (.recordAttempt n) => n
  | .batch _ (.attemptCommit n) => n
  | .batch _ (.reloadAction n) => n
  | .batch _ (.reloadBatch n _) => n
  | .batch _ (.runBatch n _ _) => n
  | _ => 0

/-- The entities that the next statement executes. -/
def Proc.executes (ext : External) : Proc → ℕ
  | .batch _ (.runBatch _ _ _) => ext.rows.length
  | _ => 0

/-- The actions of an account, whose workers share a bucket; `clock` is the time at which the worker
of the last step took it by its own clock, `executed` counts the entities that have been
executed. -/
structure Paced where
  actions : ℕ → Sys
  bucket : Option Bucket
  clock : Int
  executed : ℕ

/-- A step of an action, at the time that the clock of its worker shows; a token request sends it to
the script as `now_ms`. -/
structure PacedLabel where
  action : ℕ
  label : Label
  nowMs : Int

namespace Paced

/-- A token request is answered by the bucket. -/
def answer (x : Paced) (l : PacedLabel) : Label × Option Bucket :=
  match l.label with
  | .run p ext =>
    match ((x.actions l.action).procs p).asks with
    | some (limit, n) =>
      (.run p { ext with
        decision := (tokenBucket limit (limit / 60) l.nowMs n x.bucket).1.external },
        (RateLimiter.consume limit n l.nowMs x.bucket).2)
    | none => (.run p ext, x.bucket)
  | label => (label, x.bucket)

def executes (x : Paced) (l : PacedLabel) : ℕ :=
  match l.label with
  | .run p ext => ((x.actions l.action).procs p).executes ext
  | _ => 0

/-- A step of any worker, whatever its clock shows. -/
def step (env : Env) (x : Paced) (l : PacedLabel) : Option Paced :=
  ((x.actions l.action).step env (x.answer l).1).map (fun s =>
    { actions := Function.update x.actions l.action s
      bucket := (x.answer l).2
      clock := l.nowMs
      executed := x.executed + x.executes l })

/-- The clocks of the workers agree: no step is taken at an earlier time than the one before. -/
def ClocksAgree (x : Paced) (l : PacedLabel) : Prop := x.clock ≤ l.nowMs

instance (x : Paced) (l : PacedLabel) : Decidable (x.ClocksAgree l) :=
  inferInstanceAs (Decidable (x.clock ≤ l.nowMs))

/-- What has been executed, what has been paid for and what is left in the bucket come out of a
full bucket and the refill since `start`. -/
structure Within (env : Env) (limit : ℕ) (start : Int) (x : Paced) : Prop where
  safe : ∀ k, DriftSafe env (x.actions k)
  limited : ∀ k, (x.actions k).world.rateLimitPerMinute = limit
  asks : ∀ k p m n, ((x.actions k).procs p).asks = some (m, n) → m = limit
  reachable : Reachable x.bucket
  past : ∀ b, x.bucket = some b → b.ts ≤ x.clock
  budget : ∃ n : ℕ, Total (fun y : ℕ × Pid => ((x.actions y.1).procs y.2).paid) n ∧
    (x.executed + n : ℚ) + credit limit x.clock x.bucket ≤
      limit + (x.clock - start : ℚ) * limit / 60000

end Paced

/-- The points behind the token request at which a task is taken up or interrupted. -/
def Proc.unpaid (proc : Proc) : Prop := proc.paid = 0 ∧ proc.asks = none

/-- A worker that asks for tokens is at its request. -/
theorem asks_eq_some {proc : Proc} {limit n : ℕ} (h : proc.asks = some (limit, n)) :
    ∃ job, proc = .batch job (.rateLimit limit n) := by
  unfold Proc.asks at h
  split at h
  next job limit n =>
    cases h
    exact ⟨job, rfl⟩
  next => cases h

section Steps

variable {env : Env} {s s' : Sys} {p : Pid} {l : Label}

theorem job_unpaid (job : Job) : job.proc.unpaid := by
  cases job <;> exact ⟨rfl, rfl⟩

theorem handler_unpaid (env : Env) (error : String) (proc : Proc) :
    (proc.handler env error).unpaid := by
  cases proc with
  | batch job pc =>
    rcases handler_batch env error job pc with ⟨hlost, _⟩ | ⟨n, _, _, hmark⟩
    · rw [hlost]
      exact ⟨rfl, rfl⟩
    · rw [hmark]
      exact ⟨rfl, rfl⟩
  | plan pc => cases pc <;> exact ⟨rfl, rfl⟩
  | _ => exact ⟨rfl, rfl⟩

theorem killed_unpaid (proc : Proc) : proc.killed.unpaid := by
  cases proc <;> exact ⟨rfl, rfl⟩

/-- What is executed has been paid for. -/
theorem executes_le_paid {ext : External} (hs : DriftSafe env s)
    (within : withinPlan s (.run p ext)) : (s.procs p).executes ext ≤ (s.procs p).paid := by
  have hexact := hs.procs p
  cases hp : s.procs p with
  | batch job pc =>
    rw [hp] at hexact
    cases pc with
    | runBatch n a b => exact (hexact.reloaded n a b rfl) ▸ withinPlan_run within hp
    | _ => exact Nat.zero_le _
  | _ => exact Nat.le_refl _

/-- Behind the token request nothing more is paid for, and what is executed is no longer owed. -/
theorem batchMove_paid {text : PyText} {job : BatchJob} {ext : External} {c : Tables}
    {ws : List Write} {pc next : BatchPc} (h : BatchMove text job ext c ws pc next)
    (hasks : (Proc.batch job pc).asks = none)
    (hpaid : (Proc.batch job pc).executes ext ≤ (Proc.batch job pc).paid) :
    (Proc.batch job next).paid + (Proc.batch job pc).executes ext ≤ (Proc.batch job pc).paid := by
  cases h with
  | admitted => cases hasks
  | deferred _ => cases hasks
  | runBatch => exact (Nat.zero_add _).trans_le hpaid
  | @notFinalizable after _ => cases after <;> exact le_rfl
  | @finalizeUpdate after st _ => cases after <;> exact le_rfl
  | _ => simp [Proc.paid, Proc.executes]

theorem batchMove_asks {text : PyText} {job : BatchJob} {ext : External} {c : Tables}
    {ws : List Write} {pc next : BatchPc} (h : BatchMove text job ext c ws pc next) {m n : ℕ}
    (hasks : (Proc.batch job next).asks = some (m, n)) :
    pc = .loadAccount n ∧ next = .rateLimit m n := by
  cases h with
  | loadedAccount =>
    cases hasks
    exact ⟨rfl, rfl⟩
  | @notFinalizable after _ => cases after <;> cases hasks
  | @finalizeUpdate after st _ => cases after <;> cases hasks
  | _ => cases hasks

/-- The limit is the one of the account. -/
theorem asks_step (hs : Consistent env s) (h : s.step env l = some s') {m n : ℕ}
    (hasks : (s'.procs l.pid).asks = some (m, n)) : m = s.world.rateLimitPerMinute := by
  have hunpaid : ∀ {proc : Proc}, proc.unpaid → proc.asks ≠ some (m, n) := by
    intro proc hproc
    rw [hproc.2]
    simp
  cases step_happens h with
  | @run p ext w reply next hr he hn =>
    rw [Label.pid, set_procs_self] at hasks
    have hw := hs.wrote p
    cases hp : s.procs p with
    | batch job pc =>
      rw [hp] at hr he hn hw
      obtain ⟨pc', hpc, rfl⟩ := batch_resume_ok hn
      obtain ⟨rfl, rfl⟩ := batchMove_asks (batch_moves hw hr he hpc) hasks
      cases Option.some.inj he
      cases Except.ok.inj hpc
      rfl
    | plan pc =>
      rw [hp] at hn
      obtain ⟨pc', _, rfl⟩ := plan_resume_ok hn
      cases hasks
    | cancel pc =>
      rw [hp] at hn
      cases Except.ok.inj hn
      cases hasks
    | idle => simp [hp, Proc.running] at hr
    | lost job => simp [hp, Proc.running] at hr
  | swallow _ | cancel _ =>
    rw [Label.pid, set_procs_self] at hasks
    cases hasks
  | deliver _ _ | duplicate _ | redeliver _ =>
    rw [Label.pid, set_procs_self] at hasks
    exact absurd hasks (hunpaid (job_unpaid _))
  | fail _ _ _ | raise _ _ =>
    rw [Label.pid, set_procs_self] at hasks
    exact absurd hasks (hunpaid (handler_unpaid _ _ _))
  | crash _ =>
    rw [Label.pid, set_procs_self] at hasks
    exact absurd hasks (hunpaid (killed_unpaid _))

theorem run_paid (hs : DriftSafe env s) {ext : External} (within : withinPlan s (.run p ext))
    (h : s.step env (.run p ext) = some s') (hasks : (s.procs p).asks = none) :
    (s'.procs p).paid + (s.procs p).executes ext ≤ (s.procs p).paid := by
  have hpaid := executes_le_paid hs within
  cases step_happens h with
  | @run _ _ w reply next hr he hn =>
    rw [set_procs_self]
    have hw := hs.consistent.wrote p
    cases hp : s.procs p with
    | batch job pc =>
      rw [hp] at hr he hn hw hasks hpaid
      obtain ⟨pc', hpc, rfl⟩ := batch_resume_ok hn
      exact batchMove_paid (batch_moves hw hr he hpc) hasks hpaid
    | plan pc =>
      rw [hp] at hn
      obtain ⟨pc', _, rfl⟩ := plan_resume_ok hn
      exact le_rfl
    | cancel pc =>
      rw [hp] at hn
      cases Except.ok.inj hn
      exact le_rfl
    | idle => simp [hp, Proc.running] at hr
    | lost job => simp [hp, Proc.running] at hr
  | @fail _ _ w reply error hr he hn =>
    rw [set_procs_self, (handler_unpaid _ _ _).1, Nat.zero_add]
    exact hpaid

/-- A step that is no statement leaves nothing paid for. -/
theorem other_paid (h : s.step env l = some s') (hl : ∀ p ext, l ≠ .run p ext) :
    (s'.procs l.pid).paid = 0 := by
  cases step_happens h with
  | run _ _ _ => exact absurd rfl (hl _ _)
  | fail _ _ _ => exact absurd rfl (hl _ _)
  | deliver _ _ => rw [Label.pid, set_procs_self]; exact (job_unpaid _).1
  | duplicate _ => rw [Label.pid, set_procs_self]; exact (job_unpaid _).1
  | redeliver _ => rw [Label.pid, set_procs_self]; exact (job_unpaid _).1
  | cancel _ => rw [Label.pid, set_procs_self]; rfl
  | raise _ _ => rw [Label.pid, set_procs_self]; exact (handler_unpaid _ _ _).1
  | swallow _ => rw [Label.pid, set_procs_self]; rfl
  | crash _ => rw [Label.pid, set_procs_self]; exact (killed_unpaid _).1

/-- A batch is paid for when its tokens are granted. -/
theorem asked_paid {limit n : ℕ} {ext : External} (hasks : (s.procs p).asks = some (limit, n))
    (h : s.step env (.run p ext) = some s') :
    (s'.procs p).paid ≤ if ext.decision.allowed ∧ n ≤ limit then n else 0 := by
  obtain ⟨job, hp⟩ := asks_eq_some hasks
  cases step_happens h with
  | @run _ _ w reply next hr he hn =>
    rw [set_procs_self]
    rw [hp] at hn
    obtain ⟨pc', hpc, rfl⟩ := batch_resume_ok hn
    rw [BatchPc.resume, BulkActions.consume] at hpc
    split_ifs at hpc with hzero hlt
    · cases Except.ok.inj hpc
      simp [Proc.paid, hzero]
    · cases hpc
    · cases Except.ok.inj hpc
      cases hallowed : ext.decision.allowed
      · simp [Proc.paid, hallowed]
      · simp [Proc.paid, hallowed, not_lt.mp hlt]
  | @fail _ _ w reply error hr he hn =>
    rw [set_procs_self, (handler_unpaid _ _ _).1]
    exact Nat.zero_le _

end Steps

section Paces

variable {env : Env} {x x' : Paced} {l : PacedLabel} {limit : ℕ} {start : Int}

theorem paced_step (h : x.step env l = some x') :
    ∃ s, (x.actions l.action).step env (x.answer l).1 = some s ∧
      x' = ⟨Function.update x.actions l.action s, (x.answer l).2, l.nowMs,
        x.executed + x.executes l⟩ := by
  obtain ⟨s, hs, rfl⟩ := Option.map_eq_some_iff.mp h
  exact ⟨s, hs, rfl⟩

/-- The answer of the bucket does not change what a batch loads. -/
theorem answer_withinPlan (within : withinPlan (x.actions l.action) l.label) :
    withinPlan (x.actions l.action) (x.answer l).1 := by
  obtain ⟨k, label, now⟩ := l
  cases label with
  | run p ext =>
    unfold Paced.answer
    dsimp only
    split
    next limit n hasks =>
      obtain ⟨job, hp⟩ := asks_eq_some hasks
      simp [withinPlan, Label.pid, hp]
    next => exact within
  | _ => exact within

/-- The tokens that a step takes from the bucket pay for what it executes or is about to. -/
structure Paid (x : Paced) (l : PacedLabel) (limit : ℕ) (s : Sys) : Prop where
  reachable : Reachable (x.answer l).2
  past : ∀ b, (x.answer l).2 = some b → b.ts ≤ l.nowMs
  balance : ((s.procs (x.answer l).1.pid).paid + x.executes l : ℚ) +
      credit limit l.nowMs (x.answer l).2 ≤
    ((x.actions l.action).procs (x.answer l).1.pid).paid +
      credit limit l.nowMs x.bucket

theorem paid_run {k : ℕ} {p : Pid} {ext : External} {now : Int} {s : Sys}
    (hs : DriftSafe env (x.actions k)) (within : withinPlan (x.actions k) (.run p ext))
    (hasks : ∀ m n, ((x.actions k).procs p).asks = some (m, n) → m = limit)
    (hreach : Reachable x.bucket) (hpast : ∀ b, x.bucket = some b → b.ts ≤ now)
    (h : (x.actions k).step env (x.answer ⟨k, .run p ext, now⟩).1 = some s) :
    Paid x ⟨k, .run p ext, now⟩ limit s := by
  cases hq : ((x.actions k).procs p).asks with
  | none =>
    have hanswer : x.answer ⟨k, .run p ext, now⟩ = (.run p ext, x.bucket) := by
      simp only [Paced.answer, hq]
    rw [hanswer] at h
    have hpaid := run_paid hs within h hq
    refine ⟨by rw [hanswer]; exact hreach, by rw [hanswer]; exact hpast, ?_⟩
    rw [hanswer]
    have hcast : (((s.procs p).paid + ((x.actions k).procs p).executes ext : ℕ) : ℚ) ≤
        ((x.actions k).procs p).paid := by exact_mod_cast hpaid
    push_cast at hcast
    exact add_le_add_left hcast _
  | some ask =>
    obtain ⟨m, n⟩ := ask
    obtain rfl := hasks m n hq
    obtain ⟨job, hp⟩ := asks_eq_some hq
    have hanswer : x.answer ⟨k, .run p ext, now⟩ =
        (.run p { ext with decision := (tokenBucket m (m / 60) now n x.bucket).1.external },
          (RateLimiter.consume m n now x.bucket).2) := by
      simp only [Paced.answer, hq]
    have hpaid : (s.procs p).paid ≤
        if (tokenBucket m (m / 60) now n x.bucket).1.allowed ∧ n ≤ m then n else 0 :=
      asked_paid hq (hanswer ▸ h)
    have hfree : x.executes ⟨k, .run p ext, now⟩ = 0 ∧ ((x.actions k).procs p).paid = 0 := by
      simp [Paced.executes, hp, Proc.executes, Proc.paid]
    have hpid : (x.answer ⟨k, .run p ext, now⟩).1.pid = p := by rw [hanswer]; rfl
    have hbucket : (x.answer ⟨k, .run p ext, now⟩).2 =
        (RateLimiter.consume m n now x.bucket).2 := by rw [hanswer]
    obtain ⟨hreached, hts, hcredit⟩ := consume_spends m n hreach hpast
    have hgranted : ((s.procs p).paid : ℚ) ≤
        (⟨m, n, now⟩ : RateLimiter.Call).granted x.bucket := by
      rw [granted_eq_allowed]
      exact_mod_cast hpaid
    refine ⟨hbucket ▸ hreached, hbucket ▸ hts, ?_⟩
    rw [hpid, hbucket, hfree.1, hfree.2]
    push_cast
    linarith

theorem paid_step (limit : ℕ) {s : Sys} (hs : ∀ k, DriftSafe env (x.actions k))
    (within : withinPlan (x.actions l.action) l.label)
    (hasks : ∀ k p m n, ((x.actions k).procs p).asks = some (m, n) → m = limit)
    (hreach : Reachable x.bucket) (hpast : ∀ b, x.bucket = some b → b.ts ≤ l.nowMs)
    (h : (x.actions l.action).step env (x.answer l).1 = some s) : Paid x l limit s := by
  obtain ⟨k, label, now⟩ := l
  have other : (∀ p ext, label ≠ .run p ext) → x.answer ⟨k, label, now⟩ = (label, x.bucket) →
      x.executes ⟨k, label, now⟩ = 0 → Paid x ⟨k, label, now⟩ limit s := by
    intro hlabel hanswer hzero
    have hpaid : (s.procs (x.answer ⟨k, label, now⟩).1.pid).paid = 0 :=
      other_paid h (by rw [hanswer]; exact hlabel)
    refine ⟨by rw [hanswer]; exact hreach, by rw [hanswer]; exact hpast, ?_⟩
    rw [hpaid, hzero, hanswer]
    simp
  cases label with
  | run p ext => exact paid_run (hs k) within (hasks k p) hreach hpast h
  | _ => exact other (by simp) rfl rfl

theorem within_step (hx : Paced.Within env limit start x)
    (within : withinPlan (x.actions l.action) l.label) (hclock : x.ClocksAgree l)
    (h : x.step env l = some x') : Paced.Within env limit start x' := by
  obtain ⟨s, hstep, rfl⟩ := paced_step h
  have hpaid := paid_step limit hx.safe within hx.asks hx.reachable
    (fun b hb => (hx.past b hb).trans hclock) hstep
  have hactions : ∀ {P : Sys → Prop}, P s → (∀ k, P (x.actions k)) →
      ∀ k, P (Function.update x.actions l.action s k) := by
    intro P hself hothers k
    by_cases hk : k = l.action
    · subst hk
      simpa using hself
    · simpa [hk] using hothers k
  refine ⟨?_, ?_, ?_, hpaid.reachable, hpaid.past, ?_⟩
  · exact hactions (driftSafe_step (hx.safe _) (answer_withinPlan within) hstep) hx.safe
  · exact hactions (P := fun s => s.world.rateLimitPerMinute = limit)
      ((step_rateLimit hstep).trans (hx.limited _)) hx.limited
  · refine hactions (P := fun s => ∀ p m n, (s.procs p).asks = some (m, n) → m = limit) ?_ hx.asks
    intro p m n hasks
    by_cases hp : p = (x.answer l).1.pid
    · subst hp
      exact (asks_step (hx.safe _).consistent hstep hasks).trans (hx.limited _)
    · rw [step_procs_ne hstep hp] at hasks
      exact hx.asks _ p m n hasks
  · obtain ⟨n, htotal, hbudget⟩ := hx.budget
    obtain ⟨m, hm, hsum⟩ := htotal.change
      (g := fun y => ((Function.update x.actions l.action s y.1).procs y.2).paid)
      (x := (l.action, (x.answer l).1.pid)) (fun y hy => by
        obtain ⟨k, p⟩ := y
        by_cases hk : k = l.action
        · subst hk
          have hp : p ≠ (x.answer l).1.pid := fun hp => hy (by rw [hp])
          simp only [Function.update_self]
          rw [step_procs_ne hstep hp]
        · simp [hk])
    refine ⟨m, hm, ?_⟩
    simp only [Function.update_self] at hsum
    have hcast : (m : ℚ) + ((x.actions l.action).procs (x.answer l).1.pid).paid =
        n + (s.procs (x.answer l).1.pid).paid := by exact_mod_cast hsum
    have hbalance := hpaid.balance
    have hcredit := credit_advance limit hx.past hclock
    have hspan := refill_add limit start x.clock l.nowMs
    push_cast
    linarith

theorem within_start {x₀ : Paced} (hrest : ∀ k, (x₀.actions k).AtRest)
    (hrows : ∀ k i b, (x₀.actions k).world.committed.batches i = some b → b.Exact)
    (hlimit : ∀ k, (x₀.actions k).world.rateLimitPerMinute = limit)
    (hreach : Reachable x₀.bucket) (hpast : ∀ b, x₀.bucket = some b → b.ts ≤ x₀.clock)
    (hzero : x₀.executed = 0) : Paced.Within env limit x₀.clock x₀ where
  safe := fun k => ⟨consistent_atRest (hrest k), fun p => by simp [(hrest k).idle p, Proc.Exact],
    hrows k⟩
  limited := hlimit
  asks := fun k p m n h => by simp [(hrest k).idle p, Proc.asks] at h
  reachable := hreach
  past := hpast
  budget := by
    refine ⟨0, ?_, ?_⟩
    · have hidle : (fun y : ℕ × Pid => ((x₀.actions y.1).procs y.2).paid) = fun _ => 0 := by
        funext y
        simp [(hrest y.1).idle y.2, Proc.paid]
      rw [hidle]
      exact total_zero
    · rw [hzero]
      simpa using credit_le_limit limit x₀.clock x₀.bucket

/-- The workers of an account, on all its actions together, never execute more than a full bucket
and the refill of the time that has passed, in exact arithmetic and as long as their clocks agree,
whatever they are denied, interrupted in or made to do again. -/
theorem account_throughput {x₀ : Paced} (hrest : ∀ k, (x₀.actions k).AtRest)
    (hrows : ∀ k i b, (x₀.actions k).world.committed.batches i = some b → b.Exact)
    (hlimit : ∀ k, (x₀.actions k).world.rateLimitPerMinute = limit)
    (hreach : Reachable x₀.bucket) (hpast : ∀ b, x₀.bucket = some b → b.ts ≤ x₀.clock)
    (hzero : x₀.executed = 0)
    (h : Runs.Reaches (Paced.step env)
      (fun x l => withinPlan (x.actions l.action) l.label ∧ x.ClocksAgree l) x₀ x) :
    (x.executed : ℚ) ≤ limit + (x.clock - x₀.clock : ℚ) * limit / 60000 := by
  have hx : Paced.Within env limit x₀.clock x := h.invariant
    (fun hx ok hstep => within_step hx ok.1 ok.2 hstep)
    (within_start hrest hrows hlimit hreach hpast hzero)
  obtain ⟨n, _, hbudget⟩ := hx.budget
  have hcredit : 0 ≤ credit limit x.clock x.bucket :=
    credit_nonneg (fun b hb => (hx.reachable.bucket b hb).1)
  have hn : (0 : ℚ) ≤ n := n.cast_nonneg
  linarith

end Paces

/-- An account with one token a minute, and actions of one entity. -/
def sharedBucket : Paced where
  actions _ := { plannedContacts [contactsJob] with
    world := { (plannedContacts [contactsJob]).world with rateLimitPerMinute := 1 } }
  bucket := none
  clock := 0
  executed := 0

/-- A worker takes up a batch of an action and makes some statements. -/
def takesUp (k : ℕ) (p : Pid) (nowMs : Int) (job : Job) (n : ℕ) : List PacedLabel :=
  ⟨k, .deliver p job, nowMs⟩ :: List.replicate n ⟨k, .run p { rows := [⟨1, []⟩] }, nowMs⟩

/-- The first action's worker takes the only token; the second one's is denied, comes back after a
minute, and the bound is reached. -/
theorem account_throughput_shared :
    ∃ x, Runs.Reaches (Paced.step defaultEnv)
        (fun x l => withinPlan (x.actions l.action) l.label ∧ x.ClocksAgree l) sharedBucket x ∧
      x.executed = 2 ∧ x.clock = 60000 ∧
      (x.executed : ℚ) ≤ (1 : ℕ) + (x.clock - sharedBucket.clock : ℚ) * (1 : ℕ) / 60000 := by
  let labels : List PacedLabel := takesUp 0 0 0 contactsJob 9 ++ takesUp 1 0 0 contactsJob 5 ++
    takesUp 1 1 60000 (.batch ⟨0, 1, 1⟩) 9
  have hrun : (Runs.checkedSteps (Paced.step defaultEnv)
      (fun x l => withinPlan (x.actions l.action) l.label ∧ x.ClocksAgree l)
        sharedBucket labels).map
        (fun x => (x.executed, x.clock)) = some (2, 60000) := by decide +kernel
  obtain ⟨x, hx, hend⟩ := Option.map_eq_some_iff.mp hrun
  have hr : Runs.Reaches (Paced.step defaultEnv)
      (fun x l => withinPlan (x.actions l.action) l.label ∧ x.ClocksAgree l) sharedBucket x :=
    Runs.reaches_checked (fun hc => of_decide_eq_true hc) hx
  have hlimit : ∀ k, (sharedBucket.actions k).world.rateLimitPerMinute = 1 := fun _ => rfl
  have hrows : ∀ k i b, (sharedBucket.actions k).world.committed.batches i = some b → b.Exact := by
    intro k i b hb
    cases i with
    | zero =>
      cases hb
      exact ⟨by simp [contactsBatch], by simp [contactsBatch]⟩
    | succ i => cases hb
  have hpast : ∀ b, sharedBucket.bucket = some b → b.ts ≤ sharedBucket.clock := by
    simp [sharedBucket]
  exact ⟨x, hr, congrArg Prod.fst hend, congrArg Prod.snd hend,
    account_throughput (fun _ => ⟨fun _ => rfl, fun _ => rfl, fun _ => rfl⟩) hrows hlimit
      .none hpast rfl hr⟩

end BulkActions
