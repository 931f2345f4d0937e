import BulkActions.Requests

namespace BulkActions

open Noninterference RateLimiter

/-- What an account sees of the API. -/
structure ApiView where
  limit : Option RateLimit
  actions : List StoredAction
  bucket : Option Bucket
  answers : List Answer

namespace Api

def ofAccount (accountId : Uuid) (x : Api) : List StoredAction :=
  x.actions.filter (fun a => a.accountId = accountId)

def view (accountId : Uuid) (x : Api) : ApiView where
  limit := x.accounts accountId
  actions := x.ofAccount accountId
  bucket := x.submissions accountId
  answers := (x.answers.filter (fun q => q.1 = accountId)).map Prod.snd

end Api

def ApiLabel.accountId : ApiLabel → Uuid
  | .createAccount accountId _ => accountId
  | .updateAccount accountId _ => accountId
  | .submit _ _ _ _ r => r.accountId
  | .transition accountId _ _ => accountId

section Views

variable {env : ApiEnv} {x x' t : Api} {accountId : Uuid} {l : ApiLabel}

theorem existing_eq (r : BulkActionCreate) (h : x.ofAccount r.accountId = t.ofAccount r.accountId) :
    x.existing r = t.existing r := by
  have hsplit : ∀ (y : Api) (key : String), y.actions.filter (fun a => a.accountId = r.accountId &&
      a.idempotencyKey = some key) =
        (y.ofAccount r.accountId).filter (fun a => a.idempotencyKey = some key) := by
    intro y key
    rw [Api.ofAccount, List.filter_filter]
    exact List.filter_congr (fun a _ => Bool.and_comm _ _)
  unfold Api.existing
  split
  next => rfl
  next key _ => rw [hsplit, hsplit, h]

theorem conflicts_eq {row : StoredAction}
    (h : x.ofAccount row.accountId = t.ofAccount row.accountId) :
    x.conflicts row = t.conflicts row := by
  have hown : ∀ y : Api, y.conflicts row = (row.uniqueKey.isSome &&
      (y.ofAccount row.accountId).any (fun a => a.uniqueKey = row.uniqueKey)) := by
    intro y
    rw [Api.conflicts, Api.ofAccount, List.any_filter]
    cases hk : row.idempotencyKey with
    | none => simp [StoredAction.uniqueKey, hk]
    | some key =>
      have hsame : ∀ a : StoredAction, decide (a.uniqueKey = row.uniqueKey) =
          (decide (a.accountId = row.accountId) && decide (a.uniqueKey = row.uniqueKey)) := by
        intro a
        by_cases he : a.uniqueKey = row.uniqueKey
        · have howner : a.accountId = row.accountId := by
            rw [StoredAction.uniqueKey, StoredAction.uniqueKey, hk] at he
            obtain ⟨_, _, hpair⟩ := Option.map_eq_some_iff.mp he
            exact congrArg Prod.fst hpair
          simp [he, howner]
        · simp [he]
      rw [funext hsame]
  rw [hown, hown, h]

theorem charge_view (hv : x.view accountId = t.view accountId) (bucket : Option Bucket) :
    (x.charge accountId bucket).view accountId = (t.charge accountId bucket).view accountId := by
  injection hv with hlimit hactions hbucket hanswers
  simp only [Api.view, Api.charge, Api.ofAccount, Function.update_self, ApiView.mk.injEq] at *
  exact ⟨hlimit, hactions, trivial, hanswers⟩

theorem store_view (hv : x.view accountId = t.view accountId) (row : StoredAction) :
    (x.store row).view accountId = (t.store row).view accountId := by
  injection hv with hlimit hactions hbucket hanswers
  simp only [Api.view, Api.store, Api.ofAccount, List.filter_append, ApiView.mk.injEq] at *
  exact ⟨hlimit, by rw [hactions], hbucket, hanswers⟩

/-- A request is answered, and changes what its account sees, by what the account sees. -/
theorem createBulkAction_agrees {id : Uuid} {createdAt now : Timestamp} {nowMs : Int}
    {r : BulkActionCreate} (hv : x.view r.accountId = t.view r.accountId) :
    (x.createBulkAction env id createdAt now nowMs r).1 =
        (t.createBulkAction env id createdAt now nowMs r).1 ∧
      (x.createBulkAction env id createdAt now nowMs r).2.view r.accountId =
        (t.createBulkAction env id createdAt now nowMs r).2.view r.accountId := by
  have hlimit : x.accounts r.accountId = t.accounts r.accountId := congrArg ApiView.limit hv
  have hactions : x.ofAccount r.accountId = t.ofAccount r.accountId := congrArg ApiView.actions hv
  have hbucket : x.submissions r.accountId = t.submissions r.accountId :=
    congrArg ApiView.bucket hv
  unfold Api.createBulkAction
  rw [hlimit, existing_eq r hactions]
  cases t.accounts r.accountId with
  | none => exact ⟨rfl, hv⟩
  | some limit =>
    dsimp only
    split
    next => exact ⟨rfl, hv⟩
    next => exact ⟨rfl, hv⟩
    next =>
      split
      next => exact ⟨rfl, hv⟩
      next valid _ =>
        rw [hbucket]
        split
        next => exact ⟨rfl, charge_view hv _⟩
        next d _ =>
          have hconflict : ∀ bucket, (x.charge r.accountId bucket).conflicts
              (valid.row env limit id createdAt r) = (t.charge r.accountId bucket).conflicts
                (valid.row env limit id createdAt r) := fun _ => conflicts_eq hactions
          rw [hconflict]
          split_ifs
          · exact ⟨rfl, charge_view hv _⟩
          · exact ⟨rfl, charge_view hv _⟩
          · exact ⟨rfl, store_view (charge_view hv _) _⟩

theorem answer_view (hv : x.view accountId = t.view accountId) (a : Uuid) (answer : Answer) :
    (x.answer a answer).view accountId = (t.answer a answer).view accountId := by
  injection hv with hlimit hactions hbucket hanswers
  simp only [Api.view, Api.answer, Api.ofAccount, List.filter_append, List.map_append,
    ApiView.mk.injEq] at *
  exact ⟨hlimit, hactions, hbucket, by rw [hanswers]⟩

theorem setLimit_view (hv : x.view accountId = t.view accountId) (limit : RateLimit) :
    (x.setLimit accountId limit).view accountId = (t.setLimit accountId limit).view accountId := by
  injection hv with hlimit hactions hbucket hanswers
  simp only [Api.view, Api.setLimit, Api.ofAccount, Function.update_self, ApiView.mk.injEq] at *
  exact ⟨trivial, hactions, hbucket, hanswers⟩

/-- The update of a status meets the rows of an account one by one. -/
theorem setStatus_ofAccount (x : Api) (a id : Uuid) (status : BulkActionStatus) :
    (x.setStatus a id status).ofAccount accountId = (x.ofAccount accountId).map (fun row =>
      if row.accountId = a ∧ row.id = id then { row with status := status } else row) := by
  rw [Api.ofAccount, Api.ofAccount, Api.setStatus, List.filter_map]
  congr 1
  refine List.filter_congr (fun row _ => ?_)
  rw [Function.comp_apply]
  split_ifs <;> rfl

theorem setStatus_view (hv : x.view accountId = t.view accountId) (a id : Uuid)
    (status : BulkActionStatus) :
    (x.setStatus a id status).view accountId = (t.setStatus a id status).view accountId := by
  injection hv with hlimit hactions hbucket hanswers
  simp only [Api.view, ApiView.mk.injEq]
  exact ⟨hlimit, by rw [setStatus_ofAccount, setStatus_ofAccount, hactions], hbucket, hanswers⟩

/-- A request of another account is not seen. -/
theorem answered_hidden {id : Uuid} {createdAt now : Timestamp} {nowMs : Int} {r : BulkActionCreate}
    {answer : Answer} (hr : r.accountId ≠ accountId)
    (h : Answered env id createdAt now nowMs r x answer x') :
    x'.view accountId = x.view accountId := by
  have hcharge : ∀ bucket, (x.charge r.accountId bucket).view accountId = x.view accountId := by
    intro bucket
    simp [Api.view, Api.charge, Api.ofAccount, Function.update_of_ne (Ne.symm hr)]
  cases h with
  | unasked => rfl
  | replayed _ => rfl
  | refused _ => exact hcharge _
  | @created limit valid d _ _ _ _ _ _ =>
    refine Eq.trans ?_ (hcharge (x.submission env nowMs r.accountId).2)
    have hrow : (valid.row env limit id createdAt r).accountId ≠ accountId := hr
    simp [Api.view, Api.store, Api.ofAccount, List.filter_append, hrow]

theorem step_hidden (hl : l.accountId ≠ accountId) (h : x.step env l = some x') :
    x'.view accountId = x.view accountId := by
  have hlimit : ∀ limit, (x.setLimit l.accountId limit).view accountId = x.view accountId := by
    intro limit
    simp [Api.view, Api.setLimit, Api.ofAccount, Function.update_of_ne (Ne.symm hl)]
  cases l with
  | createAccount a limit =>
    simp only [Api.step] at h
    split_ifs at h
    cases Option.some.inj h
    exact hlimit limit
  | updateAccount a limit =>
    simp only [Api.step] at h
    split_ifs at h <;> cases Option.some.inj h
    · exact hlimit limit
    · rfl
  | submit id createdAt now nowMs r =>
    cases Option.some.inj h
    refine Eq.trans ?_
      (answered_hidden hl (createBulkAction_answered env id createdAt now nowMs r x))
    have hother : ¬ r.accountId = accountId := hl
    simp [Api.view, Api.answer, Api.ofAccount, List.filter_append, hother]
  | transition a id status =>
    cases Option.some.inj h
    have hsame : (x.setStatus a id status).ofAccount accountId = x.ofAccount accountId := by
      rw [setStatus_ofAccount]
      refine (List.map_congr_left (fun row hrow => if_neg (fun hmatch => hl ?_))).trans
        (List.map_id' _)
      have howner : row.accountId = accountId := of_decide_eq_true (List.mem_filter.mp hrow).2
      exact hmatch.1.symm.trans howner
    rw [Api.view, hsame]
    rfl

theorem step_agrees (hv : x.view l.accountId = t.view l.accountId) (h : x.step env l = some x') :
    ∃ t', t.step env l = some t' ∧ x'.view l.accountId = t'.view l.accountId := by
  have hlimit : x.accounts l.accountId = t.accounts l.accountId := congrArg ApiView.limit hv
  cases l with
  | createAccount a limit =>
    have hlimit : x.accounts a = t.accounts a := hlimit
    simp only [Api.step, hlimit] at h ⊢
    split_ifs at h ⊢
    cases Option.some.inj h
    exact ⟨_, rfl, setLimit_view hv limit⟩
  | updateAccount a limit =>
    have hlimit : x.accounts a = t.accounts a := hlimit
    simp only [Api.step, hlimit] at h ⊢
    split_ifs at h ⊢ <;> cases Option.some.inj h
    · exact ⟨_, rfl, setLimit_view hv limit⟩
    · exact ⟨_, rfl, hv⟩
  | submit id createdAt now nowMs r =>
    cases Option.some.inj h
    obtain ⟨hanswer, hview⟩ := @createBulkAction_agrees env x t id createdAt now nowMs r hv
    refine ⟨_, rfl, ?_⟩
    rw [hanswer]
    exact answer_view hview _ _
  | transition a id status =>
    cases Option.some.inj h
    exact ⟨_, rfl, setStatus_view hv a id status⟩

theorem requests_unwind (env : ApiEnv) (accountId : Uuid) :
    Unwinds (Api.step env) (fun l => l.accountId = accountId) (Api.view accountId) where
  hidden := fun hl h => step_hidden (of_decide_eq_false hl) h
  agrees := by
    intro x x' t l hl hv h
    obtain rfl : l.accountId = accountId := of_decide_eq_true hl
    exact step_agrees hv h

/-- Requests are handled one after another. Whatever the other accounts request, and however often:
an account gets the answers, and has the actions and the tokens, that it would have if they had
requested nothing. -/
theorem requests_run_apart {labels : List ApiLabel}
    (h : Runs.steps (Api.step env) x labels = some x') (accountId : Uuid) :
    ∃ t, Runs.steps (Api.step env) x (labels.filter (fun l => l.accountId = accountId)) = some t ∧
      x'.view accountId = t.view accountId :=
  (requests_unwind env accountId).purge h rfl

end Views

/-- The time at which a request asks the submission limiter; other steps do not. -/
def ApiLabel.clock (clock : Int) : ApiLabel → Int
  | .submit _ _ _ nowMs _ => nowMs
  | _ => clock

/-- Requests whose clocks agree. -/
def Api.clocked (env : ApiEnv) (x : Api × Int) (l : ApiLabel) : Option (Api × Int) :=
  if x.2 ≤ l.clock x.2 then (x.1.step env l).map (fun x' => (x', l.clock x.2)) else none

/-- The actions that an account has created, and the tokens it has left, come out of a full bucket
and the refill since `start`. -/
structure Api.Within (env : ApiEnv) (accountId : Uuid) (before : ℕ) (start : Int) (x : Api × Int) :
    Prop where
  reachable : Reachable (x.1.submissions accountId)
  past : ∀ b, x.1.submissions accountId = some b → b.ts ≤ x.2
  budget : ((x.1.ofAccount accountId).length : ℚ) +
      credit env.submissionsPerMinute x.2 (x.1.submissions accountId) ≤
    before + env.submissionsPerMinute + (x.2 - start : ℚ) * env.submissionsPerMinute / 60000

section Submissions

variable {env : ApiEnv} {x x' : Api × Int} {accountId : Uuid} {before : ℕ} {start now' : Int}
  {state : Option Bucket} {nowMs : Int} {limit : ℕ}

theorem within_spent (hx : Api.Within env accountId before start x) {y : Api} (hclock : x.2 ≤ now')
    (hreach : Reachable (y.submissions accountId))
    (hpast : ∀ b, y.submissions accountId = some b → b.ts ≤ now')
    (hspent : ((y.ofAccount accountId).length : ℚ) +
        credit env.submissionsPerMinute now' (y.submissions accountId) ≤
      (x.1.ofAccount accountId).length +
        credit env.submissionsPerMinute now' (x.1.submissions accountId)) :
    Api.Within env accountId before start (y, now') := by
  refine ⟨hreach, hpast, ?_⟩
  have hcredit := credit_advance env.submissionsPerMinute hx.past hclock
  have hbudget := hx.budget
  have hspan := refill_add env.submissionsPerMinute start x.2 now'
  dsimp only
  linarith

/-- Nothing but a request of the account changes how many actions and tokens it has. -/
theorem step_quiet (accountId : Uuid) {y : Api} {l : ApiLabel} (h : x.1.step env l = some y)
    (hl : ∀ id createdAt now nowMs r, l = .submit id createdAt now nowMs r →
      r.accountId ≠ accountId) :
    (y.ofAccount accountId).length = (x.1.ofAccount accountId).length ∧
      y.submissions accountId = x.1.submissions accountId := by
  by_cases howner : l.accountId = accountId
  · cases l with
    | createAccount a limit =>
      simp only [Api.step] at h
      split_ifs at h
      cases Option.some.inj h
      exact ⟨rfl, rfl⟩
    | updateAccount a limit =>
      simp only [Api.step] at h
      split_ifs at h <;> cases Option.some.inj h <;> exact ⟨rfl, rfl⟩
    | submit id createdAt now nowMs r => exact absurd howner (hl id createdAt now nowMs r rfl)
    | transition a id status =>
      cases Option.some.inj h
      rw [setStatus_ofAccount, List.length_map]
      exact ⟨rfl, rfl⟩
  · have hview := step_hidden howner h
    exact ⟨congrArg (List.length ∘ ApiView.actions) hview, congrArg ApiView.bucket hview⟩

theorem within_submit (hx : Api.Within env accountId before start x) {id : Uuid}
    {createdAt now : Timestamp} {r : BulkActionCreate} {answer : Answer} {y : Api}
    (hr : r.accountId = accountId) (hclock : x.2 ≤ nowMs)
    (h : Answered env id createdAt now nowMs r x.1 answer y) :
    Api.Within env accountId before start (y, nowMs) := by
  subst hr
  have hpast : ∀ b, x.1.submissions r.accountId = some b → b.ts ≤ nowMs :=
    fun b hb => (hx.past b hb).trans hclock
  obtain ⟨hreach, hlast, hspent⟩ :=
    consume_spends env.submissionsPerMinute 1 hx.reachable hpast
  have hcharge : ∀ bucket, (x.1.charge r.accountId bucket).submissions r.accountId = bucket :=
    fun bucket => Function.update_self ..
  cases h with
  | unasked => exact within_spent hx hclock hx.reachable hpast le_rfl
  | replayed _ => exact within_spent hx hclock hx.reachable hpast le_rfl
  | refused _ =>
    refine within_spent hx hclock ?_ ?_ ?_ <;> rw [hcharge]
    · exact hreach
    · exact hlast
    · have hgranted := nonneg_granted env.submissionsPerMinute 1 nowMs
        (x.1.submissions r.accountId)
      exact add_le_add_right (le_trans (le_add_of_nonneg_right hgranted) hspent) _
  | @created limit valid d _ _ _ hd hallowed _ =>
    have hstored : ((x.1.charge r.accountId (x.1.submission env nowMs r.accountId).2).store
        (valid.row env limit id createdAt r)).submissions r.accountId =
          (x.1.submission env nowMs r.accountId).2 := hcharge _
    refine within_spent hx hclock ?_ ?_ ?_ <;> rw [hstored]
    · exact hreach
    · exact hlast
    · have hlength : (((x.1.charge r.accountId (x.1.submission env nowMs r.accountId).2).store
          (valid.row env limit id createdAt r)).ofAccount r.accountId).length =
            (x.1.ofAccount r.accountId).length + 1 := by
        simp [Api.ofAccount, Api.store, Api.charge, List.filter_append, ValidRequest.row]
      have hone : (⟨env.submissionsPerMinute, (1 : ℕ), nowMs⟩ : RateLimiter.Call).granted
          (x.1.submissions r.accountId) = 1 := by
        simp only [Api.submission] at hd
        simp [RateLimiter.Call.granted, RateLimiter.Call.consume, hd, hallowed]
      rw [hone] at hspent
      rw [hlength]
      push_cast at hspent ⊢
      unfold Api.submission
      linarith

theorem within_clocked (hx : Api.Within env accountId before start x) {l : ApiLabel}
    (h : Api.clocked env x l = some x') : Api.Within env accountId before start x' := by
  unfold Api.clocked at h
  split_ifs at h with hclock
  obtain ⟨y, hy, rfl⟩ := Option.map_eq_some_iff.mp h
  have hpast : ∀ b, x.1.submissions accountId = some b → b.ts ≤ l.clock x.2 :=
    fun b hb => (hx.past b hb).trans hclock
  by_cases hl : ∃ id createdAt now nowMs r, l = .submit id createdAt now nowMs r ∧
      r.accountId = accountId
  · obtain ⟨id, createdAt, now, nowMs, r, rfl, hr⟩ := hl
    cases Option.some.inj hy
    have hsubmit := within_submit hx hr hclock
      (createBulkAction_answered env id createdAt now nowMs r x.1)
    exact ⟨hsubmit.reachable, hsubmit.past, hsubmit.budget⟩
  · obtain ⟨hlength, hbucket⟩ := step_quiet accountId hy
      (fun id createdAt now nowMs r he howner => hl ⟨id, createdAt, now, nowMs, r, he, howner⟩)
    refine within_spent hx hclock (hbucket ▸ hx.reachable) (hbucket ▸ hpast) ?_
    rw [hlength, hbucket]

/-- In exact arithmetic: however it repeats, schedules or gets its requests refused, an account
never creates more actions than the submission limit and its refill since. -/
theorem submissions_bounded {x₀ x : Api × Int} (accountId : Uuid)
    (hreach : Reachable (x₀.1.submissions accountId))
    (hpast : ∀ b, x₀.1.submissions accountId = some b → b.ts ≤ x₀.2)
    (h : Runs.Reaches (Api.clocked env) Runs.anyStep x₀ x) :
    ((x.1.ofAccount accountId).length : ℚ) ≤ (x₀.1.ofAccount accountId).length +
      env.submissionsPerMinute + (x.2 - x₀.2 : ℚ) * env.submissionsPerMinute / 60000 := by
  have hstart : Api.Within env accountId (x₀.1.ofAccount accountId).length x₀.2 x₀ := by
    refine ⟨hreach, hpast, ?_⟩
    simpa using credit_le_limit env.submissionsPerMinute x₀.2 (x₀.1.submissions accountId)
  have hx := h.invariant (P := Api.Within env accountId (x₀.1.ofAccount accountId).length x₀.2)
    (fun hs _ hstep => within_clocked hs hstep) hstart
  have hcredit : 0 ≤ credit env.submissionsPerMinute x.2 (x.1.submissions accountId) :=
    credit_nonneg (fun b hb => (hx.reachable.bucket b hb).1)
  have hbudget := hx.budget
  linarith

end Submissions

/-- The second account uses up its token and is told to wait; the first one gets its own. -/
def rivalRequests : List ApiLabel :=
  [.createAccount 1 hundredPerMinute, .createAccount 2 hundredPerMinute,
    .submit 4 4 0 0 (ageRequest 2 (some "k") shortKeyed),
    .submit 5 5 0 0 (ageRequest 2 none unkeyed),
    .submit 6 6 0 10 (ageRequest 1 (some "k") shortKeyed), .transition 2 4 .planning,
    .submit 7 7 0 60010 (ageRequest 1 none unkeyed)]

theorem requests_run_apart_rivals :
    ∃ x t, Runs.steps (Api.step strictApi) emptyApi rivalRequests = some x ∧
      Runs.steps (Api.step strictApi) emptyApi
        (rivalRequests.filter (fun l => l.accountId = 1)) = some t ∧
      x.view 1 = t.view 1 ∧ x.actions.map StoredAction.id = [4, 6, 7] := by
  have hrun : (Runs.steps (Api.step strictApi) emptyApi rivalRequests).map
      (fun x => x.actions.map StoredAction.id) = some [4, 6, 7] := by decide +kernel
  obtain ⟨x, hx, hids⟩ := Option.map_eq_some_iff.mp hrun
  obtain ⟨t, ht, hview⟩ := requests_run_apart hx 1
  exact ⟨x, t, hx, ht, hview, hids⟩

/-- Two actions in a minute are all that one token a minute allows. -/
theorem submissions_bounded_rivals :
    ∃ x : Api × Int, Runs.Reaches (Api.clocked strictApi) Runs.anyStep (emptyApi, 0) x ∧
      (x.1.ofAccount 1).length = 2 ∧ x.2 = 60010 ∧
      ((x.1.ofAccount 1).length : ℚ) ≤ 0 + (1 : ℕ) + (x.2 - 0 : ℚ) * (1 : ℕ) / 60000 := by
  have hrun : (Runs.steps (Api.clocked strictApi) (emptyApi, 0) rivalRequests).map
      (fun x => ((x.1.ofAccount 1).length, x.2)) = some (2, 60010) := by decide +kernel
  obtain ⟨x, hx, hend⟩ := Option.map_eq_some_iff.mp hrun
  have hr := Runs.reaches_of_steps hx
  have hreach : Reachable (emptyApi.submissions 1) := .none
  have hbound := submissions_bounded 1 hreach (fun b hb => by cases hb) hr
  exact ⟨x, hr, congrArg Prod.fst hend, congrArg Prod.snd hend, by
    simpa [emptyApi, strictApi, Api.ofAccount] using hbound⟩

end BulkActions
