import BulkActions.Credit
import BulkActions.Noninterference
import BulkActions.Registry
import BulkActions.RetryAfter
import BulkActions.StoredFilter
import BulkActions.Submission

namespace BulkActions

open RateLimiter

/-- What `AccountCreate` and `update_account` accept. -/
abbrev RateLimit := { n : ℕ // 1 ≤ n ∧ n ≤ 10000000 }

structure BulkActionCreate where
  accountId : Uuid
  entityType : String
  actionType : String
  payload : Payload
  batchSize : Option ℕ := none
  scheduledAt : Option Timestamp := none
  idempotencyKey : Option String := none
  sized : ∀ n, batchSize = some n → 1 ≤ n ∧ n ≤ 10000
  keyed : ∀ key, idempotencyKey = some key → key.length ≤ 255

/-- The settings of the API, and what it takes from Python, pydantic and PostgreSQL; `strip` is that
of `str`. -/
structure ApiEnv where
  settings : Settings
  submissionsPerMinute : ℕ
  text : PyText
  py : Pydantic
  dump : JsonDump
  column : Jsonb
  strip : String → String

/-- The validator of `entity_type` and `action_type`. -/
def ApiEnv.lower (env : ApiEnv) (value : String) : String := env.text.lower (env.strip value)

/-- A row of `bulk_actions`, as far as requests read and write it; the configuration is as the
column gives it back. -/
structure StoredAction where
  id : Uuid
  accountId : Uuid
  entityType : String
  actionType : String
  status : BulkActionStatus
  configuration : Payload
  batchSize : ℕ
  scheduledAt : Option Timestamp
  idempotencyKey : Option String
  createdAt : Timestamp

def StoredAction.uniqueKey (a : StoredAction) : Option (Uuid × String) :=
  a.idempotencyKey.map (fun key => (a.accountId, key))

/-- A `plan_bulk_action` job, enqueued as `plan:` and the id of its action. -/
structure PlanJob where
  actionId : Uuid
  deferUntil : Option Timestamp
  deriving DecidableEq, Repr

inductive RequestError where
  | notFound (detail : String)
  | multipleResults
  | unknownType (detail : String)
  | config (error : ConfigError)
  | notInTheFuture
  | limiter (error : String)
  | rateLimited (error : RateLimitError)
  | integrity

/-- `(action, created)`, or what is raised. -/
abbrev Answer := Except RequestError (StoredAction × Bool)

/-- The platform as its API sees it; `submissions` are the buckets of the submission limit. -/
structure Api where
  accounts : Uuid → Option RateLimit
  actions : List StoredAction
  submissions : Uuid → Option Bucket
  planJobs : List PlanJob
  answers : List (Uuid × Answer)

/-- What a request comes to when it passes every check. -/
structure ValidRequest where
  entityType : EntityType
  actionType : ActionType
  config : Config

def checkScheduledAt (now : Timestamp) : Option Timestamp → Except RequestError Unit
  | none => .ok ()
  | some t => if t ≤ now then .error .notInTheFuture else .ok ()

/-- The checks that come before anything is spent. -/
def BulkActionCreate.validate (env : ApiEnv) (now : Timestamp) (r : BulkActionCreate) :
    Except RequestError ValidRequest := do
  let entityName := env.lower r.entityType
  let entity ← (shipped.getEntity env.text entityName).mapError .unknownType
  let handler ← (shipped.getAction shippedModules env.text (env.lower r.actionType)
    (some entityName)).mapError .unknownType
  let config ← (handler.validateConfig env.text env.py (getEntity entity) r.payload).mapError
    .config
  checkScheduledAt now r.scheduledAt
  pure ⟨entity, handler, config⟩

def ValidRequest.row (env : ApiEnv) (limit : RateLimit) (id : Uuid) (createdAt : Timestamp)
    (r : BulkActionCreate) (v : ValidRequest) : StoredAction where
  id := id
  accountId := r.accountId
  entityType := (getEntity v.entityType).name
  actionType := v.actionType.name
  status := if r.scheduledAt.isSome then .scheduled else .queued
  configuration := env.column.members (v.config.modelDump env.dump)
  batchSize := effectiveBatchSize env.settings r.batchSize limit
  scheduledAt := r.scheduledAt
  idempotencyKey := r.idempotencyKey
  createdAt := createdAt

namespace Api

/-- The rows of the replay lookup; without a key, or for an empty one, there is none. -/
def existing (x : Api) (r : BulkActionCreate) : List StoredAction :=
  match r.idempotencyKey with
  | none => []
  | some key =>
    if key = "" then []
    else x.actions.filter (fun a => a.accountId = r.accountId && a.idempotencyKey = some key)

/-- `uq_bulk_actions_idempotency`. -/
def conflicts (x : Api) (row : StoredAction) : Bool :=
  row.uniqueKey.isSome && x.actions.any (fun a => a.uniqueKey = row.uniqueKey)

def charge (x : Api) (accountId : Uuid) (bucket : Option Bucket) : Api :=
  { x with submissions := Function.update x.submissions accountId bucket }

/-- INSERT and enqueue; arq drops a job id that it knows. -/
def store (x : Api) (row : StoredAction) : Api :=
  { x with
    actions := x.actions ++ [row]
    planJobs := if x.planJobs.any (fun job => job.actionId = row.id) then x.planJobs
      else x.planJobs ++ [⟨row.id, row.scheduledAt⟩] }

/-- `create_bulk_action`, for a request that has the platform to itself; `id` is the key its row
would get, and `createdAt` the time that the database would give it. -/
def createBulkAction (env : ApiEnv) (id : Uuid) (createdAt now : Timestamp) (nowMs : Int)
    (r : BulkActionCreate) (x : Api) : Answer × Api :=
  match x.accounts r.accountId with
  | none => (.error (.notFound s!"Account '{env.text.str (.uuid r.accountId)}' does not exist."), x)
  | some limit =>
    match x.existing r with
    | [a] => (.ok (a, false), x)
    | _ :: _ :: _ => (.error .multipleResults, x)
    | [] =>
      match r.validate env now with
      | .error e => (.error e, x)
      | .ok valid =>
        let reply :=
          RateLimiter.consume env.submissionsPerMinute 1 nowMs (x.submissions r.accountId)
        let x := x.charge r.accountId reply.2
        match reply.1 with
        | .error e => (.error (.limiter e), x)
        | .ok d =>
          if !d.allowed then
            (.error (.rateLimited (submissionError env.submissionsPerMinute d)), x)
          else
            let row := valid.row env limit id createdAt r
            if x.conflicts row then (.error .integrity, x) else (.ok (row, true), x.store row)

end Api

inductive ApiLabel where
  | createAccount (accountId : Uuid) (limit : RateLimit)
  | updateAccount (accountId : Uuid) (limit : RateLimit)
  | submit (id : Uuid) (createdAt now : Timestamp) (nowMs : Int) (request : BulkActionCreate)
  /-- the planner, a worker or a cancellation -/
  | transition (accountId id : Uuid) (status : BulkActionStatus)

namespace Api

def setLimit (x : Api) (accountId : Uuid) (limit : RateLimit) : Api :=
  { x with accounts := Function.update x.accounts accountId (some limit) }

def setStatus (x : Api) (accountId id : Uuid) (status : BulkActionStatus) : Api :=
  { x with actions := x.actions.map (fun a =>
    if a.accountId = accountId ∧ a.id = id then { a with status := status } else a) }

def answer (x : Api) (accountId : Uuid) (answer : Answer) : Api :=
  { x with answers := x.answers ++ [(accountId, answer)] }

def step (env : ApiEnv) (x : Api) : ApiLabel → Option Api
  | .createAccount accountId limit =>
    if (x.accounts accountId).isSome then none else some (x.setLimit accountId limit)
  | .updateAccount accountId limit =>
    if (x.accounts accountId).isSome then some (x.setLimit accountId limit) else some x
  | .submit id createdAt now nowMs r =>
    let answered := x.createBulkAction env id createdAt now nowMs r
    some (answered.2.answer r.accountId answered.1)
  | .transition accountId id status => some (x.setStatus accountId id status)

end Api

/-- The answer of the submission limiter to a request. -/
def Api.submission (env : ApiEnv) (x : Api) (nowMs : Int) (accountId : Uuid) :
    Except String Decision × Option Bucket :=
  RateLimiter.consume env.submissionsPerMinute 1 nowMs (x.submissions accountId)

/-- Every way a request can be answered: what is refused or replayed before the limiter is asked
changes nothing, and what is refused afterwards only spends a token of its account. -/
inductive Answered (env : ApiEnv) (id : Uuid) (createdAt now : Timestamp) (nowMs : Int)
    (r : BulkActionCreate) (x : Api) : Answer → Api → Prop where
  | unasked {e} : Answered env id createdAt now nowMs r x (.error e) x
  | replayed {a} : x.existing r = [a] → Answered env id createdAt now nowMs r x (.ok (a, false)) x
  | refused {e} : x.existing r = [] →
      Answered env id createdAt now nowMs r x (.error e)
        (x.charge r.accountId (x.submission env nowMs r.accountId).2)
  | created {limit valid d} : x.accounts r.accountId = some limit → x.existing r = [] →
      r.validate env now = .ok valid →
      (x.submission env nowMs r.accountId).1 = .ok d → d.allowed →
      x.conflicts (valid.row env limit id createdAt r) = false →
      Answered env id createdAt now nowMs r x (.ok (valid.row env limit id createdAt r, true))
        ((x.charge r.accountId (x.submission env nowMs r.accountId).2).store
          (valid.row env limit id createdAt r))

theorem createBulkAction_answered (env : ApiEnv) (id : Uuid) (createdAt now : Timestamp)
    (nowMs : Int) (r : BulkActionCreate) (x : Api) :
    Answered env id createdAt now nowMs r x (x.createBulkAction env id createdAt now nowMs r).1
      (x.createBulkAction env id createdAt now nowMs r).2 := by
  unfold Api.createBulkAction
  split
  next => exact .unasked
  next limit hlimit =>
    split
    next a ha => exact .replayed ha
    next => exact .unasked
    next hnone =>
      split
      next => exact .unasked
      next valid hvalid =>
        dsimp only
        split
        next => exact .refused hnone
        next d hd =>
          split_ifs with hdenied hconflict
          · exact .refused hnone
          · exact .refused hnone
          · refine .created hlimit hnone hvalid hd (by simpa using hdenied) ?_
            exact Bool.eq_false_iff.mpr hconflict

/-- What the planner and the workers make of a row: its entity, its handler, and the configuration
that its request came to, as far as the column keeps it, with a filter that is still accepted. -/
structure StoredAction.Loads (env : ApiEnv) (row : StoredAction) (v : ValidRequest) : Prop where
  entity : shipped.getEntity env.text row.entityType = .ok v.entityType
  handler : shipped.getAction shippedModules env.text row.actionType (some row.entityType) =
    .ok v.actionType
  config : ∃ stored, v.actionType.configModel env.py row.configuration = .ok (some stored) ∧
    v.config.ReadFrom env.column stored ∧
    validateFilter env.text (getEntity v.entityType) stored.selectionFilters = .ok ()

/-- A row is that of one of the requests, as it was validated. -/
def StoredAction.Requested (env : ApiEnv) (requests : List ApiLabel) (row : StoredAction) : Prop :=
  ∃ now nowMs r v limit, ApiLabel.submit row.id row.createdAt now nowMs r ∈ requests ∧
    r.validate env now = .ok v ∧
      row = { v.row env limit row.id row.createdAt r with status := row.status } ∧
    row.Loads env v

/-- The id of the action that an answer announces as created. -/
def Answer.createdId : Answer → Option Uuid
  | .ok (row, true) => some row.id
  | _ => none

/-- The platform after some requests. -/
structure Api.Sound (env : ApiEnv) (requests : List ApiLabel) (x : Api) : Prop where
  requested : ∀ row ∈ x.actions, row.Requested env requests
  sized : ∀ row ∈ x.actions, 1 ≤ row.batchSize ∧ row.batchSize ≤ max 1 env.settings.maxBatchSize
  owned : ∀ row ∈ x.actions, (x.accounts row.accountId).isSome
  ids : (x.actions.map StoredAction.id).Nodup
  keys : x.actions.Pairwise (fun a b => a.uniqueKey = none ∨ a.uniqueKey ≠ b.uniqueKey)
  jobs : x.planJobs = x.actions.map (fun a => ⟨a.id, a.scheduledAt⟩)
  created : x.answers.filterMap (fun q => q.2.createdId) = x.actions.map StoredAction.id
  answered : ∀ q ∈ x.answers, ∀ row created, q.2 = .ok (row, created) →
    row.accountId = q.1 ∧ ∃ row' ∈ x.actions, { row' with status := row.status } = row

/-- A key that is drawn for a row is new. -/
def ApiLabel.Fresh (x : Api) : ApiLabel → Prop
  | .submit id _ _ _ _ => ∀ row ∈ x.actions, row.id ≠ id
  | _ => True

section Rows

variable {env : ApiEnv} {now : Timestamp} {r : BulkActionCreate} {valid : ValidRequest}

theorem validate_ok (h : r.validate env now = .ok valid) :
    shipped.getEntity env.text (env.lower r.entityType) = .ok valid.entityType ∧
      shipped.getAction shippedModules env.text (env.lower r.actionType)
        (some (env.lower r.entityType)) = .ok valid.actionType ∧
      valid.actionType.validateConfig env.text env.py (getEntity valid.entityType) r.payload =
        .ok valid.config ∧
      ∀ t, r.scheduledAt = some t → now < t := by
  obtain ⟨entity, hentity, h⟩ := Checks.bind_eq_ok.mp h
  obtain ⟨handler, hhandler, h⟩ := Checks.bind_eq_ok.mp h
  obtain ⟨config, hconfig, h⟩ := Checks.bind_eq_ok.mp h
  obtain ⟨_, hscheduled, h⟩ := Checks.bind_eq_ok.mp h
  cases Checks.pure_eq_ok.mp h
  refine ⟨Checks.mapError_eq_ok.mp hentity, Checks.mapError_eq_ok.mp hhandler,
    Checks.mapError_eq_ok.mp hconfig, fun t ht => ?_⟩
  rw [ht, checkScheduledAt] at hscheduled
  split_ifs at hscheduled with hle
  exact lt_of_not_ge hle

theorem shipped_getEntity (text : PyText) (t : EntityType) :
    shipped.getEntity text (getEntity t).name = .ok t := by
  cases t <;> rfl

theorem shipped_getAction (text : PyText) (a : ActionType) (entityName : String) :
    shipped.getAction shippedModules text a.name (some entityName) = .ok a := by
  cases a <;> rfl

theorem row_loads (hb : env.py.ReadsBack env.dump) (h : r.validate env now = .ok valid)
    (limit : RateLimit) (id : Uuid) (createdAt : Timestamp) :
    (valid.row env limit id createdAt r).Loads env valid := by
  obtain ⟨_, _, hconfig, _⟩ := validate_ok h
  obtain ⟨stored, hstored, hread⟩ :=
    config_read_from (j := env.column) hb (config_reads_back hb hconfig).1
  exact ⟨shipped_getEntity _ _, shipped_getAction _ _ _, stored, hstored, hread,
    hread.validFilter (validateConfig_filter hconfig).2⟩

theorem row_sized (limit : RateLimit) (id : Uuid) (createdAt : Timestamp) :
    1 ≤ (valid.row env limit id createdAt r).batchSize ∧
      (valid.row env limit id createdAt r).batchSize ≤ max 1 env.settings.maxBatchSize := by
  refine ⟨le_max_left _ _, max_le (le_max_left _ _) ((min_le_left _ _).trans ?_)⟩
  exact max_le_max le_rfl (min_le_right _ _)

end Rows

section Soundness

variable {env : ApiEnv} {requests : List ApiLabel} {x x' : Api} {l : ApiLabel}

theorem StoredAction.Requested.setStatus {row : StoredAction} (h : row.Requested env requests)
    (status : BulkActionStatus) : { row with status := status }.Requested env requests := by
  obtain ⟨now, nowMs, r, v, limit, hsubmit, hvalid, hrow, hloads⟩ := h
  refine ⟨now, nowMs, r, v, limit, hsubmit, hvalid, ?_, hloads.entity, hloads.handler,
    hloads.config⟩
  exact congrArg (fun a : StoredAction => { a with status := status }) hrow

theorem StoredAction.Requested.append {row : StoredAction} (h : row.Requested env requests)
    (l : ApiLabel) : row.Requested env (requests ++ [l]) := by
  obtain ⟨now, nowMs, r, v, limit, hsubmit, hrest⟩ := h
  exact ⟨now, nowMs, r, v, limit, List.mem_append_left _ hsubmit, hrest⟩

theorem Api.Sound.append (hx : x.Sound env requests) (l : ApiLabel) :
    x.Sound env (requests ++ [l]) :=
  { hx with requested := fun row hrow => (hx.requested row hrow).append l }

theorem Api.Sound.of_same (hx : x.Sound env requests) (hactions : x'.actions = x.actions)
    (howned : ∀ a, (x.accounts a).isSome → (x'.accounts a).isSome)
    (hjobs : x'.planJobs = x.planJobs) (hanswers : x'.answers = x.answers) :
    x'.Sound env requests where
  requested := hactions ▸ hx.requested
  sized := hactions ▸ hx.sized
  owned := fun row hrow => howned _ (hx.owned row (hactions ▸ hrow))
  ids := hactions ▸ hx.ids
  keys := hactions ▸ hx.keys
  jobs := by rw [hjobs, hactions, hx.jobs]
  created := by rw [hanswers, hactions, hx.created]
  answered := by rw [hanswers, hactions]; exact hx.answered

/-- An answer that announces no new action and names none that is not there. -/
theorem sound_answer (hx : x.Sound env requests) {accountId : Uuid} {answer : Answer}
    (hnew : answer.createdId = none)
    (hstored : ∀ row created, answer = .ok (row, created) →
      row.accountId = accountId ∧ ∃ row' ∈ x.actions, { row' with status := row.status } = row) :
    (x.answer accountId answer).Sound env requests where
  requested := hx.requested
  sized := hx.sized
  owned := hx.owned
  ids := hx.ids
  keys := hx.keys
  jobs := hx.jobs
  created := by simp [Api.answer, List.filterMap_append, hnew, hx.created]
  answered := by
    intro q hq row created hok
    rcases List.mem_append.mp hq with hq | hq
    · exact hx.answered q hq row created hok
    · cases List.mem_singleton.mp hq
      exact hstored row created hok

theorem sound_charge (hx : x.Sound env requests) (accountId : Uuid) (bucket : Option Bucket) :
    (x.charge accountId bucket).Sound env requests :=
  hx.of_same rfl (fun _ h => h) rfl rfl

theorem sound_setStatus (hx : x.Sound env requests) (accountId id : Uuid)
    (status : BulkActionStatus) :
    (x.setStatus accountId id status).Sound env requests := by
  unfold Api.setStatus
  set f : StoredAction → StoredAction := fun a =>
    if a.accountId = accountId ∧ a.id = id then { a with status := status } else a with hset
  have hf : ∀ a, ∃ status, f a = { a with status := status } := by
    intro a
    by_cases h : a.accountId = accountId ∧ a.id = id
    · exact ⟨status, if_pos h⟩
    · exact ⟨a.status, if_neg h⟩
  have hsame : ∀ {β : Type} (g : StoredAction → β),
      (∀ a status, g { a with status := status } = g a) →
        (x.actions.map f).map g = x.actions.map g := by
    intro β g hg
    rw [List.map_map]
    refine List.map_congr_left (fun a _ => ?_)
    obtain ⟨status, hfa⟩ := hf a
    rw [Function.comp_apply, hfa, hg]
  have hkey : ∀ a, (f a).uniqueKey = a.uniqueKey := by
    intro a
    obtain ⟨status, hfa⟩ := hf a
    rw [hfa]
    rfl
  have hmem : ∀ {P : StoredAction → Prop}, (∀ a status, P a → P { a with status := status }) →
      (∀ a ∈ x.actions, P a) → ∀ row ∈ x.actions.map f, P row := by
    intro P hP hold row hrow
    obtain ⟨a, ha, rfl⟩ := List.mem_map.mp hrow
    obtain ⟨status, hfa⟩ := hf a
    rw [hfa]
    exact hP a status (hold a ha)
  refine ⟨hmem (fun _ _ hrow => hrow.setStatus _) hx.requested,
    hmem (fun _ _ hsized => hsized) hx.sized, hmem (fun _ _ howned => howned) hx.owned,
    ?_, ?_, ?_, ?_, ?_⟩
  · exact hsame StoredAction.id (fun _ _ => rfl) ▸ hx.ids
  · exact List.pairwise_map.mpr (hx.keys.imp (fun {a b} h => by rwa [hkey a, hkey b]))
  · exact hx.jobs.trans (hsame (fun a => (⟨a.id, a.scheduledAt⟩ : PlanJob)) (fun _ _ => rfl)).symm
  · exact hx.created.trans (hsame StoredAction.id (fun _ _ => rfl)).symm
  · intro q hq row created hok
    obtain ⟨howner, row', hrow', hsaved⟩ := hx.answered q hq row created hok
    obtain ⟨status, hfa⟩ := hf row'
    exact ⟨howner, f row', List.mem_map_of_mem hrow', by rw [hfa]; exact hsaved⟩

theorem mem_existing {r : BulkActionCreate} {a : StoredAction} (h : a ∈ x.existing r) :
    a ∈ x.actions ∧ a.accountId = r.accountId := by
  unfold Api.existing at h
  split at h
  next => cases h
  next key hkey =>
    split_ifs at h with hempty
    · cases h
    · obtain ⟨ha, hmatch⟩ := List.mem_filter.mp h
      exact ⟨ha, of_decide_eq_true (Bool.and_eq_true_iff.mp hmatch).1⟩

/-- A new row, with its job and its answer. -/
theorem sound_store (hx : x.Sound env requests) {row : StoredAction}
    (hrequested : row.Requested env requests)
    (hsized : 1 ≤ row.batchSize ∧ row.batchSize ≤ max 1 env.settings.maxBatchSize)
    (howned : (x.accounts row.accountId).isSome) (hfresh : ∀ a ∈ x.actions, a.id ≠ row.id)
    (hkey : x.conflicts row = false) :
    ((x.store row).answer row.accountId (.ok (row, true))).Sound env requests := by
  have hjob : x.planJobs.any (fun job => job.actionId = row.id) = false := by
    rw [hx.jobs, List.any_eq_false]
    intro job hjob
    obtain ⟨a, ha, rfl⟩ := List.mem_map.mp hjob
    simpa using hfresh a ha
  have hmem : ∀ {P : StoredAction → Prop}, (∀ a ∈ x.actions, P a) → P row →
      ∀ a ∈ x.actions ++ [row], P a := by
    intro P hold hnew a ha
    rcases List.mem_append.mp ha with ha | ha
    · exact hold a ha
    · exact List.mem_singleton.mp ha ▸ hnew
  refine ⟨hmem hx.requested hrequested, hmem hx.sized hsized, hmem hx.owned howned,
    ?_, ?_, ?_, ?_, ?_⟩
  · refine (List.map_append ..).symm ▸ List.nodup_append.mpr
      ⟨hx.ids, List.pairwise_singleton _ _, ?_⟩
    intro i hi j hj
    obtain ⟨a, ha, rfl⟩ := List.mem_map.mp hi
    cases List.mem_singleton.mp hj
    exact hfresh a ha
  · refine List.pairwise_append.mpr ⟨hx.keys, List.pairwise_singleton _ _, ?_⟩
    intro a ha b hb
    cases List.mem_singleton.mp hb
    refine or_iff_not_imp_left.mpr (fun hsome he => ?_)
    have hany : x.conflicts row = true := by
      rw [Api.conflicts, Bool.and_eq_true_iff, List.any_eq_true]
      exact ⟨by rw [← he]; exact Option.isSome_iff_ne_none.mpr hsome, a, ha, decide_eq_true he⟩
    rw [hkey] at hany
    cases hany
  · dsimp only [Api.answer, Api.store]
    rw [if_neg (Bool.eq_false_iff.mp hjob), hx.jobs, List.map_append]
    rfl
  · dsimp only [Api.answer, Api.store]
    rw [List.filterMap_append, hx.created, List.map_append]
    rfl
  · intro q hq row' created hok
    rcases List.mem_append.mp hq with hq | hq
    · obtain ⟨howner, saved, hsaved, he⟩ := hx.answered q hq row' created hok
      exact ⟨howner, saved, List.mem_append_left _ hsaved, he⟩
    · cases List.mem_singleton.mp hq
      cases hok
      exact ⟨rfl, row, List.mem_append_right _ (List.mem_singleton_self row), rfl⟩

theorem sound_setLimit (hx : x.Sound env requests) (accountId : Uuid) (limit : RateLimit) :
    (x.setLimit accountId limit).Sound env requests := by
  refine hx.of_same rfl (fun a ha => ?_) rfl rfl
  by_cases he : a = accountId <;> simp [Api.setLimit, he, ha]

theorem requests_sound (hb : env.py.ReadsBack env.dump) (hx : x.Sound env requests)
    (hfresh : l.Fresh x) (h : x.step env l = some x') : x'.Sound env (requests ++ [l]) := by
  have hx := hx.append l
  cases l with
  | createAccount accountId limit =>
    simp only [Api.step] at h
    split_ifs at h with htaken
    cases Option.some.inj h
    exact sound_setLimit hx accountId limit
  | updateAccount accountId limit =>
    simp only [Api.step] at h
    split_ifs at h with hfound <;> cases Option.some.inj h
    · exact sound_setLimit hx accountId limit
    · exact hx
  | transition accountId id status =>
    cases Option.some.inj h
    exact sound_setStatus hx accountId id status
  | submit id createdAt now nowMs r =>
    cases Option.some.inj h
    have hanswer := createBulkAction_answered env id createdAt now nowMs r x
    generalize x.createBulkAction env id createdAt now nowMs r = answered at hanswer
    obtain ⟨answer, x'⟩ := answered
    cases hanswer with
    | unasked => exact sound_answer hx rfl (fun _ _ hok => by cases hok)
    | @replayed a ha =>
      obtain ⟨hmem, howner⟩ := mem_existing (ha ▸ List.mem_singleton_self a)
      refine sound_answer hx rfl (fun row created hok => ?_)
      cases hok
      exact ⟨howner, a, hmem, rfl⟩
    | refused _ => exact sound_answer (sound_charge hx _ _) rfl (fun _ _ hok => by cases hok)
    | @created limit valid d hlimit _ hvalid _ _ hconflict =>
      have hrequested : (valid.row env limit id createdAt r).Requested env
          (requests ++ [.submit id createdAt now nowMs r]) :=
        ⟨now, nowMs, r, valid, limit, List.mem_append_right _ (List.mem_singleton_self _), hvalid,
          rfl, row_loads hb hvalid limit id createdAt⟩
      exact sound_store (sound_charge hx _ _) hrequested (row_sized limit id createdAt)
        (Option.isSome_iff_exists.mpr ⟨limit, hlimit⟩) hfresh hconflict

theorem sound_start (hactions : x.actions = []) (hjobs : x.planJobs = [])
    (hanswers : x.answers = []) : x.Sound env [] where
  requested := by simp [hactions]
  sized := by simp [hactions]
  owned := by simp [hactions]
  ids := by simp [hactions]
  keys := by simp [hactions]
  jobs := by simp [hactions, hjobs]
  created := by simp [hactions, hanswers]
  answered := by simp [hanswers]

/-- Whatever is requested: every action that has been accepted, once, is stored under its account,
is planned by one job at its time, and loads as the configuration that its own request was
validated to. -/
theorem accepted_actions_load (hb : env.py.ReadsBack env.dump) {x₀ : Api}
    (hactions : x₀.actions = []) (hjobs : x₀.planJobs = []) (hanswers : x₀.answers = [])
    (h : Runs.Reaches (Runs.traced (Api.step env)) (fun y l => l.Fresh y.1) (x₀, [])
      (x, requests)) : x.Sound env requests := by
  refine h.invariant (P := fun y => y.1.Sound env y.2) (fun {y y' l} hs hfresh hstep => ?_)
    (sound_start hactions hjobs hanswers)
  obtain ⟨hstep, htrace⟩ := Runs.traced_eq_some hstep
  exact htrace ▸ requests_sound hb hs hfresh hstep

end Soundness

/-- One submission a minute for an account. -/
def strictApi : ApiEnv where
  settings := {}
  submissionsPerMinute := 1
  text := asciiText
  py := decimalPydantic
  dump := decimalDump
  column := plainJsonb
  strip s := s

/-- A request to set the age of a contact. -/
def ageRequest (accountId : Uuid) (key : Option String)
    (hkey : ∀ k, key = some k → k.length ≤ 255) :
    BulkActionCreate where
  accountId := accountId
  entityType := "contact"
  actionType := "update"
  payload := [("updates", .obj [("age", .int 41)]), ("entity_ids", .arr [.str "7"])]
  idempotencyKey := key
  sized := by simp
  keyed := hkey

theorem unkeyed (k : String) (h : none = some k) : k.length ≤ 255 := by
  cases h

theorem shortKeyed (k : String) (h : some "k" = some k) : k.length ≤ 255 := by
  cases h
  decide

def hundredPerMinute : RateLimit := ⟨100, by decide⟩

def emptyApi : Api := ⟨fun _ => none, [], fun _ => none, [], []⟩

/-- An account's first request is accepted, replayed under its key, and planned; the next one is
denied a token. -/
def someRequests : List ApiLabel :=
  [.createAccount 1 hundredPerMinute, .submit 5 5 0 0 (ageRequest 1 (some "k") shortKeyed),
    .transition 1 5 .planning, .submit 6 6 0 10 (ageRequest 1 (some "k") shortKeyed),
    .submit 7 7 0 20 (ageRequest 1 none unkeyed), .submit 8 8 0 30 (ageRequest 2 none unkeyed)]

theorem accepted_actions_load_age :
    ∃ x requests, Runs.Reaches (Runs.traced (Api.step strictApi)) (fun y l => l.Fresh y.1)
        (emptyApi, []) (x, requests) ∧
      x.actions.map StoredAction.id = [5] ∧ requests.length = 6 ∧ x.Sound strictApi requests := by
  have hrun : (Runs.checkedSteps (Runs.traced (Api.step strictApi)) (fun y l => match l with
      | .submit id _ _ _ _ => y.1.actions.all (fun a => a.id ≠ id)
      | _ => true) (emptyApi, []) someRequests).map
        (fun y => (y.1.actions.map StoredAction.id, y.2.length)) = some ([5], 6) := by
    decide +kernel
  obtain ⟨⟨x, requests⟩, hx, hend⟩ := Option.map_eq_some_iff.mp hrun
  have hr : Runs.Reaches (Runs.traced (Api.step strictApi)) (fun y l => l.Fresh y.1)
      (emptyApi, []) (x, requests) :=
    Runs.reaches_checked (fun {y l} hc => by
      cases l with
      | submit id createdAt now nowMs r => simpa [ApiLabel.Fresh] using hc
      | _ => trivial) hx
  exact ⟨x, requests, hr, congrArg Prod.fst hend, congrArg Prod.snd hend,
    accepted_actions_load decimal_readsBack rfl rfl rfl hr⟩

end BulkActions
