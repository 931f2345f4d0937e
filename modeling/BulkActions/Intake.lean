import BulkActions.Submission
import BulkActions.TokenBucket

namespace BulkActions

open ReadCommitted RateLimiter

/-- What the unique constraint of `bulk_actions` compares; rows without a key never conflict. -/
def BulkAction.uniqueKey (a : BulkAction) : Option (Uuid × String) :=
  a.idempotencyKey.map (fun key => (a.accountId, key))

/-- The WHERE clauses of the replay lookup. -/
def BulkAction.replays (accountId : Uuid) (key : String) (a : BulkAction) : Bool :=
  a.accountId = accountId && a.idempotencyKey = some key

theorem replays_iff {a : BulkAction} {accountId : Uuid} {key : String} :
    a.replays accountId key ↔ a.uniqueKey = some (accountId, key) := by
  simp [BulkAction.replays, BulkAction.uniqueKey, and_comm]

inductive SubmitError where
  | accountNotFound
  | multipleResults
  | rateLimited (retryAfterSeconds : ℚ)
  | integrity

/-- `(action, created)`. -/
structure SubmitReturn where
  action : BulkAction
  created : Bool

/-- Where a call of `create_bulk_action` stands, up to the commit of its session. -/
inductive SubmitPc where
  | getAccount
  | lookup (rateLimitPerMinute : Nat)
  | consumeSubmission (rateLimitPerMinute : Nat)
  | flush (row : BulkAction)
  | enqueue (row : BulkAction)
  | commit (ret : SubmitReturn)
  | done (ret : SubmitReturn)
  | raised (error : SubmitError)

structure Call where
  request : SubmitRequest
  pc : SubmitPc

/-- The submissions of the platform: the table of actions, the limits of the accounts, the
plan jobs, named by their actions, and the calls in progress. -/
structure Intake where
  db : Store Pid (Uuid × String) BulkAction (List BulkAction)
  rateLimits : Uuid → Option Nat
  planJobs : List Uuid
  calls : Pid → Option Call

inductive IntakeLabel where
  | call (p : Pid) (request : SubmitRequest)
  | run (p : Pid) (decision : Decision)

def IntakeLabel.pid : IntakeLabel → Pid
  | .call p _ => p
  | .run p _ => p

def insertRow (row : BulkAction) (rows : List BulkAction) : List BulkAction := rows ++ [row]

namespace Intake

def view (x : Intake) (p : Pid) : List BulkAction := x.db.view insertRow p

/-- The rows that the replay lookup returns; without a key, or for an empty one, there is none. -/
def existing (x : Intake) (p : Pid) (r : SubmitRequest) : List BulkAction :=
  match r.idempotencyKey with
  | none => []
  | some key => if key = "" then [] else (x.view p).filter (BulkAction.replays r.accountId key)

def put (x : Intake) (p : Pid) (c : Call) : Intake :=
  { x with calls := Function.update x.calls p (some c) }

def goto (x : Intake) (p : Pid) (c : Call) (pc : SubmitPc) : Intake := x.put p { c with pc := pc }

/-- An exception rolls the session back. -/
def raise (x : Intake) (p : Pid) (c : Call) (error : SubmitError) : Intake :=
  { x.goto p c (.raised error) with db := x.db.rollback p }

def insert (x : Intake) (p : Pid) (c : Call) (row : BulkAction) : Intake :=
  { x.goto p c (.enqueue row) with db := x.db.write BulkAction.uniqueKey p row }

/-- The INSERT waits for a transaction that has inserted the same key and raises when the key
is committed. -/
def flush (x : Intake) (p : Pid) (c : Call) (row : BulkAction) : Option Intake :=
  match row.uniqueKey with
  | none => some (x.insert p c row)
  | some k =>
    if x.db.free p k then
      if (x.view p).any (fun a => a.uniqueKey = some k) then some (x.raise p c .integrity)
      else some (x.insert p c row)
    else none

/-- `arq.enqueue_job`, which drops a job id that it knows. -/
def enqueue (x : Intake) (p : Pid) (c : Call) (row : BulkAction) : Intake :=
  { x.goto p c (.commit ⟨row, true⟩) with
    planJobs := if row.id ∈ x.planJobs then x.planJobs else x.planJobs ++ [row.id] }

def commit (x : Intake) (p : Pid) (c : Call) (ret : SubmitReturn) : Intake :=
  { x.goto p c (.done ret) with db := x.db.commit insertRow p }

/-- The next statement of a call. -/
def next (settings : Settings) (x : Intake) (p : Pid) (decision : Decision) (c : Call) :
    Option Intake :=
  match c.pc with
  | .getAccount =>
    match x.rateLimits c.request.accountId with
    | none => some (x.raise p c .accountNotFound)
    | some limit => some (x.goto p c (.lookup limit))
  | .lookup limit =>
    match x.existing p c.request with
    | [] => some (x.goto p c (.consumeSubmission limit))
    | [a] => some (x.goto p c (.commit ⟨a, false⟩))
    | _ => some (x.raise p c .multipleResults)
  | .consumeSubmission limit =>
    if decision.allowed then some (x.goto p c (.flush (c.request.row settings limit)))
    else some (x.raise p c (.rateLimited decision.retryAfterSeconds))
  | .flush row => x.flush p c row
  | .enqueue row => some (x.enqueue p c row)
  | .commit ret => some (x.commit p c ret)
  | .done _ => none
  | .raised _ => none

def step (settings : Settings) (x : Intake) : IntakeLabel → Option Intake
  | .call p request =>
    match x.calls p with
    | none => some (x.put p ⟨request, .getAccount⟩)
    | some _ => none
  | .run p decision => (x.calls p).bind (x.next settings p decision)

/-- Everything one step can do. -/
inductive Takes (settings : Settings) (x : Intake) : IntakeLabel → Intake → Prop where
  | call {p r} : x.calls p = none → Takes settings x (.call p r) (x.put p ⟨r, .getAccount⟩)
  | accountMissing {p d c} : x.calls p = some c → c.pc = .getAccount →
      x.rateLimits c.request.accountId = none →
      Takes settings x (.run p d) (x.raise p c .accountNotFound)
  | account {p d c limit} : x.calls p = some c → c.pc = .getAccount →
      x.rateLimits c.request.accountId = some limit →
      Takes settings x (.run p d) (x.goto p c (.lookup limit))
  | missed {p d c limit} : x.calls p = some c → c.pc = .lookup limit →
      x.existing p c.request = [] →
      Takes settings x (.run p d) (x.goto p c (.consumeSubmission limit))
  | found {p d c limit a} : x.calls p = some c → c.pc = .lookup limit →
      x.existing p c.request = [a] →
      Takes settings x (.run p d) (x.goto p c (.commit ⟨a, false⟩))
  | ambiguous {p d c limit} : x.calls p = some c → c.pc = .lookup limit →
      1 < (x.existing p c.request).length →
      Takes settings x (.run p d) (x.raise p c .multipleResults)
  | admitted {p d c limit} : x.calls p = some c → c.pc = .consumeSubmission limit →
      d.allowed →
      Takes settings x (.run p d) (x.goto p c (.flush (c.request.row settings limit)))
  | denied {p d c limit} : x.calls p = some c → c.pc = .consumeSubmission limit →
      d.allowed = false →
      Takes settings x (.run p d) (x.raise p c (.rateLimited d.retryAfterSeconds))
  | inserted {p d c row} : x.calls p = some c → c.pc = .flush row →
      (∀ k, row.uniqueKey = some k → x.db.free p k ∧ ∀ a ∈ x.view p, a.uniqueKey ≠ some k) →
      Takes settings x (.run p d) (x.insert p c row)
  | conflict {p d c row a} : x.calls p = some c → c.pc = .flush row → a ∈ x.view p →
      a.uniqueKey.isSome → a.uniqueKey = row.uniqueKey →
      Takes settings x (.run p d) (x.raise p c .integrity)
  | enqueued {p d c row} : x.calls p = some c → c.pc = .enqueue row →
      Takes settings x (.run p d) (x.enqueue p c row)
  | committed {p d c ret} : x.calls p = some c → c.pc = .commit ret →
      Takes settings x (.run p d) (x.commit p c ret)

theorem flush_takes {settings : Settings} {x x' : Intake} {p : Pid} {d : Decision} {c : Call}
    {row : BulkAction} (hp : x.calls p = some c) (hpc : c.pc = .flush row)
    (h : x.flush p c row = some x') : Takes settings x (.run p d) x' := by
  unfold flush at h
  split at h
  next hk =>
    cases Option.some.inj h
    exact .inserted hp hpc (by simp [hk])
  next k hk =>
    split at h
    next hfree =>
      split at h
      next hany =>
        cases Option.some.inj h
        obtain ⟨a, ha, hkey⟩ := List.any_eq_true.mp hany
        have hkey : a.uniqueKey = some k := of_decide_eq_true hkey
        exact .conflict hp hpc ha (by rw [hkey]; rfl) (hkey.trans hk.symm)
      next hnone =>
        cases Option.some.inj h
        refine .inserted hp hpc (fun k' hk' => ?_)
        cases hk.symm.trans hk'
        exact ⟨hfree, fun a ha hkey => hnone (List.any_eq_true.mpr ⟨a, ha, by simp [hkey]⟩)⟩
    next => cases h

theorem next_takes {settings : Settings} {x x' : Intake} {p : Pid} {d : Decision} {c : Call}
    (hp : x.calls p = some c) (h : x.next settings p d c = some x') :
    Takes settings x (.run p d) x' := by
  unfold next at h
  split at h
  next hpc =>
    split at h <;> cases Option.some.inj h
    next hnone => exact .accountMissing hp hpc hnone
    next hlimit => exact .account hp hpc hlimit
  next hpc =>
    split at h <;> cases Option.some.inj h
    next hnil => exact .missed hp hpc hnil
    next hone => exact .found hp hpc hone
    next rows hnil hone =>
      refine .ambiguous hp hpc ?_
      match hrows : x.existing p c.request with
      | [] => exact absurd hrows hnil
      | [a] => exact absurd hrows (hone a)
      | _ :: _ :: _ => simp
  next hpc =>
    split at h <;> cases Option.some.inj h
    next hallowed => exact .admitted hp hpc hallowed
    next hdenied => exact .denied hp hpc (Bool.not_eq_true _ ▸ hdenied)
  next hpc => exact flush_takes hp hpc h
  next hpc =>
    cases Option.some.inj h
    exact .enqueued hp hpc
  next hpc =>
    cases Option.some.inj h
    exact .committed hp hpc
  next => cases h
  next => cases h

theorem step_takes {settings : Settings} {x x' : Intake} {l : IntakeLabel}
    (h : x.step settings l = some x') : Takes settings x l x' := by
  cases l with
  | call p r =>
    simp only [step] at h
    split at h
    next hp =>
      cases Option.some.inj h
      exact .call hp
    next => cases h
  | run p d =>
    obtain ⟨c, hp, hnext⟩ := Option.bind_eq_some_iff.mp h
    exact next_takes hp hnext

end Intake

end BulkActions
