import BulkActions.BatchTask
import BulkActions.Runs

namespace BulkActions

inductive CancelReturn where
  | notFound
  | conflict (status : BulkActionStatus)
  | lostRace
  | cancelled
  deriving DecidableEq, Repr

/-- Where a call of `cancel_bulk_action` stands. -/
inductive CancelPc where
  | loadAction
  | update
  | commit
  | done (ret : CancelReturn)
  deriving DecidableEq, Repr

namespace CancelPc

def stmt : CancelPc → Stmt
  | loadAction => .selectAction
  | update => .updateAction .cancel
  | commit => .commit
  | done _ => .skip

def resume (reply : Reply) : CancelPc → CancelPc
  | loadAction =>
    match reply.action with
    | none => .done .notFound
    | some a => if a.status.isCancellable then .update else .done (.conflict a.status)
  | update =>
    match reply.action with
    | none => .done .lostRace
    | some _ => .commit
  | commit => .done .cancelled
  | done ret => .done ret

end CancelPc

/-- A slot of the worker pool or of the API server. A `lost` job has been interrupted by a
crash or by an exception that left the task, and has not returned. -/
inductive Proc where
  | idle
  | plan (pc : PlanPc)
  | batch (job : BatchJob) (pc : BatchPc)
  | cancel (pc : CancelPc)
  | lost (job : Job)

structure Sys where
  world : World
  procs : Pid → Proc

/-- The constants of a deployment. -/
structure Env where
  settings : Settings
  text : PyText

inductive Label where
  /-- a worker takes a job off the queue -/
  | deliver (p : Pid) (job : Job)
  /-- at-least-once delivery: a job starts whether or not it is queued -/
  | duplicate (p : Pid) (job : Job)
  /-- an interrupted job is delivered again -/
  | redeliver (p : Pid)
  /-- a client calls cancel -/
  | cancel (p : Pid)
  | run (p : Pid) (ext : External)
  | raise (p : Pid) (error : String)
  | crash (p : Pid)

def Job.proc : Job → Proc
  | .plan => .plan .loadAction
  | .batch job => .batch job .loadAction

/-- The job as it is delivered the next time. -/
def Job.again : Job → Job
  | .plan => .plan
  | .batch job => .batch { job with jobTry := job.jobTry + 1 }

namespace Proc

/-- In the middle of a task or of a request. -/
def running : Proc → Bool
  | .idle => false
  | .lost _ => false
  | .plan (.done _) => false
  | .batch _ (.done _) => false
  | .cancel (.done _) => false
  | _ => true

def stmt (env : Env) : Proc → Stmt
  | .plan pc => pc.stmt
  | .batch job pc => pc.stmt env.settings job
  | .cancel pc => pc.stmt
  | .idle => .skip
  | .lost _ => .skip

def resume (env : Env) (ext : External) (reply : Reply) : Proc → Except String Proc
  | .plan pc => (pc.resume ext reply).map .plan
  | .batch job pc => (pc.resume env.text ext reply).map (.batch job)
  | .cancel pc => .ok (.cancel (pc.resume reply))
  | .idle => .ok .idle
  | .lost job => .ok (.lost job)

/-- Where an exception takes a task: to its handler, or out of it. -/
def handler (env : Env) (error : String) : Proc → Proc
  | .plan pc => ((pc.handler error).map .plan).getD (.lost .plan)
  | .batch job pc =>
    ((pc.handler env.settings job error).map (.batch job)).getD (.lost (.batch job))
  | .cancel _ => .idle
  | .idle => .idle
  | .lost job => .lost job

/-- What a crash of the worker leaves of a task. -/
def killed : Proc → Proc
  | .plan _ => .lost .plan
  | .batch job _ => .lost (.batch job)
  | .cancel _ => .idle
  | .idle => .idle
  | .lost job => .lost job

end Proc

namespace Sys

def set (s : Sys) (w : World) (p : Pid) (proc : Proc) : Sys where
  world := w
  procs := Function.update s.procs p proc

/-- An exception rolls the open transaction back; one raised while publishing a progress
frame is swallowed by `publish_progress`. -/
def raised (env : Env) (s : Sys) (w : World) (p : Pid) (error : String) : Sys :=
  match s.procs p with
  | .batch job (.publish n r _) => s.set w p (.batch job (.finalizeCommit (.batchDone n r)))
  | proc => s.set (w.rollback p) p (proc.handler env error)

def run (env : Env) (s : Sys) (p : Pid) (ext : External) : Option Sys :=
  match s.world.exec p ext.now ((s.procs p).stmt env) with
  | none => none
  | some (w, reply) =>
    match (s.procs p).resume env ext reply with
    | .ok next => some (s.set w p next)
    | .error error => some (s.raised env w p error)

def start (s : Sys) (p : Pid) (proc : Proc) : Option Sys :=
  match s.procs p with
  | .idle => some (s.set s.world p proc)
  | _ => none

def dequeue (s : Sys) (job : Job) : Sys :=
  { s with world := { s.world with queue := s.world.queue.erase job } }

/-- One step of the platform, as far as one action is concerned. -/
def step (env : Env) (s : Sys) : Label → Option Sys
  | .deliver p job => if job ∈ s.world.queue then (s.dequeue job).start p job.proc else none
  | .duplicate p job => s.start p job.proc
  | .redeliver p =>
    match s.procs p with
    | .lost job => some (s.set s.world p job.again.proc)
    | _ => none
  | .cancel p => s.start p (.cancel .loadAction)
  | .run p ext => if (s.procs p).running then s.run env p ext else none
  | .raise p error =>
    if (s.procs p).running then some (s.raised env s.world p error) else none
  | .crash p =>
    if (s.procs p).running then some (s.set (s.world.rollback p) p (s.procs p).killed) else none

/-- No task or request is in progress and no transaction is open. -/
structure AtRest (s : Sys) : Prop where
  idle : ∀ p, s.procs p = .idle
  closed : ∀ p, s.world.db.writes p = []
  unlocked : ∀ r, s.world.db.lock r = none

/-- Runs all of whose steps are allowed. -/
def Reaches (env : Env) (ok : Sys → Label → Prop) : Sys → Sys → Prop :=
  Runs.Reaches (step env) ok

/-- The committed status of the action. -/
def status (s : Sys) : Option BulkActionStatus := s.world.committed.action.map BulkAction.status

end Sys

/-- Text conversions on ASCII input. -/
def asciiText : PyText where
  str
    | .null => "None"
    | .int n => toString n
    | .str s => s
    | .time t => toString t
    | .uuid u => toString u
  strJson
    | .str s => s
    | _ => ""
  repr s := "'" ++ s ++ "'"
  lower s := s.map Char.toLower
  str_str _ := rfl
  strJson_str _ := rfl

/-- Default settings. -/
def defaultEnv : Env := ⟨{}, asciiText⟩

/-- Deactivate the active contacts of account 1. -/
def deactivateContacts : Config :=
  .update ⟨[("status", .str "inactive")], some [("status", .str "active")], none, none⟩

def contactsAction (status : BulkActionStatus) : BulkAction where
  id := 7
  accountId := 1
  entityType := .contact
  configuration := deactivateContacts
  batchSize := 10
  status := status

/-- The active contact 5, to be updated by one batch. -/
def contactsBatch (status : BatchStatus) : BulkActionBatch where
  batchIndex := 0
  status := status
  entityIds := none
  cursorStart := some 5
  cursorEnd := some 5
  entityCount := 1

def contactsJob : Job := .batch ⟨0, 0, 1⟩

def activeContact : External where
  rows := [⟨5, [("status", .str "active")]⟩]
  affected := [5]

def Tables.sys (tables : Tables) (queue : List Job) : Sys where
  world :=
    { db := ⟨tables, fun _ => [], fun _ => none⟩
      logSeq := 1
      rateLimitPerMinute := 10000
      queue := queue
      published := [] }
  procs _ := .idle

/-- The action planned as that one batch, which is pending. -/
def plannedContacts (queue : List Job) : Sys :=
  Tables.sys
    { action := some { contactsAction .processing with totalEntities := 1, totalBatches := 1 }
      batches := fun i => if i = 0 then some (contactsBatch .pending) else none
      logs := [] } queue

/-- An action in batches of one that is still to be planned. -/
def queuedContacts : Sys :=
  Tables.sys ⟨some { contactsAction .queued with batchSize := 1 }, fun _ => none, []⟩ [.plan]

/-- Contacts 5 and 6 in two batches. -/
def twoBatches : Sys :=
  Tables.sys
    { action := some
        { contactsAction .processing with batchSize := 1, totalEntities := 2, totalBatches := 2 }
      batches := fun i => if i < 2 then
        some { contactsBatch .pending with
          batchIndex := i, cursorStart := some (i + 5), cursorEnd := some (i + 5) } else none
      logs := [] } [.batch ⟨0, 0, 1⟩, .batch ⟨1, 0, 1⟩]

theorem Tables.sys_atRest (tables : Tables) (queue : List Job) : (tables.sys queue).AtRest :=
  ⟨fun _ => rfl, fun _ => rfl, fun _ => rfl⟩

end BulkActions
