import BulkActions.Models
import BulkActions.ReadCommitted

namespace BulkActions

open ReadCommitted

/-- A worker task or an API request in progress. -/
abbrev Pid := Nat

structure BatchJob where
  index : Nat
  deferrals : Nat
  jobTry : Nat
  deriving DecidableEq, Repr

inductive Job where
  | plan
  | batch (job : BatchJob)
  deriving DecidableEq, Repr

/-- The lockable rows of one action. -/
inductive RowId where
  | action
  | batch (index : Nat)
  deriving DecidableEq, Repr

/-- The tables as far as one action is concerned. -/
structure Tables where
  action : Option BulkAction
  batches : Nat → Option BulkActionBatch
  logs : List BulkActionLog

inductive Write where
  | action (update : ActionUpdate) (now : Timestamp)
  | batch (index : Nat) (update : BatchUpdate) (now : Timestamp)
  | insertBatch (row : BulkActionBatch)
  | logs (rows : List BulkActionLog)

namespace Write

def row : Write → Option RowId
  | action _ _ => some .action
  | batch index _ _ => some (.batch index)
  | insertBatch row => some (.batch row.batchIndex)
  | logs _ => none

def apply : Write → Tables → Tables
  | action u now, t => { t with action := t.action.map (u.set now) }
  | batch index u now, t =>
    { t with batches := Function.update t.batches index ((t.batches index).map (u.set now)) }
  | insertBatch row, t =>
    { t with batches := Function.update t.batches row.batchIndex (some row) }
  | logs rows, t => { t with logs := t.logs ++ rows }

end Write

/-- The database, the log id sequence, the account's limit, the job queue and the
progress channel. -/
structure World where
  db : Store Pid RowId Write Tables
  logSeq : Nat
  rateLimitPerMinute : Nat
  queue : List Job
  published : List ProgressPayload

/-- A statement sent to the database, to the queue or to the progress channel. -/
inductive Stmt where
  | skip
  | selectAction
  | selectFinalizable
  | selectBatch (index : Nat)
  | selectAccount
  | updateAction (update : ActionUpdate)
  | updateBatch (index : Nat) (update : BatchUpdate)
  | insertBatches (rows : List BulkActionBatch)
  | insertLogs (index : Nat) (outcomes : List EntityOutcome)
  | commit
  | enqueue (job : Job)
  | publish (payload : ProgressPayload)

/-- The rows a statement returns. -/
structure Reply where
  action : Option BulkAction := none
  batch : Option BulkActionBatch := none
  rateLimitPerMinute : Nat := 0

namespace World

def view (w : World) (p : Pid) : Tables := w.db.view Write.apply p

def write (w : World) (p : Pid) (v : Write) : World :=
  { w with db := w.db.write Write.row p v }

def rollback (w : World) (p : Pid) : World := { w with db := w.db.rollback p }

def committed (w : World) : Tables := w.db.committed

def logRows (seq index : Nat) (outcomes : List EntityOutcome) : List BulkActionLog :=
  outcomes.mapIdx (fun k o => outcomeLog index (seq + k) o)

/-- One statement of transaction `p`, or `none` while it waits for a row lock. An UPDATE
whose WHERE clause misses the row returns no row and takes no lock. -/
def exec (w : World) (p : Pid) (now : Timestamp) : Stmt → Option (World × Reply)
  | .skip => some (w, {})
  | .selectAction => some (w, { action := (w.view p).action })
  | .selectFinalizable =>
    some (w, { action := (w.view p).action.filter BulkAction.isFinalizable })
  | .selectBatch index => some (w, { batch := (w.view p).batches index })
  | .selectAccount => some (w, { rateLimitPerMinute := w.rateLimitPerMinute })
  | .updateAction u =>
    match (w.view p).action.filter u.applies with
    | none => some (w, {})
    | some a =>
      if w.db.free p .action then some (w.write p (.action u now), { action := some (u.set now a) })
      else none
  | .updateBatch index u =>
    match ((w.view p).batches index).filter u.applies with
    | none => some (w, {})
    | some b =>
      if w.db.free p (.batch index) then
        some (w.write p (.batch index u now), { batch := some (u.set now b) })
      else none
  | .insertBatches rows =>
    let fresh := rows.filter (fun row => ((w.view p).batches row.batchIndex).isNone)
    if fresh.all (fun row => w.db.free p (.batch row.batchIndex)) then
      some (fresh.foldl (fun w row => w.write p (.insertBatch row)) w, {})
    else none
  | .insertLogs index outcomes =>
    some ({ w.write p (.logs (logRows w.logSeq index outcomes)) with
      logSeq := w.logSeq + outcomes.length }, {})
  | .commit => some ({ w with db := w.db.commit Write.apply p }, {})
  | .enqueue job => some ({ w with queue := w.queue ++ [job] }, {})
  | .publish payload => some ({ w with published := w.published ++ [payload] }, {})

end World

end BulkActions
