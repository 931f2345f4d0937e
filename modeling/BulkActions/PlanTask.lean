import BulkActions.Batching
import BulkActions.Statements

namespace BulkActions

structure RateLimitDecision where
  allowed : Bool
  retryAfterMs : Nat
  deriving DecidableEq, Repr

/-- What a step takes from outside the control-plane tables: the clock, the rows that the
entity and ledger statements return, and the rate limiter's answer. -/
structure External where
  now : Timestamp := 0
  page : List Uuid := []
  rows : List EntityRow := []
  claimed : List String := []
  affected : List Uuid := []
  decision : RateLimitDecision := ⟨true, 0⟩

def planFlushEvery : Nat := 100

/-- The locals of the planning loop. -/
structure PlanLoop where
  action : BulkAction
  source : PlanSource
  pending : List BulkActionBatch
  totalEntities : Nat
  totalBatches : Nat

inductive PlanReturn where
  | missing
  | skipped (status : BulkActionStatus)
  | planned (totalEntities totalBatches : Nat)
  deriving DecidableEq, Repr

/-- Where a run of `plan_bulk_action` stands, each point named after its next statement. -/
inductive PlanPc where
  | loadAction
  | setPlanning (action : BulkAction)
  | planningCommit (action : BulkAction)
  | nextBatch (loop : PlanLoop)
  | insertRows (loop : PlanLoop) (last : Bool)
  | rowsCommit (loop : PlanLoop) (last : Bool)
  | enqueueJobs (loop : PlanLoop) (rows : List BulkActionBatch) (last : Bool)
  | writeTotals (totalEntities totalBatches : Nat)
  | closeOrStart (totalEntities totalBatches : Nat)
  | totalsCommit (totalEntities totalBatches : Nat)
  | failUpdate (error : String)
  | failCommit (error : String)
  | done (ret : PlanReturn)

def plannedRow (planned : PlannedBatch) : BulkActionBatch where
  batchIndex := planned.index
  status := .pending
  entityIds := planned.entityIds
  cursorStart := planned.cursorStart
  cursorEnd := planned.cursorEnd
  entityCount := planned.entityCount

namespace PlanLoop

def start (action : BulkAction) : PlanLoop where
  action := action
  source := PlanSource.start action.configuration action.batchSize
  pending := []
  totalEntities := 0
  totalBatches := 0

def append (loop : PlanLoop) (planned : PlannedBatch) (source : PlanSource) : PlanLoop where
  action := loop.action
  source := source
  pending := loop.pending ++ [plannedRow planned]
  totalEntities := loop.totalEntities + planned.entityCount
  totalBatches := loop.totalBatches + 1

end PlanLoop

namespace PlanPc

def stmt : PlanPc → Stmt
  | loadAction => .selectAction
  | setPlanning _ => .updateAction .setPlanning
  | planningCommit _ => .commit
  | nextBatch _ => .skip
  | insertRows loop _ => .insertBatches loop.pending
  | rowsCommit _ _ => .commit
  | enqueueJobs _ (row :: _) _ => .enqueue (.batch ⟨row.batchIndex, 0, 1⟩)
  | enqueueJobs _ [] _ => .skip
  | writeTotals entities batches => .updateAction (.setTotals entities batches)
  | closeOrStart _ batches => .updateAction (if batches = 0 then .closeEmpty else .markStarted)
  | totalsCommit _ _ => .commit
  | failUpdate error => .updateAction (.failAction ("Planning failed: " ++ error))
  | failCommit _ => .commit
  | done _ => .skip

/-- The point after a flush: back to the loop, or past it. -/
def afterFlush (loop : PlanLoop) (last : Bool) : PlanPc :=
  if last then .writeTotals loop.totalEntities loop.totalBatches else .nextBatch loop

/-- One resumption of the planning loop. -/
def afterPage (loop : PlanLoop) (page : List Uuid) : PlanPc :=
  match loop.source.next loop.action.batchSize page with
  | none => if loop.pending.isEmpty then afterFlush loop true else .insertRows loop true
  | some (planned, source) =>
    let loop := loop.append planned source
    if planFlushEvery ≤ loop.pending.length then .insertRows loop false else .nextBatch loop

def resume (ext : External) (reply : Reply) : PlanPc → Except String PlanPc
  | loadAction =>
    match reply.action with
    | none => .ok (.done .missing)
    | some a => .ok (if a.status.isTerminal then .done (.skipped a.status) else .setPlanning a)
  | setPlanning a => .ok (.planningCommit a)
  | planningCommit a => .ok (.nextBatch (.start a))
  | nextBatch loop => .ok (afterPage loop ext.page)
  | insertRows loop last => .ok (.rowsCommit loop last)
  | rowsCommit loop last => .ok (.enqueueJobs { loop with pending := [] } loop.pending last)
  | enqueueJobs loop (_ :: rows) last => .ok (.enqueueJobs loop rows last)
  | enqueueJobs loop [] last => .ok (afterFlush loop last)
  | writeTotals entities batches => .ok (.closeOrStart entities batches)
  | closeOrStart entities batches => .ok (.totalsCommit entities batches)
  | totalsCommit entities batches => .ok (.done (.planned entities batches))
  | failUpdate error => .ok (.failCommit error)
  | failCommit error => .error error
  | done ret => .ok (.done ret)

/-- The handler an exception reaches, or `none` when it leaves the task. -/
def handler (error : String) : PlanPc → Option PlanPc
  | nextBatch _ => some (.failUpdate error)
  | insertRows _ _ => some (.failUpdate error)
  | rowsCommit _ _ => some (.failUpdate error)
  | enqueueJobs _ _ _ => some (.failUpdate error)
  | _ => none

end PlanPc

end BulkActions
