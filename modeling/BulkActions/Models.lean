import BulkActions.Handlers
import Mathlib.Data.Rat.Floor

namespace BulkActions

/-- A row of `bulk_actions`; the action type is the constructor of `configuration`. -/
structure BulkAction where
  id : Uuid
  accountId : Uuid
  entityType : EntityType
  configuration : Config
  batchSize : Nat
  status : BulkActionStatus
  scheduledAt : Option Timestamp := none
  totalEntities : Nat := 0
  processedCount : Nat := 0
  successCount : Nat := 0
  failureCount : Nat := 0
  skippedCount : Nat := 0
  totalBatches : Nat := 0
  completedBatches : Nat := 0
  error : Option String := none
  idempotencyKey : Option String := none
  startedAt : Option Timestamp := none
  finishedAt : Option Timestamp := none

/-- A row of `bulk_action_batches`; `(bulk_action_id, batch_index)` is unique, so the
rows of one action are named by their index. -/
structure BulkActionBatch where
  batchIndex : Nat
  status : BatchStatus
  entityIds : Option (List Uuid)
  cursorStart : Option Uuid
  cursorEnd : Option Uuid
  entityCount : Nat
  successCount : Nat := 0
  failureCount : Nat := 0
  skippedCount : Nat := 0
  attempts : Nat := 0
  error : Option String := none
  startedAt : Option Timestamp := none
  finishedAt : Option Timestamp := none
  deriving DecidableEq, Repr

/-- A row of `bulk_action_logs`. -/
structure BulkActionLog where
  id : Nat
  batchIndex : Nat
  entityId : Option Uuid
  status : EntityLogStatus
  reasonCode : Option String
  message : Option String
  details : Option Details
  deriving DecidableEq, Repr

/-- The row `write_outcomes` builds for one outcome. -/
def outcomeLog (batchIndex id : Nat) (o : EntityOutcome) : BulkActionLog :=
  ⟨id, batchIndex, o.entityId, o.status, o.reasonCode.map LogReason.value, o.message, o.details⟩

/-- `text[:n]`. -/
def truncate (n : Nat) (text : String) : String := String.ofList (text.toList.take n)

/-- An UPDATE of the action's row, one constructor per statement of the source. -/
inductive ActionUpdate where
  | setPlanning
  | setTotals (entities batches : Nat)
  | closeEmpty
  | markStarted
  | recordBatchCompletion (processed success failure skipped : Nat) (batchDone : Bool)
  | finalize (status : BulkActionStatus)
  | failAction (error : String)
  | cancel
  deriving DecidableEq, Repr

namespace ActionUpdate

/-- The part of the WHERE clause beyond `id = :action_id`. -/
def applies : ActionUpdate → BulkAction → Bool
  | setPlanning, _ => true
  | setTotals _ _, _ => true
  | closeEmpty, a => a.status = .planning
  | markStarted, a => a.status = .queued || a.status = .scheduled || a.status = .planning
  | recordBatchCompletion .., _ => true
  | finalize _, a => a.status = .processing && a.totalBatches ≤ a.completedBatches
  | failAction _, a => !a.status.isTerminal
  | cancel, a => !a.status.isTerminal

def set (now : Timestamp) : ActionUpdate → BulkAction → BulkAction
  | setPlanning, a => { a with status := .planning, startedAt := some now }
  | setTotals entities batches, a => { a with totalEntities := entities, totalBatches := batches }
  | closeEmpty, a => { a with status := .completed, finishedAt := some now }
  | markStarted, a => { a with status := .processing, startedAt := some now }
  | recordBatchCompletion processed success failure skipped batchDone, a =>
    { a with
      processedCount := a.processedCount + processed
      successCount := a.successCount + success
      failureCount := a.failureCount + failure
      skippedCount := a.skippedCount + skipped
      completedBatches := a.completedBatches + if batchDone then 1 else 0 }
  | finalize status, a => { a with status := status, finishedAt := some now }
  | failAction error, a =>
    { a with status := .failed, error := some (truncate 2000 error), finishedAt := some now }
  | cancel, a => { a with status := .cancelled, finishedAt := some now }

end ActionUpdate

/-- An UPDATE of one batch row. -/
inductive BatchUpdate where
  | cancel
  | recordAttempt
  | complete (success failure skipped : Nat)
  | fail (failure : Nat) (error : String)
  deriving DecidableEq, Repr

namespace BatchUpdate

def applies : BatchUpdate → BulkActionBatch → Bool
  | recordAttempt, b => b.status ≠ .completed
  | _, _ => true

def set (now : Timestamp) : BatchUpdate → BulkActionBatch → BulkActionBatch
  | cancel, b => { b with status := .cancelled, finishedAt := some now }
  | recordAttempt, b =>
    { b with status := .processing, attempts := b.attempts + 1, startedAt := some now }
  | complete success failure skipped, b =>
    { b with
      status := .completed, successCount := success, failureCount := failure,
      skippedCount := skipped, finishedAt := some now, error := none }
  | fail failure error, b =>
    { b with
      status := .failed, failureCount := failure, error := some (truncate 2000 error),
      finishedAt := some now }

end BatchUpdate

/-- The status `finalize_if_complete` writes for the failure count it has read. -/
def finalStatus (failureCount : Nat) : BulkActionStatus :=
  if 0 < failureCount then .completedWithErrors else .completed

/-- The WHERE clause of the SELECT in `finalize_if_complete`. -/
def BulkAction.isFinalizable (a : BulkAction) : Bool :=
  a.totalBatches ≤ a.completedBatches && a.status = .processing

theorem isFinalizable_iff {a : BulkAction} :
    a.isFinalizable ↔ a.totalBatches ≤ a.completedBatches ∧ a.status = .processing := by
  simp [BulkAction.isFinalizable]

/-- `round(q, digits)` in exact arithmetic, ties to even. -/
def roundTo (digits : Nat) (q : Rat) : Rat :=
  let scaled := q * 10 ^ digits
  let n : Int := ⌊scaled⌋
  let up := 1 / 2 < scaled - n || (scaled - n = 1 / 2 && n % 2 = 1)
  (if up then n + 1 else n : Int) / 10 ^ digits

structure ProgressPayload where
  id : Uuid
  status : BulkActionStatus
  totalEntities : Nat
  processedCount : Nat
  successCount : Nat
  failureCount : Nat
  skippedCount : Nat
  totalBatches : Nat
  completedBatches : Nat
  progressPercent : Rat
  deriving DecidableEq

def progressPayload (a : BulkAction) : ProgressPayload where
  id := a.id
  status := a.status
  totalEntities := a.totalEntities
  processedCount := a.processedCount
  successCount := a.successCount
  failureCount := a.failureCount
  skippedCount := a.skippedCount
  totalBatches := a.totalBatches
  completedBatches := a.completedBatches
  progressPercent :=
    if a.totalEntities = 0 then 0
    else roundTo 2 ((a.processedCount : Rat) / a.totalEntities * 100)

end BulkActions
