import Mathlib.Init

namespace BulkActions

abbrev Uuid := Nat

abbrev Timestamp := Nat

inductive BulkActionStatus where
  | scheduled
  | queued
  | planning
  | processing
  | completed
  | completedWithErrors
  | failed
  | cancelled
  deriving DecidableEq, Repr

def BulkActionStatus.value : BulkActionStatus → String
  | scheduled => "scheduled"
  | queued => "queued"
  | planning => "planning"
  | processing => "processing"
  | completed => "completed"
  | completedWithErrors => "completed_with_errors"
  | failed => "failed"
  | cancelled => "cancelled"

def BulkActionStatus.isTerminal : BulkActionStatus → Bool
  | completed | completedWithErrors | failed | cancelled => true
  | _ => false

def BulkActionStatus.isCancellable (s : BulkActionStatus) : Bool := !s.isTerminal

inductive BatchStatus where
  | pending
  | processing
  | completed
  | failed
  | cancelled
  deriving DecidableEq, Repr

inductive EntityLogStatus where
  | success
  | failed
  | skipped
  deriving DecidableEq, Repr

inductive LogReason where
  | updated
  | deleted
  | duplicateEmail
  | duplicateKey
  | validationFailed
  | entityNotFound
  | leftTargetSet
  | noChange
  | actionCancelled
  | batchError
  deriving DecidableEq, Repr

def LogReason.value : LogReason → String
  | updated => "updated"
  | deleted => "deleted"
  | duplicateEmail => "duplicate_email"
  | duplicateKey => "duplicate_key"
  | validationFailed => "validation_failed"
  | entityNotFound => "entity_not_found"
  | leftTargetSet => "left_target_set"
  | noChange => "no_change"
  | actionCancelled => "action_cancelled"
  | batchError => "batch_error"

end BulkActions
