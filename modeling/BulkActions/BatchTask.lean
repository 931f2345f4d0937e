import BulkActions.BatchRunner
import BulkActions.PlanTask

namespace BulkActions

/-- `RateLimiter.consume` around the bucket script's answer. -/
def consume (limitPerMinute amount : Nat) (decision : RateLimitDecision) :
    Except String RateLimitDecision :=
  if amount = 0 then .ok ⟨true, 0⟩
  else if limitPerMinute < amount then
    .error s!"Cannot consume {amount} tokens from a bucket of {limitPerMinute}."
  else .ok decision

inductive BatchReturn where
  | missing
  | alreadyCompleted
  | cancelled
  | rateLimited (retryAfterMs : Nat)
  | completed (success failed skipped : Nat)
  | failed (error : String)
  deriving DecidableEq, Repr

/-- What follows the call of `finalize_if_complete`: the end of the try block, or the end
of the retries-exhausted path. -/
inductive AfterFinalize where
  | batchDone (entityCount : Nat) (result : BatchResult)
  | batchFailed (error : String)
  deriving DecidableEq, Repr

/-- Where a run of `process_batch` stands, each point named after its next statement. -/
inductive BatchPc where
  | loadAction
  | loadBatch (action : BulkAction)
  | cancelBatch
  | cancelCommit
  | loadAccount (entityCount : Nat)
  | rateLimit (limitPerMinute entityCount : Nat)
  | enqueueDeferred (retryAfterMs : Nat)
  | recordAttempt (entityCount : Nat)
  | attemptCommit (entityCount : Nat)
  | reloadAction (entityCount : Nat)
  | reloadBatch (entityCount : Nat) (action : BulkAction)
  | runBatch (entityCount : Nat) (action : BulkAction) (batch : BulkActionBatch)
  | writeOutcomes (entityCount : Nat) (result : BatchResult)
  | updateBatch (entityCount : Nat) (result : BatchResult)
  | recordCompletion (entityCount : Nat) (result : BatchResult)
  | workCommit (entityCount : Nat) (result : BatchResult)
  | finalizeSelect (after : AfterFinalize)
  | finalizeUpdate (after : AfterFinalize) (status : BulkActionStatus)
  | refresh (entityCount : Nat) (result : BatchResult)
  | publish (entityCount : Nat) (result : BatchResult) (payload : ProgressPayload)
  | finalizeCommit (after : AfterFinalize)
  | logCompleted (entityCount : Nat) (result : BatchResult)
  | markBatch (entityCount : Nat) (error : String)
  | markOutcomes (entityCount : Nat) (error : String)
  | markRecord (entityCount : Nat) (error : String)
  | markCommit (entityCount : Nat) (error : String)
  | done (ret : BatchReturn)

def batchErrorOutcome (settings : Settings) (error : String) : EntityOutcome :=
  .failed none .batchError
    (truncate 1000 s!"Batch failed after {settings.jobMaxTries} attempts: {error}")

/-- `write_outcomes`, which sends nothing for an empty list. -/
def writeOutcomes (index : Nat) (outcomes : List EntityOutcome) : Stmt :=
  if outcomes.isEmpty then .skip else .insertLogs index outcomes

namespace BatchPc

def stmt (settings : Settings) (job : BatchJob) : BatchPc → Stmt
  | loadAction => .selectAction
  | loadBatch _ => .selectBatch job.index
  | cancelBatch => .updateBatch job.index .cancel
  | cancelCommit => .commit
  | loadAccount _ => .selectAccount
  | rateLimit _ _ => .skip
  | enqueueDeferred _ => .enqueue (.batch ⟨job.index, job.deferrals + 1, 1⟩)
  | recordAttempt _ => .updateBatch job.index .recordAttempt
  | attemptCommit _ => .commit
  | reloadAction _ => .selectAction
  | reloadBatch _ _ => .selectBatch job.index
  | runBatch _ _ _ => .skip
  | writeOutcomes _ r => BulkActions.writeOutcomes job.index r.outcomes
  | updateBatch _ r =>
    .updateBatch job.index (.complete r.successCount r.failureCount r.skippedCount)
  | recordCompletion _ r =>
    .updateAction (.recordBatchCompletion r.processedCount r.successCount r.failureCount
      r.skippedCount true)
  | workCommit _ _ => .commit
  | finalizeSelect _ => .selectFinalizable
  | finalizeUpdate _ status => .updateAction (.finalize status)
  | refresh _ _ => .selectAction
  | publish _ _ payload => .publish payload
  | finalizeCommit _ => .commit
  | logCompleted _ _ => .skip
  | markBatch n error => .updateBatch job.index (.fail n error)
  | markOutcomes n error =>
    BulkActions.writeOutcomes job.index (List.replicate n (batchErrorOutcome settings error))
  | markRecord n _ => .updateAction (.recordBatchCompletion n 0 n 0 true)
  | markCommit _ _ => .commit
  | done _ => .skip

def afterFinalize : AfterFinalize → BatchPc
  | .batchDone n r => .refresh n r
  | .batchFailed error => .finalizeCommit (.batchFailed error)

/-- The entry guards of the pre-flight transaction. -/
def afterLoad (action : BulkAction) : Option BulkActionBatch → BatchPc
  | none => .done .missing
  | some b =>
    if b.status = .completed then .done .alreadyCompleted
    else if action.status = .cancelled then .cancelBatch
    else .loadAccount b.entityCount

def resume (text : PyText) (ext : External) (reply : Reply) : BatchPc → Except String BatchPc
  | loadAction =>
    match reply.action with
    | none => .ok (.done .missing)
    | some a => .ok (.loadBatch a)
  | loadBatch a => .ok (afterLoad a reply.batch)
  | cancelBatch => .ok .cancelCommit
  | cancelCommit => .ok (.done .cancelled)
  | loadAccount n => .ok (.rateLimit reply.rateLimitPerMinute n)
  | rateLimit limit n =>
    (consume limit n ext.decision).map (fun d =>
      if d.allowed then .recordAttempt n else .enqueueDeferred d.retryAfterMs)
  | enqueueDeferred ms => .ok (.done (.rateLimited ms))
  | recordAttempt n => .ok (.attemptCommit n)
  | attemptCommit n => .ok (.reloadAction n)
  | reloadAction n =>
    match reply.action with
    | none => .ok (.done .missing)
    | some a => .ok (.reloadBatch n a)
  | reloadBatch n a =>
    match reply.batch with
    | none => .error "No row was found when one was required"
    | some b => .ok (if b.status = .completed then .done .alreadyCompleted else .runBatch n a b)
  | runBatch n a b =>
    .ok (.writeOutcomes n
      (BulkActions.runBatch text a.configuration b.entityCount ext.rows ext.claimed ext.affected))
  | writeOutcomes n r => .ok (.updateBatch n r)
  | updateBatch n r => .ok (.recordCompletion n r)
  | recordCompletion n r => .ok (.workCommit n r)
  | workCommit n r => .ok (.finalizeSelect (.batchDone n r))
  | finalizeSelect after =>
    match reply.action with
    | none => .ok (afterFinalize after)
    | some a => .ok (.finalizeUpdate after (finalStatus a.failureCount))
  | finalizeUpdate after _ => .ok (afterFinalize after)
  | refresh n r =>
    match reply.action with
    | none => .ok (.finalizeCommit (.batchDone n r))
    | some a => .ok (.publish n r (progressPayload a))
  | publish n r _ => .ok (.finalizeCommit (.batchDone n r))
  | finalizeCommit (.batchDone n r) => .ok (.logCompleted n r)
  | finalizeCommit (.batchFailed error) => .ok (.done (.failed error))
  | logCompleted _ r => .ok (.done (.completed r.successCount r.failureCount r.skippedCount))
  | markBatch n error => .ok (.markOutcomes n error)
  | markOutcomes n error => .ok (.markRecord n error)
  | markRecord n error => .ok (.markCommit n error)
  | markCommit _ error => .ok (.finalizeSelect (.batchFailed error))
  | done ret => .ok (.done ret)

/-- The entity count in scope where the try block covers a point. -/
def tryCount : BatchPc → Option Nat
  | reloadAction n => some n
  | reloadBatch n _ => some n
  | runBatch n _ _ => some n
  | writeOutcomes n _ => some n
  | updateBatch n _ => some n
  | recordCompletion n _ => some n
  | workCommit n _ => some n
  | finalizeSelect (.batchDone n _) => some n
  | finalizeUpdate (.batchDone n _) _ => some n
  | refresh n _ => some n
  | publish n _ _ => some n
  | finalizeCommit (.batchDone n _) => some n
  | logCompleted n _ => some n
  | _ => none

/-- The `except` clause: re-raise while tries are left, else mark the batch failed. -/
def handler (settings : Settings) (job : BatchJob) (error : String) (pc : BatchPc) :
    Option BatchPc :=
  match pc.tryCount with
  | none => none
  | some n => if job.jobTry < settings.jobMaxTries then none else some (.markBatch n error)

end BatchPc

end BulkActions
