import BulkActions.Filters

namespace BulkActions

/-- The keyword details of an outcome, stored as a JSON object. -/
inductive Details where
  | updates (changed : List (String × Value))
  | hard (hard : Bool)
  | key (field key : String)
  deriving DecidableEq, Repr

/-- What happened to one entity; becomes exactly one log row. -/
structure EntityOutcome where
  entityId : Option Uuid
  status : EntityLogStatus
  reasonCode : Option LogReason
  message : Option String
  details : Option Details
  deriving DecidableEq, Repr

namespace EntityOutcome

def success (id : Uuid) (reason : LogReason) (details : Details) : EntityOutcome :=
  ⟨some id, .success, some reason, none, some details⟩

def failed (id : Option Uuid) (reason : LogReason) (message : String) : EntityOutcome :=
  ⟨id, .failed, some reason, some message, none⟩

def skipped (id : Option Uuid) (reason : LogReason) (message : String)
    (details : Option Details) : EntityOutcome :=
  ⟨id, .skipped, some reason, some message, details⟩

end EntityOutcome

structure BatchResult where
  outcomes : List EntityOutcome
  deriving DecidableEq, Repr

namespace BatchResult

def count (r : BatchResult) (status : EntityLogStatus) : Nat :=
  r.outcomes.countP (fun o => o.status = status)

def successCount (r : BatchResult) : Nat := r.count .success

def failureCount (r : BatchResult) : Nat := r.count .failed

def skippedCount (r : BatchResult) : Nat := r.count .skipped

def processedCount (r : BatchResult) : Nat := r.outcomes.length

theorem processedCount_eq (r : BatchResult) :
    r.processedCount = r.successCount + r.failureCount + r.skippedCount := by
  obtain ⟨outcomes⟩ := r
  simp only [processedCount, successCount, failureCount, skippedCount, count]
  induction outcomes with
  | nil => rfl
  | cons o os ih =>
    simp only [List.length_cons, List.countP_cons, ih]
    cases o.status <;> simp <;> omega

end BatchResult

structure BulkUpdateConfig where
  updates : List (String × Value)
  filter : Option Filter
  entityIds : Option (List Uuid)
  deduplicateBy : Option String

structure BulkDeleteConfig where
  filter : Option Filter
  entityIds : Option (List Uuid)
  hard : Bool
  deduplicateBy : Option String

/-- A stored configuration, read back by the handler of its action type. -/
inductive Config where
  | update (config : BulkUpdateConfig)
  | delete (config : BulkDeleteConfig)

namespace Config

def selectionFilters : Config → Option Filter
  | update c => c.filter
  | delete c => c.filter

def explicitIds : Config → Option (List Uuid)
  | update c => c.entityIds
  | delete c => c.entityIds

def dedupField : Config → Option String
  | update c => c.deduplicateBy
  | delete c => c.deduplicateBy

def includeDeleted : Config → Bool
  | update _ => false
  | delete _ => false

end Config

namespace BulkUpdateAction

def holdsValues (config : BulkUpdateConfig) (row : EntityRow) : Bool :=
  config.updates.all (fun u => row.get u.1 = u.2)

def toWrite (config : BulkUpdateConfig) (rows : List EntityRow) : List Uuid :=
  (rows.filter (fun row => !holdsValues config row)).map EntityRow.id

def noChange (row : EntityRow) : EntityOutcome :=
  .skipped (some row.id) .noChange "Entity already holds the requested values." none

def written (config : BulkUpdateConfig) (updated : List Uuid) (id : Uuid) : EntityOutcome :=
  if id ∈ updated then .success id .updated (.updates config.updates)
  else .failed (some id) .entityNotFound
    "Entity no longer exists or left the target set before the update ran."

/-- `execute`, given the ids its UPDATE statement returns. -/
def execute (config : BulkUpdateConfig) (rows : List EntityRow) (updated : List Uuid) :
    BatchResult :=
  ⟨(rows.filter (holdsValues config)).map noChange ++
    (toWrite config rows).map (written config updated)⟩

end BulkUpdateAction

namespace BulkDeleteAction

def removed (config : BulkDeleteConfig) (affected : List Uuid) (id : Uuid) : EntityOutcome :=
  if id ∈ affected then .success id .deleted (.hard config.hard)
  else .failed (some id) .entityNotFound
    "Entity no longer exists or left the target set before the delete ran."

/-- `execute`, given the ids its DELETE or UPDATE statement returns. -/
def execute (config : BulkDeleteConfig) (rows : List EntityRow) (affected : List Uuid) :
    BatchResult :=
  ⟨(rows.map EntityRow.id).map (removed config affected)⟩

end BulkDeleteAction

def Config.execute (config : Config) (rows : List EntityRow) (affected : List Uuid) : BatchResult :=
  match config with
  | .update c => BulkUpdateAction.execute c rows affected
  | .delete c => BulkDeleteAction.execute c rows affected

end BulkActions
