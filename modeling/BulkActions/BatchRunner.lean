import BulkActions.Dedup

namespace BulkActions

def driftOutcome : EntityOutcome :=
  .skipped none .leftTargetSet
    "Entity was deleted or stopped matching the filter between planning and execution." none

def duplicateOutcome (field : String) (duplicate : EntityRow × String) : EntityOutcome :=
  .skipped (some duplicate.1.id)
    (if field = "email" then .duplicateEmail else .duplicateKey)
    s!"Duplicate {field} within this bulk action; the first occurrence was processed."
    (some (.key field duplicate.2))

/-- The field to de-duplicate by, when the handler names a non-empty one. -/
def Config.activeDedup (config : Config) : Option String :=
  config.dedupField.filter (· ≠ "")

/-- The keys a batch with these rows inserts into the ledger. -/
def ledgerKeys (text : PyText) (config : Config) (rows : List EntityRow) : List String :=
  match config.activeDedup with
  | some field => insertKeys text field rows
  | none => []

/-- The rows passed to `handler.execute`. -/
def executedRows (text : PyText) (config : Config) (rows : List EntityRow)
    (claimed : List String) : List EntityRow :=
  match config.activeDedup with
  | some field => (partitionDuplicates text field rows claimed).uniqueRows
  | none => rows

def duplicateOutcomes (text : PyText) (config : Config) (rows : List EntityRow)
    (claimed : List String) : List EntityOutcome :=
  match config.activeDedup with
  | some field =>
    (partitionDuplicates text field rows claimed).duplicates.map (duplicateOutcome field)
  | none => []

/-- `run_batch` up to its own writes, given what its statements return: the loaded
rows, the ledger keys the INSERT claimed and the ids the handler's statement wrote. -/
def runBatch (text : PyText) (config : Config) (entityCount : Nat) (rows : List EntityRow)
    (claimed : List String) (affected : List Uuid) : BatchResult :=
  ⟨List.replicate (entityCount - rows.length) driftOutcome ++
    duplicateOutcomes text config rows claimed ++
    (config.execute (executedRows text config rows claimed) affected).outcomes⟩

end BulkActions
