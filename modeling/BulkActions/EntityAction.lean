import BulkActions.EntityTable
import BulkActions.DedupFacts
import BulkActions.OpenWrites

namespace BulkActions

/-- The columns that an update assigns. -/
def Config.updatedFields : Config → List String
  | .update c => c.updates.map Prod.fst
  | .delete _ => []

/-- An action whose configuration has passed validation: its filter compiles, and its updates
leave the keys alone. -/
structure EntityAction where
  sql : Sql
  text : PyText
  entity : EntityDescriptor
  accountId : Uuid
  config : Config
  clause : SelectionClause
  compiled : selectionClause text entity accountId config.selectionFilters
    config.includeDeleted = .ok clause
  accepted : clause.accepted sql entity
  keys : "id" ∉ config.updatedFields ∧ "account_id" ∉ config.updatedFields

/-- What `run_batch` leaves behind in its transaction: its result, the rows it writes for it,
the dedup ledger and the entity table. -/
structure BatchEffect where
  result : BatchResult
  writes : List Write
  ledger : String → Bool
  table : EntityTable

/-- The statements of the persist part of `run_batch`. -/
def BatchResult.persist (seq index : Nat) (now : Timestamp) (r : BatchResult) : List Write :=
  (if r.outcomes.isEmpty then [] else [.logs (World.logRows seq index r.outcomes)]) ++
    [.batch index r.completeUpdate now, .action r.recordUpdate now]

namespace EntityAction

def loadRows (a : EntityAction) (batch : BulkActionBatch) (t : EntityTable) : List EntityRow :=
  t.loadBatchRows a.sql a.entity a.accountId a.clause a.config.includeDeleted batch

/-- The keys that the INSERT into the ledger returns. -/
def claimed (a : EntityAction) (batch : BulkActionBatch) (ledger : String → Bool)
    (t : EntityTable) : List String :=
  (ledgerKeys a.text a.config (a.loadRows batch t)).filter (fun key => !ledger key)

/-- The rows passed to `handler.execute`. -/
def executed (a : EntityAction) (batch : BulkActionBatch) (ledger : String → Bool)
    (t : EntityTable) : List EntityRow :=
  executedRows a.text a.config (a.loadRows batch t) (a.claimed batch ledger t)

/-- `run_batch` on a ledger and an entity table; `seq` is the next log id. -/
def runBatch (a : EntityAction) (seq : Nat) (batch : BulkActionBatch) (ledger : String → Bool)
    (now : Timestamp) (t : EntityTable) : BatchEffect :=
  let rows := a.loadRows batch t
  let ids := a.config.targets (a.executed batch ledger t)
  let result := BulkActions.runBatch a.text a.config batch.entityCount rows
    (a.claimed batch ledger t) (t.affected a.accountId ids)
  { result := result
    writes := result.persist seq batch.batchIndex now
    ledger := fun key => ledger key || key ∈ ledgerKeys a.text a.config rows
    table := t.write a.entity a.config a.accountId now ids }

theorem clause_account (a : EntityAction) : a.clause.accountId = a.accountId :=
  selectionClause_account a.compiled

/-- Both kinds of batches load rows of their account only. -/
theorem account_of_batchWhere {a : EntityAction} {batch : BulkActionBatch} {r : EntityRecord}
    (h : EntityTable.batchWhere a.sql a.entity a.accountId a.clause a.config.includeDeleted
      batch r) :
    r.accountId = a.accountId := by
  unfold EntityTable.batchWhere at h
  split at h
  next id ids _ =>
    simp only [Bool.and_eq_true, decide_eq_true_eq] at h
    exact h.1.2
  next =>
    simp only [SelectionClause.holds, Bool.and_eq_true, decide_eq_true_eq] at h
    exact h.1.1.1.trans a.clause_account

end EntityAction

section Outcomes

variable {text : PyText} {config : Config} {claimed : List String}

/-- Every loaded row is passed to the handler or reported as a duplicate. -/
theorem executedRows_perm (text : PyText) (config : Config) (claimed : List String)
    (rows : List EntityRow) :
    ((executedRows text config rows claimed).map (fun row => some row.id) ++
      (duplicateOutcomes text config rows claimed).map EntityOutcome.entityId).Perm
        (rows.map (fun row => some row.id)) := by
  unfold executedRows duplicateOutcomes
  split
  next field _ =>
    have hrows := (partitionDuplicates_perm text field claimed rows).map (fun row => some row.id)
    rw [List.map_append, List.map_map] at hrows
    rw [List.map_map]
    exact hrows
  next => rw [List.map_nil, List.append_nil]

/-- A handler reports on every row it gets. -/
theorem execute_perm (config : Config) (rows : List EntityRow) (affected : List Uuid) :
    ((config.execute rows affected).outcomes.map EntityOutcome.entityId).Perm
      (rows.map (fun row => some row.id)) := by
  cases config with
  | update c =>
    have hsplit := (List.filter_append_perm (BulkUpdateAction.holdsValues c) rows).map
      (fun row => some row.id)
    have hwritten : ∀ id, (BulkUpdateAction.written c affected id).entityId = some id := by
      intro id
      unfold BulkUpdateAction.written
      split_ifs <;> rfl
    rw [List.map_append] at hsplit
    simp only [Config.execute, BulkUpdateAction.execute, BulkUpdateAction.toWrite, List.map_append,
      List.map_map, Function.comp_def, hwritten]
    exact hsplit
  | delete c =>
    have hremoved : ∀ id, (BulkDeleteAction.removed c affected id).entityId = some id := by
      intro id
      unfold BulkDeleteAction.removed
      split_ifs <;> rfl
    simp only [Config.execute, BulkDeleteAction.execute, List.map_map, Function.comp_def, hremoved]
    exact .refl _

/-- A batch reports on the entities that have vanished, without naming them, and on every row
it has loaded. -/
theorem runBatch_perm (entityCount : Nat) (rows : List EntityRow) (affected : List Uuid) :
    ((runBatch text config entityCount rows claimed affected).outcomes.map
      EntityOutcome.entityId).Perm
        (List.replicate (entityCount - rows.length) none ++ rows.map (fun row => some row.id)) := by
  have hsplit := executedRows_perm text config claimed rows
  have hexec := execute_perm config (executedRows text config rows claimed) affected
  have hdrift : (List.replicate (entityCount - rows.length) driftOutcome).map
      EntityOutcome.entityId = List.replicate (entityCount - rows.length) none := by
    rw [List.map_replicate]
    rfl
  simp only [runBatch, List.map_append, hdrift, List.append_assoc]
  refine List.Perm.append_left _ ?_
  exact (hexec.append_left _).trans (List.perm_append_comm.trans hsplit)

theorem length_executedRows (text : PyText) (config : Config) (claimed : List String)
    (rows : List EntityRow) :
    (executedRows text config rows claimed).length +
      (duplicateOutcomes text config rows claimed).length = rows.length := by
  simpa using (executedRows_perm text config claimed rows).length_eq

/-- A batch records one outcome per entity, planned or loaded, whichever are more. -/
theorem length_runBatch (entityCount : Nat) (rows : List EntityRow) (affected : List Uuid) :
    (runBatch text config entityCount rows claimed affected).outcomes.length =
      max entityCount rows.length := by
  have hlength := (@runBatch_perm text config claimed entityCount rows affected).length_eq
  simp only [List.length_map, List.length_append, List.length_replicate] at hlength
  omega

end Outcomes

end BulkActions
