import BulkActions.EntityAction
import Mathlib.Data.List.Count

namespace BulkActions

open Keyset

theorem nodup_loadBatchRows (sql : Sql) (e : EntityDescriptor) (accountId : Uuid)
    (clause : SelectionClause) (includeDeleted : Bool) (batch : BulkActionBatch)
    (t : EntityTable) :
    ((t.loadBatchRows sql e accountId clause includeDeleted batch).map EntityRow.id).Nodup := by
  rw [EntityTable.loadBatchRows, List.map_map]
  exact (t.select_increasing _).nodup_map

/-- Not soft-deleted. -/
def EntityDescriptor.live (e : EntityDescriptor) (r : EntityRecord) : Bool :=
  e.softDeleteColumn.all (fun column => r.cols column = .null)

/-- The WHERE clause for a batch that has an id list. -/
def EntityTable.namedWhere (e : EntityDescriptor) (accountId : Uuid) (includeDeleted : Bool)
    (ids : List Uuid) (r : EntityRecord) : Bool :=
  r.id ∈ ids && r.accountId = accountId && (includeDeleted || e.live r)

theorem batchWhere_named {sql : Sql} {e : EntityDescriptor} {accountId : Uuid}
    {clause : SelectionClause} {includeDeleted : Bool} {batch : BulkActionBatch} {ids : List Uuid}
    (hids : batch.entityIds = some ids) (hne : ids ≠ []) :
    EntityTable.batchWhere sql e accountId clause includeDeleted batch =
      EntityTable.namedWhere e accountId includeDeleted ids := by
  funext r
  cases ids with
  | nil => exact absurd rfl hne
  | cons x ids => simp only [EntityTable.batchWhere, hids, EntityTable.namedWhere,
      EntityDescriptor.live]

section Counts

variable {text : PyText} {config : Config} {claimed : List String} {rows : List EntityRow}

/-- The outcomes of a batch that bear an entity id, or none. -/
def BatchResult.bearing (r : BatchResult) (id : Option Uuid) : Nat :=
  r.outcomes.countP (fun o => o.entityId = id)

theorem bearing_eq_count (r : BatchResult) (id : Option Uuid) :
    r.bearing id = (r.outcomes.map EntityOutcome.entityId).count id := by
  rw [BatchResult.bearing, List.count, List.countP_map]
  exact List.countP_congr (fun o _ => by simp)

theorem runBatch_bearing (entityCount : Nat) (affected : List Uuid) (id : Uuid) :
    (runBatch text config entityCount rows claimed affected).bearing (some id) =
      (rows.map EntityRow.id).count id := by
  have hinj : Function.Injective (some : Uuid → Option Uuid) := Option.some_injective _
  have hids : rows.map (fun row => some row.id) = (rows.map EntityRow.id).map some := by
    rw [List.map_map]
    rfl
  rw [bearing_eq_count, (runBatch_perm entityCount rows affected).count_eq, List.count_append,
    hids, List.count_map_of_injective _ _ hinj]
  simp [List.count_replicate]

theorem runBatch_bearing_none (entityCount : Nat) (affected : List Uuid) :
    (runBatch text config entityCount rows claimed affected).bearing none =
      entityCount - rows.length := by
  have hsome : (rows.map (fun row => some row.id)).count none = 0 :=
    List.count_eq_zero.mpr (by simp)
  rw [bearing_eq_count, (runBatch_perm entityCount rows affected).count_eq, List.count_append,
    hsome, List.count_replicate_self, Nat.add_zero]

theorem runBatch_named {entityCount : Nat} {affected : List Uuid} {o : EntityOutcome}
    (ho : o ∈ (runBatch text config entityCount rows claimed affected).outcomes) {id : Uuid}
    (hid : o.entityId = some id) : ∃ row ∈ rows, row.id = id := by
  have hmem := (runBatch_perm entityCount rows affected).mem_iff.mp
    (List.mem_map_of_mem (f := EntityOutcome.entityId) ho)
  rw [hid] at hmem
  rcases List.mem_append.mp hmem with hnone | hrow
  · cases List.eq_of_mem_replicate hnone
  · obtain ⟨row, hrow, heq⟩ := List.mem_map.mp hrow
    exact ⟨row, hrow, Option.some.inj heq⟩

/-- An outcome that is not skipped is that of an id the handler's statement names, a success if
the statement returns it. -/
theorem execute_written {rows : List EntityRow} {affected : List Uuid} {o : EntityOutcome}
    (ho : o ∈ (config.execute rows affected).outcomes) (hs : o.status ≠ .skipped) :
    ∃ id ∈ config.targets rows, o.entityId = some id ∧
      ((o.status = .success ∧ id ∈ affected) ∨
        (o.status = .failed ∧ o.reasonCode = some .entityNotFound ∧ id ∉ affected)) := by
  cases config with
  | update c =>
    rcases List.mem_append.mp ho with ho | ho
    · obtain ⟨row, _, rfl⟩ := List.mem_map.mp ho
      exact absurd rfl hs
    · obtain ⟨id, hid, rfl⟩ := List.mem_map.mp ho
      unfold BulkUpdateAction.written
      by_cases hmem : id ∈ affected
      · exact ⟨id, hid, by simp [hmem, EntityOutcome.success]⟩
      · exact ⟨id, hid, by simp [hmem, EntityOutcome.failed]⟩
  | delete c =>
    obtain ⟨id, hid, rfl⟩ := List.mem_map.mp ho
    unfold BulkDeleteAction.removed
    by_cases hmem : id ∈ affected
    · exact ⟨id, hid, by simp [hmem, EntityOutcome.success]⟩
    · exact ⟨id, hid, by simp [hmem, EntityOutcome.failed]⟩

theorem runBatch_written {entityCount : Nat} {affected : List Uuid} {o : EntityOutcome}
    (ho : o ∈ (runBatch text config entityCount rows claimed affected).outcomes)
    (hs : o.status ≠ .skipped) :
    ∃ id ∈ config.targets (executedRows text config rows claimed), o.entityId = some id ∧
      ((o.status = .success ∧ id ∈ affected) ∨
        (o.status = .failed ∧ o.reasonCode = some .entityNotFound ∧ id ∉ affected)) := by
  rcases List.mem_append.mp ho with ho | ho
  · rcases List.mem_append.mp ho with ho | ho
    · rw [List.eq_of_mem_replicate ho] at hs
      exact absurd rfl hs
    · unfold duplicateOutcomes at ho
      split at ho
      next =>
        obtain ⟨d, _, rfl⟩ := List.mem_map.mp ho
        exact absurd rfl hs
      next => cases ho
  · exact execute_written ho hs

theorem mem_of_mem_targets {rows : List EntityRow} {id : Uuid} (h : id ∈ config.targets rows) :
    ∃ row ∈ rows, row.id = id := by
  cases config with
  | update c =>
    obtain ⟨row, hrow, rfl⟩ := List.mem_map.mp h
    exact ⟨row, (List.mem_filter.mp hrow).1, rfl⟩
  | delete c =>
    obtain ⟨row, hrow, rfl⟩ := List.mem_map.mp h
    exact ⟨row, hrow, rfl⟩

end Counts

/-- Every row that a batch has loaded gets exactly one outcome, the entities that are missing
get one each that names nobody, and the counters add up to all of them. -/
theorem one_outcome_per_row (sql : Sql) (text : PyText) (e : EntityDescriptor) (accountId : Uuid)
    (clause : SelectionClause) (includeDeleted : Bool) (config : Config)
    (batch : BulkActionBatch) (ledger : String → Bool) (t : EntityTable) (affected : List Uuid) :
    let rows := t.loadBatchRows sql e accountId clause includeDeleted batch
    let claimed := (ledgerKeys text config rows).filter (fun key => !ledger key)
    let result := runBatch text config batch.entityCount rows claimed affected
    (∀ row ∈ rows, result.bearing (some row.id) = 1) ∧
      result.bearing none = batch.entityCount - rows.length ∧
      (∀ o ∈ result.outcomes, ∀ id, o.entityId = some id → ∃ row ∈ rows, row.id = id) ∧
      result.successCount + result.failureCount + result.skippedCount = result.outcomes.length := by
  intro rows claimed result
  refine ⟨fun row hrow => ?_, runBatch_bearing_none _ _, fun o ho id hid => ?_, ?_⟩
  · have hnodup : (rows.map EntityRow.id).Nodup := nodup_loadBatchRows ..
    have hbearing : result.bearing (some row.id) = (rows.map EntityRow.id).count row.id :=
      runBatch_bearing _ _ _
    rw [hbearing]
    exact List.count_eq_one_of_mem hnodup (List.mem_map_of_mem hrow)
  · exact runBatch_named ho hid
  · exact result.processedCount_eq.symm

end BulkActions
