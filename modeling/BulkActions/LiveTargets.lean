import BulkActions.EntityOutcomes
import BulkActions.TenantIsolation

namespace BulkActions

/-- The table once other transactions have committed, one after the other. -/
def EntityTable.commits (t : EntityTable) (others : List (EntityTable → EntityTable)) :
    EntityTable :=
  others.foldl (fun t commit => commit t) t

namespace EntityAction

/-- The ids in the WHERE clause of the statement that a batch sends for the rows it has loaded
from `t`. -/
def statementIds (a : EntityAction) (batch : BulkActionBatch) (ledger : String → Bool)
    (t : EntityTable) : List Uuid :=
  a.config.targets (a.executed batch ledger t)

/-- `run_batch` when its SELECT finds `t`, and its UPDATE or DELETE finds `t'`. -/
def runBatchBetween (a : EntityAction) (seq : Nat) (batch : BulkActionBatch)
    (ledger : String → Bool) (now : Timestamp) (t t' : EntityTable) : BatchEffect :=
  let rows := a.loadRows batch t
  let ids := a.statementIds batch ledger t
  let result := BulkActions.runBatch a.text a.config batch.entityCount rows
    (a.claimed batch ledger t) (t'.affected a.accountId ids)
  { result := result
    writes := result.persist seq batch.batchIndex now
    ledger := fun key => ledger key || key ∈ ledgerKeys a.text a.config rows
    table := t'.write a.entity a.config a.accountId now ids }

/-- With nothing in between it is `run_batch` on one table. -/
theorem runBatchBetween_self (a : EntityAction) (seq : Nat) (batch : BulkActionBatch)
    (ledger : String → Bool) (now : Timestamp) (t : EntityTable) :
    a.runBatchBetween seq batch ledger now t t = a.runBatch seq batch ledger now t :=
  rfl

end EntityAction

/-- A batch that has loaded its rows from `t` logs and writes no success for an entity that is
soft-deleted in `t'`, and reports such an entity as not found. -/
structure HitsLive (a : EntityAction) (batch : BulkActionBatch) (t t' : EntityTable)
    (effect : BatchEffect) : Prop where
  success : ∀ o ∈ effect.result.outcomes, o.status = .success → ∀ id, o.entityId = some id →
    ∀ r ∈ t'.rows, r.id = id → a.entity.live r
  deleted : ∀ row ∈ a.loadRows batch t, ∀ r ∈ t'.rows, r.id = row.id →
    r.accountId = a.accountId → a.entity.live r = false → r ∈ effect.table.rows ∧
      ∃ o ∈ effect.result.outcomes, o.entityId = some row.id ∧ o.status = .failed ∧
        o.reasonCode = some .entityNotFound

section Between

variable {a : EntityAction} {seq : Nat} {batch : BulkActionBatch} {ledger : String → Bool}
  {now : Timestamp} {t t' : EntityTable}

/-- What a batch reports on an id in its statement is whether the statement has hit it. -/
theorem runBatchBetween_written {o : EntityOutcome}
    (ho : o ∈ (a.runBatchBetween seq batch ledger now t t').result.outcomes)
    (hs : o.status ≠ .skipped) :
    ∃ id ∈ a.statementIds batch ledger t, o.entityId = some id ∧
      ((o.status = .success ∧ id ∈ t'.affected a.accountId (a.statementIds batch ledger t)) ∨
        (o.status = .failed ∧ o.reasonCode = some .entityNotFound ∧
          id ∉ t'.affected a.accountId (a.statementIds batch ledger t))) :=
  runBatch_written ho hs

/-- The ids that a batch names in its statement are those of rows it has loaded. -/
theorem loaded_of_statementIds {id : Uuid} (h : id ∈ a.statementIds batch ledger t) :
    ∃ row ∈ a.loadRows batch t, row.id = id := by
  obtain ⟨row, hrow, hid⟩ := mem_of_mem_targets h
  exact ⟨row, mem_of_mem_executedRows hrow, hid⟩

theorem account_of_affected {ids : List Uuid} {id : Uuid} (h : id ∈ t'.affected a.accountId ids)
    {r : EntityRecord} (hr : r ∈ t'.rows) (hid : r.id = id) : r.accountId = a.accountId := by
  obtain ⟨s, hs, hsid⟩ := List.mem_map.mp h
  obtain ⟨hs, hhits⟩ := EntityTable.mem_select.mp hs
  rw [EntityTable.eq_of_id hr hs (hid.trans hsid.symm)]
  exact of_decide_eq_true (Bool.and_eq_true_iff.mp hhits).2

/-- A batch hits live entities only, whatever is committed while it runs, exactly when no entity
it has loaded is soft-deleted before its statement. -/
theorem writes_hit_live_iff (a : EntityAction) (seq : Nat) (batch : BulkActionBatch)
    (ledger : String → Bool) (now : Timestamp) (t : EntityTable)
    (others : List (EntityTable → EntityTable)) :
    HitsLive a batch t (t.commits others)
        (a.runBatchBetween seq batch ledger now t (t.commits others)) ↔
      ∀ row ∈ a.loadRows batch t, ∀ r ∈ (t.commits others).rows, r.id = row.id →
        r.accountId = a.accountId → a.entity.live r := by
  generalize t.commits others = t'
  constructor
  · intro hlive row hrow r hr hid haccount
    by_contra hdeleted
    rw [Bool.not_eq_true] at hdeleted
    obtain ⟨_, o, ho, hoid, hfailed, _⟩ := hlive.deleted row hrow r hr hid haccount hdeleted
    obtain ⟨id, hmem, hid', hcase⟩ := runBatchBetween_written ho (by simp [hfailed])
    cases Option.some.inj (hoid.symm.trans hid')
    rcases hcase with ⟨hsuccess, _⟩ | ⟨_, _, hmiss⟩
    · simp [hfailed] at hsuccess
    · refine hmiss (List.mem_map.mpr ⟨r, EntityTable.mem_select.mpr ⟨hr, ?_⟩, hid⟩)
      rw [EntityTable.hits, hid, haccount, decide_eq_true hmem]
      simp
  · intro hlive
    refine ⟨fun o ho hsuccess id hoid r hr hid => ?_, fun row hrow r hr hid haccount hdeleted => ?_⟩
    · obtain ⟨id', hmem, hid', hcase⟩ := runBatchBetween_written ho (by simp [hsuccess])
      cases Option.some.inj (hoid.symm.trans hid')
      rcases hcase with ⟨_, haffected⟩ | ⟨hfailed, _⟩
      · obtain ⟨row, hrow, hrowid⟩ := loaded_of_statementIds hmem
        exact hlive row hrow r hr (hid.trans hrowid.symm) (account_of_affected haffected hr hid)
      · simp [hsuccess] at hfailed
    · rw [hlive row hrow r hr hid haccount] at hdeleted
      cases hdeleted

end Between

theorem sampleSql_accepted :
    SelectionClause.accepted sampleSql contactEntity ⟨1, some "deleted_at", []⟩ := by
  rfl

/-- The deactivation of contact 5, named by its id. -/
def deactivateNamed : EntityAction where
  sql := sampleSql
  text := asciiText
  entity := contactEntity
  accountId := 1
  config := .update ⟨[("status", .str "inactive")], none, some [5], none⟩
  clause := ⟨1, some "deleted_at", []⟩
  compiled := rfl
  accepted := sampleSql_accepted
  keys := by decide

/-- The soft deletion of the same contact. -/
def softDeleteNamed : EntityAction where
  sql := sampleSql
  text := asciiText
  entity := contactEntity
  accountId := 1
  config := .delete ⟨none, some [5], false, none⟩
  clause := ⟨1, some "deleted_at", []⟩
  compiled := rfl
  accepted := sampleSql_accepted
  keys := by decide

def contactFive : BulkActionBatch where
  batchIndex := 0
  status := .processing
  entityIds := some [5]
  cursorStart := some 5
  cursorEnd := some 5
  entityCount := 1

/-- A soft deletion that commits after a batch has loaded its rows is overwritten and reported
as a success. -/
theorem deleted_contact_updated :
    ¬ ∀ (a : EntityAction) (seq : Nat) (batch : BulkActionBatch) (ledger : String → Bool)
      (now : Timestamp) (t : EntityTable) (others : List (EntityTable → EntityTable)),
      HitsLive a batch t (t.commits others)
        (a.runBatchBetween seq batch ledger now t (t.commits others)) := by
  intro always
  let delete : EntityTable → EntityTable :=
    fun t => (softDeleteNamed.runBatch 1 contactFive (fun _ => false) 3 t).table
  have hlive := (always deactivateNamed 2 contactFive (fun _ => false) 4 threeContacts
    [delete]).success
  have hlogged : EntityOutcome.success 5 .updated (.updates [("status", .str "inactive")]) ∈
      (deactivateNamed.runBatchBetween 2 contactFive (fun _ => false) 4 threeContacts
        (threeContacts.commits [delete])).result.outcomes := by
    exact List.mem_singleton.mpr rfl
  have hfive : ((threeContacts.commits [delete]).rows.find? (fun r => r.id = 5)).map
      contactEntity.live = some false := by rfl
  obtain ⟨r, hr, hdeleted⟩ := Option.map_eq_some_iff.mp hfive
  have hid : r.id = 5 := by simpa using List.find?_some hr
  have hstill : contactEntity.live r :=
    hlive _ hlogged rfl 5 rfl r (List.mem_of_find?_eq_some hr) hid
  rw [hdeleted] at hstill
  cases hstill

end BulkActions
