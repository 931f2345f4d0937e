import BulkActions.EntityAction
import BulkActions.OneShot

namespace BulkActions

open Keyset

theorem write_account {e : EntityDescriptor} {now : Timestamp} {config : Config}
    {r r' : EntityRecord} (h : config.write e now r = some r') : r'.accountId = r.accountId := by
  cases config with
  | update c =>
    cases Option.some.inj h
    exact (r.assign_keys _).2
  | delete c =>
    simp only [Config.write] at h
    split at h
    · simp at h
    · split_ifs at h
      cases Option.some.inj h
      exact (r.assign_keys _).2

namespace EntityTable

/-- The rows of an account. -/
def ofAccount (t : EntityTable) (accountId : Uuid) : List EntityRecord :=
  t.select (fun r => r.accountId = accountId)

/-- The rows of all the other accounts. -/
def ofOthers (t : EntityTable) (accountId : Uuid) : List EntityRecord :=
  t.select (fun r => r.accountId ≠ accountId)

/-- A query with an account test sees the rows of the account. -/
theorem select_own {accountId : Uuid} {p : EntityRecord → Bool}
    (own : ∀ r, p r → r.accountId = accountId) (t : EntityTable) :
    t.select p = (t.ofAccount accountId).filter p := by
  rw [ofAccount, select, select, List.filter_filter]
  refine List.filter_congr (fun r _ => ?_)
  cases hp : p r with
  | false => rfl
  | true => simp [own r hp]

variable (e : EntityDescriptor) (config : Config) (accountId : Uuid) (now : Timestamp)
  (ids : List Uuid) (t : EntityTable)

theorem write_step_account {r r' : EntityRecord}
    (h : (if hits accountId ids r then config.write e now r else some r) = some r') :
    r'.accountId = r.accountId := by
  split_ifs at h
  · exact write_account h
  · rw [← Option.some.inj h]

/-- What the handler's statement makes of the account's rows depends on them alone. -/
theorem write_ofAccount :
    (t.write e config accountId now ids).ofAccount accountId =
      (t.ofAccount accountId).filterMap
        (fun r => if hits accountId ids r then config.write e now r else some r) := by
  rw [ofAccount, select, write_rows]
  refine filter_filterMap_comm (fun r r' h => ?_)
  rw [write_step_account e config accountId now ids h]

theorem write_ofOthers :
    (t.write e config accountId now ids).ofOthers accountId = t.ofOthers accountId := by
  rw [ofOthers, select, write_rows]
  apply filter_filterMap
  · intro r _ hr
    have hmiss : hits accountId ids r = false := by
      simp only [hits, Bool.and_eq_false_iff, decide_eq_false_iff_not]
      exact Or.inr (of_decide_eq_true hr)
    simp [hmiss]
  · intro r _ hr r' h
    rw [write_step_account e config accountId now ids h]
    exact hr

end EntityTable

namespace EntityAction

variable {a : EntityAction} {t t' : EntityTable}

theorem loadRows_agree (agree : t.ofAccount a.accountId = t'.ofAccount a.accountId)
    (batch : BulkActionBatch) : a.loadRows batch t = a.loadRows batch t' := by
  rw [loadRows, loadRows, EntityTable.loadBatchRows, EntityTable.loadBatchRows,
    EntityTable.select_own (fun r => account_of_batchWhere) t,
    EntityTable.select_own (fun r => account_of_batchWhere) t', agree]

theorem affected_agree {accountId : Uuid}
    (agree : t.ofAccount accountId = t'.ofAccount accountId) (ids : List Uuid) :
    t.affected accountId ids = t'.affected accountId ids := by
  have own : ∀ r, EntityTable.hits accountId ids r → r.accountId = accountId := by
    intro r hr
    exact of_decide_eq_true (Bool.and_eq_true_iff.mp hr).2
  rw [EntityTable.affected, EntityTable.affected, EntityTable.select_own own t,
    EntityTable.select_own own t', agree]

end EntityAction

/-- On two tables that agree on the account's rows, a batch has the same result, writes the
same rows for it, claims the same keys and leaves the account's rows the same; rows of other
accounts are left alone. -/
theorem tenant_isolation {a : EntityAction} {t t' : EntityTable}
    (agree : t.ofAccount a.accountId = t'.ofAccount a.accountId) (seq : Nat)
    (batch : BulkActionBatch) (ledger : String → Bool) (now : Timestamp) :
    (a.runBatch seq batch ledger now t).result = (a.runBatch seq batch ledger now t').result ∧
    (a.runBatch seq batch ledger now t).writes = (a.runBatch seq batch ledger now t').writes ∧
    (a.runBatch seq batch ledger now t).ledger = (a.runBatch seq batch ledger now t').ledger ∧
    (a.runBatch seq batch ledger now t).table.ofAccount a.accountId =
      (a.runBatch seq batch ledger now t').table.ofAccount a.accountId ∧
    (a.runBatch seq batch ledger now t).table.ofOthers a.accountId = t.ofOthers a.accountId ∧
    (a.runBatch seq batch ledger now t').table.ofOthers a.accountId = t'.ofOthers a.accountId := by
  have hload := EntityAction.loadRows_agree agree batch
  have hexec : a.executed batch ledger t = a.executed batch ledger t' := by
    simp only [EntityAction.executed, EntityAction.claimed, hload]
  have hresult : (a.runBatch seq batch ledger now t).result =
      (a.runBatch seq batch ledger now t').result := by
    simp only [EntityAction.runBatch, EntityAction.claimed, hload, hexec,
      EntityAction.affected_agree agree]
  refine ⟨hresult, ?_, ?_, ?_, EntityTable.write_ofOthers .., EntityTable.write_ofOthers ..⟩
  · exact congrArg (BatchResult.persist seq batch.batchIndex now) hresult
  · simp only [EntityAction.runBatch, hload]
  · simp only [EntityAction.runBatch, EntityTable.write_ofAccount, hexec, agree]

/-- The hard deletion of contacts 5 and 8 of account 1, named by their ids. -/
def deleteNamed : EntityAction where
  sql := sampleSql
  text := asciiText
  entity := contactEntity
  accountId := 1
  config := .delete ⟨none, some [5, 8], true, none⟩
  clause := ⟨1, some "deleted_at", []⟩
  compiled := rfl
  accepted := rfl
  keys := by decide

def namedBatch : BulkActionBatch where
  batchIndex := 0
  status := .processing
  entityIds := some [5, 8]
  cursorStart := some 5
  cursorEnd := some 8
  entityCount := 2

/-- The three contacts next to contact 8, which belongs to account 2. -/
def twoAccounts : EntityTable where
  rows := threeContacts.rows ++ [{ contactRecord 8 "active" with accountId := 2 }]
  sorted := by simp [Increasing, threeContacts, contactRecord]

/-- Naming the contact of another account changes nothing. -/
theorem tenant_isolation_named :
    twoAccounts.ofAccount 1 = threeContacts.ofAccount 1 ∧
    (deleteNamed.runBatch 1 namedBatch (fun _ => false) 3 twoAccounts).result =
      (deleteNamed.runBatch 1 namedBatch (fun _ => false) 3 threeContacts).result ∧
    (deleteNamed.runBatch 1 namedBatch (fun _ => false) 3 twoAccounts).table.ofOthers 1 =
      twoAccounts.ofOthers 1 := by
  have agree : twoAccounts.ofAccount 1 = threeContacts.ofAccount 1 := rfl
  obtain ⟨hresult, _, _, _, hothers, _⟩ :=
    tenant_isolation (a := deleteNamed) agree 1 namedBatch (fun _ => false) 3
  exact ⟨agree, hresult, hothers⟩

end BulkActions
