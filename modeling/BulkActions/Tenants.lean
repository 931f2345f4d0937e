import BulkActions.DedupLedger
import BulkActions.Noninterference
import BulkActions.TenantIsolation

namespace BulkActions

open ReadCommitted

/-- An action on one of the entity tables. -/
structure TableAction extends EntityAction where
  entityType : EntityType
  registered : entity = getEntity entityType
  batchSize : Nat

/-- Where an attempt at a batch stands, from its load on. -/
inductive ExecutionPc where
  | idle
  | inserting (batch : BulkActionBatch) (rows : List EntityRow) (todo claimed : List String)
  | committed (batch : BulkActionBatch) (result : BatchResult)
  | rolledBack

/-- The generator, the batches it has yielded, the attempts at them and the keys of the action. -/
structure Execution where
  source : Option PlanSource
  batches : List BulkActionBatch
  ledger : Ledger
  attempts : AttemptId → ExecutionPc

inductive ExecutionLabel where
  /-- the planner resumes the generator -/
  | plan
  /-- attempt `p` loads the rows of batch `i` -/
  | load (p : AttemptId) (i : Nat)
  /-- and inserts its next key into the ledger -/
  | insert (p : AttemptId)
  /-- and executes the handler and commits -/
  | write (p : AttemptId) (now : Timestamp)
  | rollback (p : AttemptId)

namespace Execution

def start (a : TableAction) : Execution where
  source := some (.start a.config a.batchSize)
  batches := []
  ledger := ⟨fun _ => false, fun _ => [], fun _ => none⟩
  attempts _ := .idle

def set (r : Execution) (ledger : Ledger) (p : AttemptId) (pc : ExecutionPc) : Execution :=
  { r with ledger := ledger, attempts := Function.update r.attempts p pc }

/-- The page the generator reads when it is resumed. -/
def readPage (a : TableAction) (t : EntityTable) : PlanSource → List Uuid
  | .filter lastId _ => t.selectPage a.sql a.clause a.batchSize lastId
  | .ids _ => []
  | .exhausted => []

def planNext (a : TableAction) (t : EntityTable) (r : Execution) (source : PlanSource) :
    Execution :=
  match source.next a.batchSize (readPage a t source) with
  | none => { r with source := none }
  | some (planned, next) =>
    { r with source := some next, batches := r.batches ++ [plannedRow planned] }

/-- A statement of an action, on the table it works on. -/
def step (a : TableAction) (t : EntityTable) (r : Execution) :
    ExecutionLabel → Option (EntityTable × Execution)
  | .plan => r.source.map (fun source => (t, r.planNext a t source))
  | .load p i =>
    match r.attempts p, r.batches[i]? with
    | .idle, some batch =>
      let rows := a.loadRows batch t
      some (t, r.set r.ledger p (.inserting batch rows (ledgerKeys a.text a.config rows) []))
    | _, _ => none
  | .insert p =>
    match r.attempts p with
    | .inserting batch rows (key :: todo) claimed =>
      if r.ledger.free p key then
        if r.ledger.view insertKey p key then
          some (t, r.set r.ledger p (.inserting batch rows todo claimed))
        else
          some (t, r.set (r.ledger.write some p key) p
            (.inserting batch rows todo (claimed ++ [key])))
      else none
    | _ => none
  | .write p now =>
    match r.attempts p with
    | .inserting batch rows [] claimed =>
      let ids := a.config.targets (executedRows a.text a.config rows claimed)
      some (t.write a.entity a.config a.accountId now ids,
        r.set (r.ledger.commit insertKey p) p (.committed batch
          (runBatch a.text a.config batch.entityCount rows claimed (t.affected a.accountId ids))))
    | _ => none
  | .rollback p =>
    match r.attempts p with
    | .inserting _ _ _ _ => some (t, r.set (r.ledger.rollback p) p .rolledBack)
    | _ => none

end Execution

/-- All the entity tables, and all the actions that are executed on them. -/
structure Tenancy where
  tables : EntityType → EntityTable
  executions : ℕ → Execution

/-- What an account owns: its entities, and what its actions have come to. -/
structure AccountView where
  rows : EntityType → List EntityRecord
  executions : ℕ → Option Execution

namespace Tenancy

variable (actions : ℕ → TableAction)

/-- A statement of one of the actions. -/
def step (s : Tenancy) (l : ℕ × ExecutionLabel) : Option Tenancy :=
  let a := actions l.1
  ((s.executions l.1).step a (s.tables a.entityType) l.2).map (fun next =>
    { tables := Function.update s.tables a.entityType next.1
      executions := Function.update s.executions l.1 next.2 })

def owns (accountId : Uuid) (l : ℕ × ExecutionLabel) : Bool := (actions l.1).accountId = accountId

def view (accountId : Uuid) (s : Tenancy) : AccountView where
  rows entityType := (s.tables entityType).ofAccount accountId
  executions k := if (actions k).accountId = accountId then some (s.executions k) else none

end Tenancy

section Statements

variable {a : TableAction} {t t' : EntityTable} {r : Execution} {accountId : Uuid}

/-- Without an effect on the rows of other accounts. -/
theorem write_ofAccount_ne (e : EntityDescriptor) (config : Config) {owner : Uuid}
    (now : Timestamp) (ids : List Uuid) (t : EntityTable) (hne : owner ≠ accountId) :
    (t.write e config owner now ids).ofAccount accountId = t.ofAccount accountId := by
  have hothers : ∀ t : EntityTable, t.ofAccount accountId =
      (t.ofOthers owner).filter (fun r => r.accountId = accountId) := by
    intro t
    rw [EntityTable.ofAccount, EntityTable.ofOthers, EntityTable.select, EntityTable.select,
      List.filter_filter]
    refine List.filter_congr (fun r _ => ?_)
    by_cases hr : r.accountId = accountId
    · simp [hr, hne.symm]
    · simp [hr]
  rw [hothers, EntityTable.write_ofOthers, ← hothers]

/-- Only a write changes the table, and only the planner moves the generator. -/
theorem execution_step_cases {l : ExecutionLabel} {next : EntityTable × Execution}
    (h : r.step a t l = some next) :
    (next.1 = t ∨ ∃ now ids, next.1 = t.write a.entity a.config a.accountId now ids) ∧
      (l ≠ .plan → next.2.source = r.source ∧ next.2.batches = r.batches) := by
  cases l with
  | plan =>
    obtain ⟨source, _, rfl⟩ := Option.map_eq_some_iff.mp h
    exact ⟨Or.inl rfl, fun hl => absurd rfl hl⟩
  | load p i =>
    simp only [Execution.step] at h
    split at h <;> cases h
    exact ⟨Or.inl rfl, fun _ => ⟨rfl, rfl⟩⟩
  | insert p =>
    simp only [Execution.step] at h
    split at h
    next =>
      split_ifs at h <;> cases h <;> exact ⟨Or.inl rfl, fun _ => ⟨rfl, rfl⟩⟩
    next => cases h
  | write p now =>
    simp only [Execution.step] at h
    split at h <;> cases h
    exact ⟨Or.inr ⟨now, _, rfl⟩, fun _ => ⟨rfl, rfl⟩⟩
  | rollback p =>
    simp only [Execution.step] at h
    split at h <;> cases h
    exact ⟨Or.inl rfl, fun _ => ⟨rfl, rfl⟩⟩

theorem step_ofAccount_ne {l : ExecutionLabel} {next : EntityTable × Execution}
    (h : r.step a t l = some next) (hne : a.accountId ≠ accountId) :
    next.1.ofAccount accountId = t.ofAccount accountId := by
  obtain htable | ⟨now, ids, htable⟩ := (execution_step_cases h).1
  · rw [htable]
  · rw [htable]
    exact write_ofAccount_ne _ _ _ _ _ hne

theorem readPage_agree (agree : t.ofAccount a.accountId = t'.ofAccount a.accountId)
    (source : PlanSource) : Execution.readPage a t source = Execution.readPage a t' source := by
  cases source with
  | filter lastId index =>
    have own : ∀ r : EntityRecord, (a.clause.holds a.sql r &&
        lastId.all (fun last => decide (last < r.id))) → r.accountId = a.accountId := by
      intro r hr
      simp only [SelectionClause.holds, Bool.and_eq_true, decide_eq_true_eq] at hr
      exact hr.1.1.1.trans a.clause_account
    rw [Execution.readPage, Execution.readPage, EntityTable.selectPage, EntityTable.selectPage,
      EntityTable.select_own own t, EntityTable.select_own own t', agree]
  | ids rest => rfl
  | exhausted => rfl

/-- On two tables that agree on the account's rows, a statement does the same for it. -/
theorem step_agree (agree : t.ofAccount a.accountId = t'.ofAccount a.accountId)
    {l : ExecutionLabel} {next : EntityTable × Execution} (h : r.step a t l = some next) :
    ∃ table, r.step a t' l = some (table, next.2) ∧
      next.1.ofAccount a.accountId = table.ofAccount a.accountId := by
  cases l with
  | plan =>
    obtain ⟨source, hsource, rfl⟩ := Option.map_eq_some_iff.mp h
    refine ⟨t', ?_, agree⟩
    simp only [Execution.step, hsource, Option.map_some, Execution.planNext,
      readPage_agree agree source]
  | load p i =>
    have hload := fun batch => EntityAction.loadRows_agree (a := a.toEntityAction) agree batch
    simp only [Execution.step] at h ⊢
    split at h <;> cases h
    next batch _ hb =>
      exact ⟨t', by simp only [*], agree⟩
  | insert p =>
    simp only [Execution.step] at h ⊢
    split at h
    next =>
      split_ifs at h <;> cases h <;> exact ⟨t', by simp only [*]; rfl, agree⟩
    next => cases h
  | write p now =>
    have haffected := @EntityAction.affected_agree _ _ a.accountId agree
    simp only [Execution.step] at h ⊢
    split at h <;> cases h
    next batch rows claimed hp =>
      refine ⟨_, congrArg some (Prod.ext rfl ?_), ?_⟩
      · rw [haffected]
      · rw [EntityTable.write_ofAccount, EntityTable.write_ofAccount, agree]
  | rollback p =>
    simp only [Execution.step] at h ⊢
    split at h <;> cases h
    exact ⟨t', rfl, agree⟩

end Statements

section Views

variable {actions : ℕ → TableAction} {s s' t : Tenancy} {accountId : Uuid}

theorem tenancy_step {l : ℕ × ExecutionLabel} (h : s.step actions l = some s') :
    ∃ next, (s.executions l.1).step (actions l.1) (s.tables (actions l.1).entityType) l.2 =
        some next ∧
      s' = ⟨Function.update s.tables (actions l.1).entityType next.1,
        Function.update s.executions l.1 next.2⟩ := by
  obtain ⟨next, hnext, rfl⟩ := Option.map_eq_some_iff.mp h
  exact ⟨next, hnext, rfl⟩

/-- What an account sees after a statement, when that has left it these rows. -/
theorem view_update (s : Tenancy) (k : ℕ) (entityType : EntityType) (table : EntityTable)
    (r : Execution) :
    Tenancy.view actions accountId ⟨Function.update s.tables entityType table,
        Function.update s.executions k r⟩ =
      { rows := Function.update (s.view actions accountId).rows entityType
          (table.ofAccount accountId)
        executions := Function.update (s.view actions accountId).executions k
          (if (actions k).accountId = accountId then some r else none) } := by
  rw [Tenancy.view, Tenancy.view]
  congr 1
  · funext entityType'
    by_cases he : entityType' = entityType
    · subst he
      simp
    · simp [he]
  · funext k'
    by_cases hk : k' = k
    · subst hk
      simp
    · simp [hk]

/-- Accounts are apart: a statement of another account changes nothing an account sees, and one of
its own depends on that alone. -/
theorem accounts_unwind (actions : ℕ → TableAction) (accountId : Uuid) :
    Noninterference.Unwinds (Tenancy.step actions) (Tenancy.owns actions accountId)
      (Tenancy.view actions accountId) where
  hidden := by
    intro s s' l hl h
    have hne : (actions l.1).accountId ≠ accountId := by simpa [Tenancy.owns] using hl
    obtain ⟨next, hnext, rfl⟩ := tenancy_step h
    rw [view_update, step_ofAccount_ne hnext hne, if_neg hne]
    refine congrArg₂ AccountView.mk ?_ ?_
    · exact Function.update_eq_self _ _
    · refine Function.update_eq_self_iff.mpr ?_
      simp [Tenancy.view, hne]
  agrees := by
    intro s s' t l hl hview h
    have hown : (actions l.1).accountId = accountId := by simpa [Tenancy.owns] using hl
    obtain ⟨next, hnext, rfl⟩ := tenancy_step h
    have hrows := congrFun (congrArg AccountView.rows hview) (actions l.1).entityType
    have hexecution := congrFun (congrArg AccountView.executions hview) l.1
    simp only [Tenancy.view, hown, if_true, Option.some.injEq] at hrows hexecution
    subst hown
    obtain ⟨table, htable, hagree⟩ := step_agree hrows hnext
    rw [hexecution] at htable
    refine ⟨_, congrArg (Option.map _) htable, ?_⟩
    rw [view_update, view_update, hview, hagree]

/-- Whatever the actions of other accounts do in between, an account's entities and the outcomes
of its actions are those of the run in which its actions are alone, on tables that hold its
entities only or any others besides. -/
theorem accounts_run_apart {ls : List (ℕ × ExecutionLabel)}
    (h : Runs.steps (Tenancy.step actions) s ls = some s')
    (hview : s.view actions accountId = t.view actions accountId) :
    ∃ t', Runs.steps (Tenancy.step actions) t (ls.filter (Tenancy.owns actions accountId)) =
        some t' ∧
      s'.view actions accountId = t'.view actions accountId :=
  (accounts_unwind actions accountId).purge h hview

end Views

/-- Accounts 1 and 2 both name contacts 5 and 8. -/
def rivals (k : ℕ) : TableAction :=
  { deleteNamed with
    accountId := k + 1
    clause := ⟨k + 1, some "deleted_at", []⟩
    compiled := rfl
    accepted := rfl
    entityType := .contact
    registered := rfl
    batchSize := 10 }

/-- The contacts of both accounts, and those of the first one alone. -/
theorem accounts_run_apart_rivals :
    let labels (k : ℕ) : List (ℕ × ExecutionLabel) := [(k, .plan), (k, .load 0 0), (k, .write 0 3)]
    ∃ s' t' : Tenancy,
      Runs.steps (Tenancy.step rivals)
          ⟨fun _ => twoAccounts, fun k => .start (rivals k)⟩ (labels 1 ++ labels 0) = some s' ∧
        Runs.steps (Tenancy.step rivals)
          ⟨fun _ => threeContacts, fun k => .start (rivals k)⟩ (labels 0) = some t' ∧
        s'.view rivals 1 = t'.view rivals 1 := by
  intro labels
  obtain ⟨s', hs⟩ : ∃ s', Runs.steps (Tenancy.step rivals)
      ⟨fun _ => twoAccounts, fun k => .start (rivals k)⟩ (labels 1 ++ labels 0) = some s' :=
    ⟨_, rfl⟩
  have hview : Tenancy.view rivals 1 ⟨fun _ => twoAccounts, fun k => .start (rivals k)⟩ =
      Tenancy.view rivals 1 ⟨fun _ => threeContacts, fun k => .start (rivals k)⟩ := rfl
  obtain ⟨t', ht', hagree⟩ := accounts_run_apart hs hview
  exact ⟨s', t', hs, ht', hagree⟩

end BulkActions
