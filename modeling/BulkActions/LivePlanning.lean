import BulkActions.ExplicitIds
import BulkActions.Tenants

namespace BulkActions

open Keyset

/-- The pages that so many entities fill. -/
def pageCount (n size : Nat) : Nat :=
  (n + size - 1) / size

/-- A page of at least one entity is one page less to come. -/
theorem pageCount_next {n rest size : Nat} (hpos : 1 ≤ size) (h : size + rest ≤ n) :
    pageCount rest size + 1 ≤ pageCount n size := by
  rw [pageCount, pageCount, ← Nat.add_div_right _ hpos]
  exact Nat.div_le_div_right (by omega)

theorem pageCount_pos {n size : Nat} (hpos : 1 ≤ size) (h : 1 ≤ n) : 1 ≤ pageCount n size :=
  Nat.div_pos (by omega) hpos

theorem pageCount_mono {m n : Nat} (size : Nat) (h : m ≤ n) : pageCount m size ≤ pageCount n size :=
  Nat.div_le_div_right (by omega)

def ExecutionLabel.isPlan : ExecutionLabel → Bool
  | .plan => true
  | _ => false

namespace TableAction

/-- The rows of the account that are ahead of a cursor, whether the action selects them or not. -/
def rowsAhead (a : TableAction) (t : EntityTable) (lastId : Option Uuid) : Nat :=
  t.rows.countP (fun r =>
    decide (r.accountId = a.accountId) && lastId.all (fun last => decide (last < r.id)))

/-- The entities that the generator can still plan, at most. -/
def entitiesLeft (a : TableAction) (t : EntityTable) : PlanSource → Nat
  | .filter lastId _ => a.rowsAhead t lastId
  | .ids rest => (rest.map PlannedBatch.entityCount).sum
  | .exhausted => 0

/-- The batches it can still yield, at most. -/
def batchesLeft (a : TableAction) (t : EntityTable) : PlanSource → Nat
  | .filter lastId _ => pageCount (a.rowsAhead t lastId) a.batchSize
  | .ids rest => rest.length
  | .exhausted => 0

/-- The distinct ids that the action names, or else the rows of its account. -/
def selectable (a : TableAction) (t : EntityTable) : Nat :=
  match a.config.explicitIds with
  | some entityIds => entityIds.eraseDups.length
  | none => (t.ofAccount a.accountId).length

end TableAction

section Generator

variable {a : TableAction} {t : EntityTable}

theorem entityCount_planFromIds (entityIds : List Uuid) (batchSize : Nat) :
    ((planFromIds entityIds batchSize).map PlannedBatch.entityCount).sum ≤
      entityIds.eraseDups.length := by
  have hcount : ∀ i, (plannedChunk i (pageAt batchSize i entityIds.eraseDups)).entityCount =
      (pageAt batchSize i entityIds.eraseDups).countP (fun _ => true) := by
    intro i
    rw [List.countP_true]
    exact (plannedChunk_ids_perm i _).length_eq
  rw [planFromIds_eq, List.map_map]
  calc ((List.range (chunkCount entityIds batchSize)).map
        (PlannedBatch.entityCount ∘
          fun i => plannedChunk i (pageAt batchSize i entityIds.eraseDups))).sum
      = (entityIds.eraseDups.take (chunkCount entityIds batchSize * batchSize)).length := by
        rw [← List.countP_true, ← sum_countP_pageAt]
        exact congrArg List.sum (List.map_congr_left (fun i _ => hcount i))
    _ ≤ entityIds.eraseDups.length := List.length_take_le' _ _

theorem start_left (a : TableAction) (t : EntityTable) :
    a.entitiesLeft t (.start a.config a.batchSize) ≤ a.selectable t ∧
      a.batchesLeft t (.start a.config a.batchSize) = pageCount (a.selectable t) a.batchSize := by
  cases hids : a.config.explicitIds with
  | some entityIds =>
    simp only [PlanSource.start, TableAction.selectable, TableAction.entitiesLeft,
      TableAction.batchesLeft, hids]
    exact ⟨entityCount_planFromIds _ _, length_planFromIds _ _⟩
  | none =>
    have hrows : a.rowsAhead t none = (t.ofAccount a.accountId).length := by
      rw [EntityTable.ofAccount, EntityTable.select, ← List.countP_eq_length_filter]
      exact List.countP_congr (fun r _ => by simp)
    simp only [PlanSource.start, TableAction.selectable, TableAction.entitiesLeft,
      TableAction.batchesLeft, hids, hrows]
    exact ⟨Nat.le_refl _, trivial⟩

/-- A page takes its entities off the rows ahead. -/
theorem length_page_add_ahead {lastId : Option Uuid} {last : Uuid}
    (hl : (t.selectPage a.sql a.clause a.batchSize lastId).getLast? = some last) :
    (t.selectPage a.sql a.clause a.batchSize lastId).length + a.rowsAhead t (some last) ≤
      a.rowsAhead t lastId := by
  rw [EntityTable.selectPage, List.getLast?_map, Option.map_eq_some_iff] at hl
  obtain ⟨r, hr, rfl⟩ := hl
  rw [EntityTable.selectPage, List.length_map]
  set p : EntityRecord → Bool := fun r =>
    a.clause.holds a.sql r && lastId.all (fun last => decide (last < r.id)) with hp
  set q : EntityRecord → Bool := fun r =>
    decide (r.accountId = a.accountId) && lastId.all (fun last => decide (last < r.id)) with hq
  have hpq : ∀ s : EntityRecord, p s → q s := by
    intro s hs
    simp only [hp, SelectionClause.holds, Bool.and_eq_true, decide_eq_true_eq] at hs
    simp only [hq, Bool.and_eq_true, decide_eq_true_eq]
    exact ⟨hs.1.1.1.trans a.clause_account, hs.2⟩
  have hpage : ((t.select p).take a.batchSize).Sublist (t.rows.filter q) :=
    (List.take_sublist _ _).trans (List.monotone_filter_right _ hpq)
  have hrq : q r := (List.mem_filter.mp (hpage.subset (List.mem_of_getLast? hr))).2
  have hbound := length_add_countP_after t.sorted hpage hr
  refine Nat.le_trans (Nat.add_le_add_left ?_ _) hbound
  refine List.countP_mono_left (fun s _ hs => ?_)
  simp only [Option.all_some, Bool.and_eq_true, decide_eq_true_eq] at hs
  simp only [hq, Bool.and_eq_true, decide_eq_true_eq] at hrq ⊢
  refine ⟨hs.2, hs.1, ?_⟩
  cases lastId with
  | none => rfl
  | some first =>
    have hfirst : first < r.id := by simpa using hrq.2
    simpa using Nat.lt_trans hfirst hs.2

/-- A resumption takes the batch it yields off what is left, and its entities. -/
theorem next_left {source source' : PlanSource} {planned : PlannedBatch}
    (h : source.next a.batchSize (Execution.readPage a t source) = some (planned, source')) :
    planned.entityCount + a.entitiesLeft t source' ≤ a.entitiesLeft t source ∧
      a.batchesLeft t source' + 1 ≤ a.batchesLeft t source := by
  cases source with
  | exhausted => cases h
  | ids rest =>
    cases rest with
    | nil => cases h
    | cons b rest =>
      cases h
      simp [TableAction.entitiesLeft, TableAction.batchesLeft]
  | filter lastId index =>
    set page := Execution.readPage a t (.filter lastId index) with hpage
    have hne : page ≠ [] := by
      intro hnil
      simp [PlanSource.next, hnil] at h
    rw [PlanSource.next, if_neg (by simpa using hne)] at h
    obtain ⟨rfl, rfl⟩ := Prod.mk.inj (Option.some.inj h)
    have hlast := List.getLast?_eq_some_getLast hne
    have hlen := List.length_pos_iff.mpr hne
    have hle : page.length ≤ a.batchSize := by
      rw [hpage, Execution.readPage, EntityTable.selectPage, List.length_map]
      exact List.length_take_le _ _
    have hahead : page.length + a.rowsAhead t (some (page.getLast hne)) ≤ a.rowsAhead t lastId :=
      length_page_add_ahead hlast
    split_ifs with hshort
    · -- after a short page the generator stops without another query
      refine ⟨?_, ?_⟩
      · simp only [plannedPage, TableAction.entitiesLeft]
        omega
      · exact pageCount_pos (by omega) (by omega)
    · simp only [plannedPage, TableAction.entitiesLeft, TableAction.batchesLeft, hlast]
      exact ⟨hahead, pageCount_next (by omega) (by omega)⟩

/-- Statements of actions insert no rows, and keep the ids and accounts of those they change. -/
theorem rowsAhead_write (e : EntityDescriptor) (config : Config) (owner : Uuid) (now : Timestamp)
    (ids : List Uuid) (lastId : Option Uuid) :
    a.rowsAhead (t.write e config owner now ids) lastId ≤ a.rowsAhead t lastId := by
  rw [TableAction.rowsAhead, TableAction.rowsAhead, EntityTable.write_rows, List.countP_filterMap]
  refine List.countP_mono_left (fun r _ hr => ?_)
  obtain ⟨r', hr', hq⟩ : ∃ r',
      (if EntityTable.hits owner ids r then config.write e now r else some r) = some r' ∧
        (decide (r'.accountId = a.accountId) &&
          lastId.all (fun last => decide (last < r'.id))) := by
    cases hw : (if EntityTable.hits owner ids r then config.write e now r else some r) with
    | none => simp [hw] at hr
    | some r' => exact ⟨r', rfl, by simpa [hw] using hr⟩
  have haccount := EntityTable.write_step_account e config owner now ids hr'
  have hid : r'.id = r.id := by
    split_ifs at hr'
    · exact Config.write_id hr'
    · rw [← Option.some.inj hr']
  rwa [haccount, hid] at hq

end Generator

/-- What an execution has planned, and what its generator can still plan. -/
def TableAction.entitiesDue (a : TableAction) (t : EntityTable) (r : Execution) : Nat :=
  (r.batches.map BulkActionBatch.entityCount).sum + r.source.elim 0 (a.entitiesLeft t)

def TableAction.batchesDue (a : TableAction) (t : EntityTable) (r : Execution) : Nat :=
  r.batches.length + r.source.elim 0 (a.batchesLeft t)

/-- How often the planner can still resume the generator; the last time it gets nothing. -/
def TableAction.resumptionsDue (a : TableAction) (t : EntityTable) (r : Execution) : Nat :=
  r.source.elim 0 (fun source => a.batchesLeft t source + 1)

/-- A step in which the generator of `r` is resumed `n` times. -/
structure TableAction.Spends (a : TableAction) (t t' : EntityTable) (r r' : Execution) (n : Nat) :
    Prop where
  entities : a.entitiesDue t' r' ≤ a.entitiesDue t r
  batches : a.batchesDue t' r' ≤ a.batchesDue t r
  resumptions : a.resumptionsDue t' r' + n ≤ a.resumptionsDue t r

section Steps

variable {a : TableAction} {t t' : EntityTable} {r r' : Execution}

/-- The writes of other statements take rows away from the walk, and leave its place alone. -/
theorem spends_nothing (hrows : ∀ lastId, a.rowsAhead t' lastId ≤ a.rowsAhead t lastId)
    (hsource : r'.source = r.source) (hbatches : r'.batches = r.batches) :
    a.Spends t t' r r' 0 := by
  have hleft : ∀ source, a.entitiesLeft t' source ≤ a.entitiesLeft t source ∧
      a.batchesLeft t' source ≤ a.batchesLeft t source := by
    intro source
    cases source with
    | filter lastId index => exact ⟨hrows lastId, pageCount_mono _ (hrows lastId)⟩
    | ids rest => exact ⟨Nat.le_refl _, Nat.le_refl _⟩
    | exhausted => exact ⟨Nat.le_refl _, Nat.le_refl _⟩
  refine ⟨?_, ?_, ?_⟩
  all_goals
    simp only [TableAction.entitiesDue, TableAction.batchesDue, TableAction.resumptionsDue,
      hsource, hbatches]
    cases r.source with
    | none => exact Nat.le_refl _
    | some source =>
      have hle := hleft source
      simp only [Option.elim_some]
      omega

/-- No statement of an action, of whatever account, puts a row ahead of a walk. -/
theorem step_rowsAhead {b : TableAction} {l : ExecutionLabel} {next : EntityTable × Execution}
    (h : r.step b t l = some next) (lastId : Option Uuid) :
    a.rowsAhead next.1 lastId ≤ a.rowsAhead t lastId := by
  obtain htable | ⟨now, ids, htable⟩ := (execution_step_cases h).1
  · rw [htable]
  · rw [htable]
    exact rowsAhead_write _ _ _ _ _ lastId

/-- A resumption moves what it yields from what is left to the batches. -/
theorem planNext_spends {source : PlanSource} (hsource : r.source = some source) :
    a.Spends t t r (r.planNext a t source) 1 := by
  cases hn : source.next a.batchSize (Execution.readPage a t source) with
  | none =>
    have hnext : r.planNext a t source = { r with source := none } := by
      rw [Execution.planNext, hn]
    refine ⟨?_, ?_, ?_⟩
    all_goals
      simp only [TableAction.entitiesDue, TableAction.batchesDue, TableAction.resumptionsDue,
        hnext, hsource, Option.elim_some, Option.elim_none]
      omega
  | some pair =>
    obtain ⟨planned, source'⟩ := pair
    have hnext : r.planNext a t source =
        { r with source := some source', batches := r.batches ++ [plannedRow planned] } := by
      rw [Execution.planNext, hn]
    have hleft := next_left hn
    have hcount : (plannedRow planned).entityCount = planned.entityCount := rfl
    refine ⟨?_, ?_, ?_⟩
    all_goals
      simp only [TableAction.entitiesDue, TableAction.batchesDue, TableAction.resumptionsDue,
        hnext, hsource, Option.elim_some, List.map_append, List.sum_append, List.map_singleton,
        List.sum_singleton, List.length_append, List.length_singleton, hcount]
      omega

theorem spends_step {l : ExecutionLabel} {next : EntityTable × Execution}
    (h : r.step a t l = some next) : a.Spends t next.1 r next.2 l.isPlan.toNat := by
  by_cases hl : l = .plan
  · subst hl
    obtain ⟨source, hsource, rfl⟩ := Option.map_eq_some_iff.mp h
    exact planNext_spends hsource
  · have hmark : l.isPlan = false := by
      cases l with
      | plan => exact absurd rfl hl
      | _ => rfl
    obtain ⟨hsource, hbatches⟩ := (execution_step_cases h).2 hl
    exact hmark ▸ spends_nothing (step_rowsAhead h) hsource hbatches

end Steps

/-- What planning has come to after so many resumptions of the generator, when there are `n`
entities to select from. -/
structure Execution.PlannedWithin (n size resumed : Nat) (r : Execution) : Prop where
  entities : (r.batches.map BulkActionBatch.entityCount).sum ≤ n
  batches : r.batches.length ≤ pageCount n size
  resumptions : resumed ≤ pageCount n size + 1
  ended : resumed = pageCount n size + 1 → r.source = none

section Live

variable {actions : ℕ → TableAction} {s s' : Tenancy}

/-- The planner of action `k` resumes its generator. -/
def resumes (k : ℕ) (l : ℕ × ExecutionLabel) : Bool :=
  decide (l.1 = k) && l.2.isPlan

/-- Statements of other actions, of any account, count as writes to the table of the walk. -/
theorem tenancy_spends {l : ℕ × ExecutionLabel} (k : ℕ) (h : s.step actions l = some s') :
    (actions k).Spends (s.tables (actions k).entityType) (s'.tables (actions k).entityType)
      (s.executions k) (s'.executions k) (resumes k l).toNat := by
  obtain ⟨next, hnext, rfl⟩ := tenancy_step h
  by_cases hk : l.1 = k
  · subst hk
    simpa [resumes] using spends_step hnext
  · have hmark : resumes k l = false := by simp [resumes, hk]
    have hexecution : Function.update s.executions l.1 next.2 k = s.executions k :=
      Function.update_of_ne (Ne.symm hk) _ _
    refine hmark ▸ spends_nothing (fun lastId => ?_) (congrArg Execution.source hexecution)
      (congrArg Execution.batches hexecution)
    by_cases htype : (actions k).entityType = (actions l.1).entityType
    · simpa [htype] using step_rowsAhead (a := actions k) hnext lastId
    · simp [htype]

/-- Planning over live tables stops: the walk of an action plans no more entities, and yields no
more batches, than its selection had to begin with, and after one more resumption it is over,
whatever the actions of all accounts write while it goes on. -/
theorem planning_stops {ls : List (ℕ × ExecutionLabel)} {k : ℕ}
    (hstart : s.executions k = .start (actions k))
    (h : Runs.steps (Tenancy.step actions) s ls = some s') :
    (s'.executions k).PlannedWithin
      ((actions k).selectable (s.tables (actions k).entityType)) (actions k).batchSize
      (ls.countP (resumes k)) := by
  set a := actions k with ha
  obtain ⟨hentities, hbatches⟩ := start_left a (s.tables a.entityType)
  have hkept : a.entitiesDue (s'.tables a.entityType) (s'.executions k) ≤
        a.entitiesDue (s.tables a.entityType) (s.executions k) ∧
      a.batchesDue (s'.tables a.entityType) (s'.executions k) ≤
        a.batchesDue (s.tables a.entityType) (s.executions k) := by
    refine (Runs.reaches_of_steps h).invariant (P := fun x =>
      a.entitiesDue (x.tables a.entityType) (x.executions k) ≤ _ ∧
        a.batchesDue (x.tables a.entityType) (x.executions k) ≤ _) ?_
      ⟨Nat.le_refl _, Nat.le_refl _⟩
    intro x x' l hx _ hl
    have hspends := tenancy_spends k hl
    exact ⟨Nat.le_trans hspends.entities hx.1, Nat.le_trans hspends.batches hx.2⟩
  have hcount := Runs.countP_le_weight (resumes k)
    (fun s => a.resumptionsDue (s.tables a.entityType) (s.executions k))
    (fun hl => (tenancy_spends k hl).resumptions) h
  simp only [hstart, Execution.start, TableAction.entitiesDue, TableAction.batchesDue,
    TableAction.resumptionsDue, Option.elim_some, List.map_nil, List.sum_nil,
    List.length_nil, hbatches, Nat.zero_add] at hkept hcount
  refine ⟨by omega, by omega, by omega, fun hall => ?_⟩
  cases hsource : (s'.executions k).source with
  | none => rfl
  | some source =>
    rw [hsource, Option.elim_some] at hcount
    omega

end Live

theorem deactivateContacts_keys :
    "id" ∉ deactivateContacts.updatedFields ∧ "account_id" ∉ deactivateContacts.updatedFields := by
  decide

/-- Accounts 1 and 2 deactivate their active contacts, one by one. -/
def deactivators (k : ℕ) : TableAction where
  sql := sampleSql
  text := asciiText
  entity := contactEntity
  accountId := k + 1
  config := deactivateContacts
  clause := ⟨k + 1, some "deleted_at", [⟨"status", .compare .eq (.str "active")⟩]⟩
  compiled := rfl
  accepted := rfl
  keys := deactivateContacts_keys
  entityType := .contact
  registered := rfl
  batchSize := 1

/-- Both accounts write between two pages of the first one's walk. -/
theorem planning_stops_deactivators :
    ∃ s' : Tenancy,
      Runs.steps (Tenancy.step deactivators)
          ⟨fun _ => twoAccounts, fun k => .start (deactivators k)⟩
          [(0, .plan), (1, .plan), (0, .load 0 0), (0, .write 0 3), (1, .load 0 0),
            (1, .write 0 4), (0, .plan), (0, .plan)] = some s' ∧
        (s'.executions 0).batches.length = 2 ∧ (s'.executions 0).source = none ∧
        (s'.executions 0).PlannedWithin 3 1 3 := by
  obtain ⟨s', hs, hlength, hsource⟩ : ∃ s' : Tenancy,
      Runs.steps (Tenancy.step deactivators)
          ⟨fun _ => twoAccounts, fun k => .start (deactivators k)⟩
          [(0, .plan), (1, .plan), (0, .load 0 0), (0, .write 0 3), (1, .load 0 0),
            (1, .write 0 4), (0, .plan), (0, .plan)] = some s' ∧
        (s'.executions 0).batches.length = 2 ∧ (s'.executions 0).source = none :=
    ⟨_, rfl, rfl, rfl⟩
  exact ⟨s', hs, hlength, hsource, planning_stops (k := 0) rfl hs⟩

end BulkActions
