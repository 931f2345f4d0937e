import BulkActions.EntityTable
import BulkActions.BatchRunner

namespace BulkActions

open Keyset

/-- A filter-selected action whose filter has been accepted. -/
structure FilterAction where
  sql : Sql
  text : PyText
  entity : EntityDescriptor
  accountId : Uuid
  config : Config
  clause : SelectionClause
  batchSize : Nat
  selected : config.explicitIds = none
  compiled : selectionClause text entity accountId config.selectionFilters
    config.includeDeleted = .ok clause
  accepted : clause.accepted sql entity
  positive : 1 ≤ batchSize

namespace FilterAction

/-- The page the generator reads when it is resumed. -/
def readPage (a : FilterAction) (t : EntityTable) : PlanSource → List Uuid
  | .filter lastId _ => t.selectPage a.sql a.clause a.batchSize lastId
  | .ids _ => []
  | .exhausted => []

def load (a : FilterAction) (t : EntityTable) (batch : BulkActionBatch) : List EntityRow :=
  t.loadBatchRows a.sql a.entity a.accountId a.clause a.config.includeDeleted batch

/-- The rows of the target set. -/
def target (a : FilterAction) (t : EntityTable) : List EntityRecord :=
  t.select (a.clause.holds a.sql)

def targetIds (a : FilterAction) (t : EntityTable) : List Uuid :=
  (a.target t).map EntityRecord.id

def page (a : FilterAction) (t : EntityTable) (i : Nat) : List EntityRecord :=
  pageAt a.batchSize i (a.target t)

/-- The batch row of the `i`-th page. -/
def pageRow (a : FilterAction) (t : EntityTable) (i : Nat) : BulkActionBatch :=
  plannedRow (plannedPage i ((a.page t i).map EntityRecord.id))

/-- The generator after it has yielded the first `i` pages. -/
def sourceAt (a : FilterAction) (t : EntityTable) : Nat → PlanSource
  | 0 => .filter none 0
  | i + 1 =>
    if (a.page t i).length < a.batchSize then .exhausted
    else .filter ((a.page t i).map EntityRecord.id).getLast? (i + 1)

/-- The table `t` once the rows that `progress` names have been processed. -/
def Progressed (a : FilterAction) (progress : Uuid → Option Timestamp) (t t' : EntityTable) :
    Prop :=
  t'.rows = t.rows.filterMap (fun r =>
    match progress r.id with
    | none => some r
    | some now => a.config.apply a.entity now r)

variable (a : FilterAction)

theorem clause_account : a.clause.accountId = a.accountId :=
  selectionClause_account a.compiled

variable {a} {t t' : EntityTable} {progress : Uuid → Option Timestamp}

theorem account_of_holds {r : EntityRecord} (h : a.clause.holds a.sql r) :
    r.accountId = a.accountId := by
  simp only [SelectionClause.holds, Bool.and_eq_true, decide_eq_true_eq] at h
  exact h.1.1.trans a.clause_account

theorem mem_target {r : EntityRecord} : r ∈ a.target t ↔ r ∈ t.rows ∧ a.clause.holds a.sql r :=
  EntityTable.mem_select

theorem target_increasing : Increasing EntityRecord.id (a.target t) :=
  t.select_increasing _

theorem mem_target_of_page {i : Nat} {r : EntityRecord} (h : r ∈ a.page t i) : r ∈ a.target t :=
  mem_of_mem_pageAt h

theorem mem_pageIds {i : Nat} {r : EntityRecord} (hr : r ∈ t.rows) :
    r.id ∈ (a.page t i).map EntityRecord.id ↔ r ∈ a.page t i :=
  EntityTable.mem_ids (fun _ hs => (mem_target.mp (mem_target_of_page hs)).1) hr

theorem page_unique {i j : Nat} {r : EntityRecord} (hi : r ∈ a.page t i) (hj : r ∈ a.page t j) :
    i = j := by
  have nodup : (a.target t).Nodup := target_increasing.nodup_map.of_map _
  exact (existsUnique_page a.positive nodup (mem_target_of_page hi)).unique hi hj

theorem exists_page {r : EntityRecord} (h : r ∈ a.target t) : ∃ i, r ∈ a.page t i := by
  have nodup : (a.target t).Nodup := target_increasing.nodup_map.of_map _
  exact (existsUnique_page a.positive nodup h).exists

theorem page_ne_nil {i : Nat} : a.page t i ≠ [] ↔ i * a.batchSize < (a.target t).length := by
  rw [page, ne_eq, pageAt_eq_nil a.positive, not_le]

/-- Queries by key that touch no processed row find what they would have found at first. -/
theorem select_progressed (h : a.Progressed progress t t') {q : Uuid → Bool}
    (untouched : ∀ r ∈ t.rows, q r.id → progress r.id = none) :
    t'.select (fun r => a.clause.holds a.sql r && q r.id) =
      (a.target t).filter (fun r => q r.id) := by
  have keeps : ∀ r r', (match progress r.id with
      | none => some r
      | some now => a.config.apply a.entity now r) = some r' → r'.id = r.id := by
    intro r r' hr
    split at hr
    · rw [← Option.some.inj hr]
    · exact Config.apply_id hr
  rw [target, ← EntityTable.select_and, EntityTable.select, EntityTable.select, h]
  apply filter_filterMap
  · intro r hr hp
    rw [untouched r hr (Bool.and_eq_true_iff.mp hp).2]
  · intro r hr hp r' hr'
    cases hq : q r.id with
    | true =>
      rw [untouched r hr hq] at hr'
      rwa [← Option.some.inj hr']
    | false =>
      rw [keeps r r' hr', hq, Bool.and_false]

theorem mem_take_of_page {i j : Nat} {r : EntityRecord} (hj : j < i) (h : r ∈ a.page t j) :
    r ∈ (a.target t).take (i * a.batchSize) := by
  rw [← flatMap_pageAt]
  exact List.mem_flatMap.mpr ⟨j, List.mem_range.mpr hj, h⟩

/-- While only rows of earlier pages have been processed, the planner reads the page that it
would have read at first. -/
theorem readPage_progressed (h : a.Progressed progress t t') {i : Nat}
    (behind : ∀ r ∈ t.rows, progress r.id ≠ none → ∃ j < i, r ∈ a.page t j)
    (more : a.sourceAt t i ≠ .exhausted) :
    a.readPage t' (a.sourceAt t i) = (a.page t i).map EntityRecord.id := by
  cases i with
  | zero =>
    have untouched : ∀ r ∈ t.rows, true → progress r.id = none := by
      intro r hr _
      by_contra hne
      obtain ⟨j, hj, _⟩ := behind r hr hne
      exact absurd hj (Nat.not_lt_zero j)
    have hsel := select_progressed h (q := fun _ => true) untouched
    simp only [readPage, sourceAt, EntityTable.selectPage, Option.all_none, hsel, page, pageAt,
      Nat.zero_mul, List.drop_zero, List.filter_true]
  | succ i =>
    have hfull : ¬ (a.page t i).length < a.batchSize := by
      intro hlt
      exact more (if_pos hlt)
    have hne : a.page t i ≠ [] := by
      intro hnil
      have := a.positive
      simp only [hnil, List.length_nil] at hfull
      omega
    have hlast := List.getLast?_eq_some_getLast hne
    have hsource : a.sourceAt t (i + 1) = .filter (some ((a.page t i).getLast hne).id) (i + 1) := by
      rw [sourceAt, if_neg hfull, List.getLast?_map, hlast]
      rfl
    have hprefix : ((a.target t).take ((i + 1) * a.batchSize)).getLast? =
        some ((a.page t i).getLast hne) := by
      rw [take_succ_mul, List.getLast?_append]
      exact congrArg (fun o => Option.or o _) hlast
    have untouched : ∀ r ∈ t.rows, decide (((a.page t i).getLast hne).id < r.id) →
        progress r.id = none := by
      intro r hr hgt
      by_contra hsome
      obtain ⟨j, hj, hmem⟩ := behind r hr hsome
      have hle := (target_increasing.sublist (List.take_sublist _ _)).le_last hprefix
        (mem_take_of_page hj hmem)
      exact absurd (of_decide_eq_true hgt) (not_lt.mpr hle)
    have hsel := select_progressed h
      (q := fun id => decide (((a.page t i).getLast hne).id < id)) untouched
    rw [hsource]
    simp only [readPage, EntityTable.selectPage, Option.all_some, hsel]
    exact congrArg (List.map EntityRecord.id) (next_page target_increasing hlast)

/-- One resumption of the generator, while only rows of earlier pages have been processed. -/
theorem next_sourceAt (h : a.Progressed progress t t') {i : Nat}
    (behind : ∀ r ∈ t.rows, progress r.id ≠ none → ∃ j < i, r ∈ a.page t j) :
    (a.sourceAt t i).next a.batchSize (a.readPage t' (a.sourceAt t i)) =
      if i * a.batchSize < (a.target t).length then
        some (plannedPage i ((a.page t i).map EntityRecord.id), a.sourceAt t (i + 1))
      else none := by
  by_cases more : a.sourceAt t i = .exhausted
  · cases i with
    | zero => simp [sourceAt] at more
    | succ i =>
      have hshort : (a.page t i).length < a.batchSize := by
        by_contra hfull
        simp [sourceAt, hfull] at more
      rw [page, length_pageAt] at hshort
      rw [more, if_neg (by rw [Nat.add_mul]; omega)]
      rfl
  · obtain ⟨lastId, hsource⟩ : ∃ lastId, a.sourceAt t i = .filter lastId i := by
      cases i with
      | zero => exact ⟨none, rfl⟩
      | succ i =>
        rw [sourceAt] at more ⊢
        split_ifs at more ⊢
        · exact absurd rfl more
        · exact ⟨_, rfl⟩
    rw [readPage_progressed h behind more, hsource]
    simp only [PlanSource.next, List.isEmpty_iff, List.map_eq_nil_iff]
    by_cases hpage : a.page t i = []
    · rw [if_pos hpage, if_neg (fun hlt => page_ne_nil.mpr hlt hpage)]
    · rw [if_neg hpage, if_pos (page_ne_nil.mp hpage)]
      simp [sourceAt]

/-- The id range of a batch row. -/
def inRange (batch : BulkActionBatch) (id : Uuid) : Bool :=
  batch.cursorStart.any (fun first => decide (first ≤ id)) &&
    batch.cursorEnd.any (fun last => decide (id ≤ last))

/-- The id range of a page holds the page and nothing else of the target set. -/
theorem target_inRange (i : Nat) :
    (a.target t).filter (fun r => inRange (a.pageRow t i) r.id) = a.page t i := by
  by_cases hne : a.page t i = []
  · simp [pageRow, plannedRow, plannedPage, inRange, hne]
  · have hf := List.head?_eq_some_head hne
    have hl := List.getLast?_eq_some_getLast hne
    have hrange := page_range target_increasing hf hl
    simp only [pageRow, plannedRow, plannedPage, inRange, List.head?_map, List.getLast?_map, hf, hl,
      Option.map_some, Option.any_some]
    exact hrange

theorem mem_page_iff_inRange {i : Nat} {r : EntityRecord} (h : r ∈ a.target t) :
    r ∈ a.page t i ↔ inRange (a.pageRow t i) r.id := by
  nth_rewrite 1 [← target_inRange i]
  simp [h]

/-- A batch whose page is untouched loads its page. -/
theorem load_pageRow (h : a.Progressed progress t t') {i : Nat}
    (within : ∀ r ∈ t.rows, progress r.id ≠ none → r ∈ a.target t)
    (untouched : ∀ r ∈ a.page t i, progress r.id = none) :
    a.load t' (a.pageRow t i) = (a.page t i).map (EntityRecord.toRow a.entity) := by
  have hsel := select_progressed h (q := inRange (a.pageRow t i)) (by
    intro r hr hq
    by_contra hne
    exact hne (untouched r ((mem_page_iff_inRange (within r hr hne)).mpr hq)))
  rw [target_inRange] at hsel
  rw [← hsel]
  rfl

/-- The ids that the handler's statement names for some rows. -/
def statementIds (a : FilterAction) (rs : List EntityRecord) : List Uuid :=
  a.config.targets (rs.map (EntityRecord.toRow a.entity))

/-- Rows of the target set that have not been processed. -/
def Fresh (a : FilterAction) (t : EntityTable) (progress : Uuid → Option Timestamp)
    (rs : List EntityRecord) : Prop :=
  ∀ r ∈ rs, r ∈ a.target t ∧ progress r.id = none

theorem mem_statementIds {rs : List EntityRecord} (hrs : a.Fresh t progress rs)
    {r : EntityRecord} (hr : r ∈ t.rows) :
    r.id ∈ a.statementIds rs ↔ r ∈ rs ∧ a.config.changes a.entity r := by
  rw [statementIds, Config.targets_toRow, EntityTable.mem_ids ?_ hr, List.mem_filter]
  intro s hs
  exact (mem_target.mp (hrs s (List.mem_filter.mp hs).1).1).1

/-- The statement finds all the rows it names. -/
theorem statementIds_affected (h : a.Progressed progress t t') {rs : List EntityRecord}
    (hrs : a.Fresh t progress rs) {id : Uuid} (hid : id ∈ a.statementIds rs) :
    id ∈ t'.affected a.accountId (a.statementIds rs) := by
  obtain ⟨r, hr, rfl⟩ : ∃ r ∈ rs, r.id = id := by
    rw [statementIds, Config.targets_toRow] at hid
    obtain ⟨r, hr, hid⟩ := List.mem_map.mp hid
    exact ⟨r, (List.mem_filter.mp hr).1, hid⟩
  obtain ⟨hrow, hholds⟩ := mem_target.mp (hrs r hr).1
  refine List.mem_map.mpr ⟨r, EntityTable.mem_select.mpr ⟨?_, ?_⟩, rfl⟩
  · rw [h]
    exact List.mem_filterMap.mpr ⟨r, hrow, by rw [(hrs r hr).2]⟩
  · simpa [EntityTable.hits, account_of_holds hholds] using hid

/-- The statement of a batch applies the action to the rows it gets. -/
theorem write_progressed (h : a.Progressed progress t t') {rs : List EntityRecord}
    (hrs : a.Fresh t progress rs) (now : Timestamp) :
    a.Progressed (fun id => if id ∈ rs.map EntityRecord.id then some now else progress id) t
      (t'.write a.entity a.config a.accountId now (a.statementIds rs)) := by
  rw [Progressed, EntityTable.write_rows, h, List.filterMap_filterMap]
  refine List.filterMap_congr (fun r hr => ?_)
  have hids := EntityTable.mem_ids (fun s hs => (mem_target.mp (hrs s hs).1).1) hr
  by_cases hmem : r ∈ rs
  · have hacc := account_of_holds (mem_target.mp (hrs r hmem).1).2
    rw [(hrs r hmem).2, if_pos (hids.mpr hmem)]
    simp [EntityTable.hits, mem_statementIds hrs hr, hmem, hacc, Config.apply]
  · have missed : ∀ r', r'.id = r.id →
        EntityTable.hits a.accountId (a.statementIds rs) r' = false := by
      intro r' hr'
      simp [EntityTable.hits, hr', mem_statementIds hrs hr, hmem]
    rw [if_neg (mt hids.mp hmem)]
    cases progress r.id with
    | none => simp [missed r rfl]
    | some time =>
      cases happly : a.config.apply a.entity time r with
      | none => simp [happly]
      | some r' => simp [happly, missed r' (Config.apply_id happly)]

end FilterAction

theorem countP_map_status {β : Type} {f : β → EntityOutcome} {s : EntityLogStatus} {xs : List β}
    (h : ∀ x ∈ xs, (f x).status = s) (s' : EntityLogStatus) :
    (xs.map f).countP (fun o => o.status = s') = if s = s' then xs.length else 0 := by
  rw [List.countP_map]
  split_ifs with hs
  · exact List.countP_eq_length.mpr (fun x hx => by simp [h x hx, hs])
  · exact List.countP_eq_zero.mpr (fun x hx => by simp [h x hx, hs])

/-- A handler whose statement finds every row reports each row as changed or as unchanged. -/
theorem execute_count {e : EntityDescriptor} {config : Config} {rs : List EntityRecord}
    {affected : List Uuid}
    (found : ∀ id ∈ config.targets (rs.map (EntityRecord.toRow e)), id ∈ affected)
    (s : EntityLogStatus) :
    (config.execute (rs.map (EntityRecord.toRow e)) affected).count s =
      (if .skipped = s then rs.countP (fun r => !config.changes e r) else 0) +
        if .success = s then rs.countP (config.changes e) else 0 := by
  have hchanged : (config.targets (rs.map (EntityRecord.toRow e))).length =
      rs.countP (config.changes e) := by
    rw [Config.targets_toRow, List.length_map, List.countP_eq_length_filter]
  cases config with
  | update c =>
    have hkept : ((rs.map (EntityRecord.toRow e)).filter (BulkUpdateAction.holdsValues c)).length =
        rs.countP (fun r => !(Config.update c).changes e r) := by
      rw [List.filter_map, List.length_map, List.countP_eq_length_filter]
      simp [Config.changes, Function.comp_def]
    have hwritten : ∀ id ∈ BulkUpdateAction.toWrite c (rs.map (EntityRecord.toRow e)),
        (BulkUpdateAction.written c affected id).status = .success := by
      intro id hid
      simp [BulkUpdateAction.written, found id hid, EntityOutcome.success]
    rw [Config.execute, BulkUpdateAction.execute, BatchResult.count, List.countP_append,
      countP_map_status (s := .skipped) (fun _ _ => rfl), countP_map_status hwritten, hkept]
    rw [Config.targets] at hchanged
    rw [hchanged]
  | delete c =>
    have hremoved : ∀ id ∈ (rs.map (EntityRecord.toRow e)).map EntityRow.id,
        (BulkDeleteAction.removed c affected id).status = .success := by
      intro id hid
      simp [BulkDeleteAction.removed, found id hid, EntityOutcome.success]
    have hnone : rs.countP (fun r => !(Config.delete c).changes e r) = 0 :=
      List.countP_eq_zero.mpr (fun _ _ => by simp [Config.changes])
    rw [Config.execute, BulkDeleteAction.execute, BatchResult.count, countP_map_status hremoved,
      hnone]
    rw [Config.targets] at hchanged
    rw [hchanged, ite_self, Nat.zero_add]

end BulkActions
