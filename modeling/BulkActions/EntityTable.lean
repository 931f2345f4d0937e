import BulkActions.PlanTask
import BulkActions.Keyset

namespace BulkActions

open Keyset

namespace EntityRecord

def get (r : EntityRecord) (name : String) : Value :=
  if name = "id" then .uuid r.id
  else if name = "account_id" then .uuid r.accountId
  else r.cols name

/-- The row `load_batch_rows` hands to the handler. -/
def toRow (e : EntityDescriptor) (r : EntityRecord) : EntityRow :=
  ⟨r.id, e.readableColumns.map (fun name => (name, r.get name))⟩

/-- `SET` of some columns other than the keys. -/
def assign (r : EntityRecord) (values : List (String × Value)) : EntityRecord :=
  values.foldl (fun r v => { r with cols := Function.update r.cols v.1 v.2 }) r

@[simp] theorem toRow_id (e : EntityDescriptor) (r : EntityRecord) : (r.toRow e).id = r.id := rfl

theorem assign_keys (r : EntityRecord) (values : List (String × Value)) :
    (r.assign values).id = r.id ∧ (r.assign values).accountId = r.accountId := by
  induction values generalizing r with
  | nil => exact ⟨rfl, rfl⟩
  | cons v values ih => exact ih { r with cols := Function.update r.cols v.1 v.2 }

end EntityRecord

namespace Config

/-- The ids in the WHERE clause of the statement that `execute` sends. -/
def targets (config : Config) (rows : List EntityRow) : List Uuid :=
  match config with
  | .update c => BulkUpdateAction.toWrite c rows
  | .delete _ => rows.map EntityRow.id

def stamped (e : EntityDescriptor) (now : Timestamp) (values : List (String × Value)) :
    List (String × Value) :=
  values ++ if "updated_at" ∈ e.columnNames then [("updated_at", .time now)] else []

/-- What that statement makes of a row it hits; `none` when the row is deleted. -/
def write (e : EntityDescriptor) (now : Timestamp) (config : Config) (r : EntityRecord) :
    Option EntityRecord :=
  match config with
  | .update c => some (r.assign (stamped e now c.updates))
  | .delete c =>
    match e.softDeleteColumn with
    | none => none
    | some column =>
      if c.hard then none else some (r.assign (stamped e now [(column, .time now)]))

/-- The handler writes the row, it does not report it as unchanged. -/
def changes (e : EntityDescriptor) (config : Config) (r : EntityRecord) : Bool :=
  match config with
  | .update c => !BulkUpdateAction.holdsValues c (r.toRow e)
  | .delete _ => true

/-- What the action makes of a row. -/
def apply (e : EntityDescriptor) (now : Timestamp) (config : Config) (r : EntityRecord) :
    Option EntityRecord :=
  if config.changes e r then config.write e now r else some r

theorem write_id {e : EntityDescriptor} {now : Timestamp} {config : Config} {r r' : EntityRecord}
    (h : config.write e now r = some r') : r'.id = r.id := by
  cases config with
  | update c =>
    cases Option.some.inj h
    exact (r.assign_keys _).1
  | delete c =>
    simp only [write] at h
    split at h
    · simp at h
    · split_ifs at h
      cases Option.some.inj h
      exact (r.assign_keys _).1

theorem apply_id {e : EntityDescriptor} {now : Timestamp} {config : Config} {r r' : EntityRecord}
    (h : config.apply e now r = some r') : r'.id = r.id := by
  unfold apply at h
  split_ifs at h
  · exact write_id h
  · rw [← Option.some.inj h]

theorem targets_toRow (e : EntityDescriptor) (config : Config) (rs : List EntityRecord) :
    config.targets (rs.map (EntityRecord.toRow e)) =
      (rs.filter (config.changes e)).map EntityRecord.id := by
  cases config with
  | update c =>
    rw [targets, BulkUpdateAction.toWrite, List.filter_map, List.map_map]
    rfl
  | delete c =>
    have all : rs.filter (changes e (.delete c)) = rs := List.filter_eq_self.mpr (fun _ _ => rfl)
    rw [targets, List.map_map, all]
    rfl

end Config

/-- An entity table in the order of its primary key. -/
structure EntityTable where
  rows : List EntityRecord
  sorted : Increasing EntityRecord.id rows

namespace EntityTable

/-- `SELECT ... WHERE ... ORDER BY id`. -/
def select (t : EntityTable) (p : EntityRecord → Bool) : List EntityRecord :=
  t.rows.filter p

/-- A statement that changes or deletes rows and leaves their keys alone. -/
def rewrite (t : EntityTable) (f : EntityRecord → Option EntityRecord)
    (keeps : ∀ {r r'}, f r = some r' → r'.id = r.id) : EntityTable where
  rows := t.rows.filterMap f
  sorted := by
    refine List.pairwise_filterMap.mpr (t.sorted.imp ?_)
    intro r s hlt r' hr s' hs
    rw [keeps hr, keeps hs]
    exact hlt

/-- The page query of `_plan_from_filter`. -/
def selectPage (sql : Sql) (clause : SelectionClause) (batchSize : Nat) (lastId : Option Uuid)
    (t : EntityTable) : List Uuid :=
  ((t.select (fun r => clause.holds sql r && lastId.all (fun last => decide (last < r.id)))).take
    batchSize).map EntityRecord.id

/-- The WHERE clause of `load_batch_rows`. -/
def batchWhere (sql : Sql) (e : EntityDescriptor) (accountId : Uuid) (clause : SelectionClause)
    (includeDeleted : Bool) (batch : BulkActionBatch) (r : EntityRecord) : Bool :=
  match batch.entityIds with
  | some (id :: ids) => r.id ∈ id :: ids && r.accountId = accountId &&
    (includeDeleted || e.softDeleteColumn.all (fun column => r.cols column = .null))
  | _ => clause.holds sql r && (batch.cursorStart.any (fun first => decide (first ≤ r.id)) &&
    batch.cursorEnd.any (fun last => decide (r.id ≤ last)))

def loadBatchRows (sql : Sql) (e : EntityDescriptor) (accountId : Uuid) (clause : SelectionClause)
    (includeDeleted : Bool) (batch : BulkActionBatch) (t : EntityTable) : List EntityRow :=
  (t.select (batchWhere sql e accountId clause includeDeleted batch)).map (EntityRecord.toRow e)

def hits (accountId : Uuid) (ids : List Uuid) (r : EntityRecord) : Bool :=
  r.id ∈ ids && r.accountId = accountId

/-- `RETURNING id` of the handler's statement. -/
def affected (accountId : Uuid) (ids : List Uuid) (t : EntityTable) : List Uuid :=
  (t.select (hits accountId ids)).map EntityRecord.id

/-- The handler's statement, run at `now`. -/
def write (e : EntityDescriptor) (config : Config) (accountId : Uuid) (now : Timestamp)
    (ids : List Uuid) (t : EntityTable) : EntityTable :=
  t.rewrite (fun r => if hits accountId ids r then config.write e now r else some r) (by
    intro r r' h
    split_ifs at h
    · exact Config.write_id h
    · rw [← Option.some.inj h])

theorem write_rows (e : EntityDescriptor) (config : Config) (accountId : Uuid) (now : Timestamp)
    (ids : List Uuid) (t : EntityTable) :
    (t.write e config accountId now ids).rows =
      t.rows.filterMap (fun r => if hits accountId ids r then config.write e now r else some r) :=
  rfl

theorem eq_of_id {t : EntityTable} {r s : EntityRecord} (hr : r ∈ t.rows) (hs : s ∈ t.rows)
    (h : r.id = s.id) : r = s :=
  List.inj_on_of_nodup_map t.sorted.nodup_map hr hs h

theorem mem_ids {t : EntityTable} {rs : List EntityRecord} (hrs : ∀ s ∈ rs, s ∈ t.rows)
    {r : EntityRecord} (hr : r ∈ t.rows) : r.id ∈ rs.map EntityRecord.id ↔ r ∈ rs := by
  constructor
  · intro hid
    obtain ⟨s, hs, hsid⟩ := List.mem_map.mp hid
    rwa [← eq_of_id (hrs s hs) hr hsid]
  · exact List.mem_map_of_mem

theorem mem_select {t : EntityTable} {p : EntityRecord → Bool} {r : EntityRecord} :
    r ∈ t.select p ↔ r ∈ t.rows ∧ p r :=
  List.mem_filter

theorem select_increasing (t : EntityTable) (p : EntityRecord → Bool) :
    Increasing EntityRecord.id (t.select p) :=
  t.sorted.sublist List.filter_sublist

theorem select_and (t : EntityTable) (p q : EntityRecord → Bool) :
    t.select (fun r => p r && q r) = (t.select p).filter q := by
  rw [select, select, List.filter_filter]
  exact List.filter_congr (fun r _ => Bool.and_comm _ _)

end EntityTable

end BulkActions
