import BulkActions.Entities
import Mathlib.Data.List.Basic
import Mathlib.Data.Rat.Init

namespace BulkActions

inductive Json where
  | null
  | bool (b : Bool)
  | int (n : Int)
  | float (q : Rat)
  | str (s : String)
  | arr (items : List Json)
  | obj (fields : List (String × Json))

/-- A JSON filter object: its members in order, keys distinct. -/
abbrev Filter := List (String × Json)

/-- Under distinct keys every member is found by its own. -/
theorem lookup_eq_some_iff_mem {κ : Type} {members : List (String × κ)}
    (hnodup : (members.map Prod.fst).Nodup) {key : String} {value : κ} :
    members.lookup key = some value ↔ (key, value) ∈ members := by
  induction members with
  | nil => simp
  | cons p members ih =>
    obtain ⟨hfresh, hnodup⟩ := List.nodup_cons.mp hnodup
    rw [List.mem_cons, ← ih hnodup, List.lookup_cons]
    by_cases hkey : key = p.1
    · have hnone : members.lookup key = none := by
        rw [List.lookup_eq_none_iff]
        intro q hq
        rw [bne_iff_ne]
        intro he
        exact hfresh (List.mem_map.mpr ⟨q, hq, he.symm.trans hkey⟩)
      simp [hkey ▸ hnone, hkey, Prod.ext_iff, eq_comm]
    · simp [beq_false_of_ne hkey, hkey, Prod.ext_iff]

/-- Python text conversions outside the repository: `str`, `repr` and `str.lower`. -/
structure PyText where
  str : Value → String
  strJson : Json → String
  repr : String → String
  lower : String → String
  str_str : ∀ s, str (.str s) = s
  strJson_str : ∀ s, strJson (.str s) = s

inductive Comparison where
  | eq
  | ne
  | gt
  | gte
  | lt
  | lte
  deriving DecidableEq, Repr

/-- A compiled test on one column. -/
inductive Test where
  | compare (op : Comparison) (value : Json)
  | isIn (values : List Json)
  | notIn (values : List Json)
  | contains (text : String)
  | isNull
  | isNotNull

structure Predicate where
  column : String
  test : Test

inductive FilterError where
  | validation (detail : String)
  | argument

inductive Operator where
  | comparison (op : Comparison)
  | isIn
  | notIn
  | contains
  | isNull
  deriving DecidableEq, Repr

def operators : List (String × Operator) :=
  [("eq", .comparison .eq), ("ne", .comparison .ne), ("gt", .comparison .gt),
    ("gte", .comparison .gte), ("lt", .comparison .lt), ("lte", .comparison .lte),
    ("in", .isIn), ("not_in", .notIn), ("contains", .contains), ("is_null", .isNull)]

/-- Python truth of a decoded JSON value. -/
def Json.truthy : Json → Bool
  | .null => false
  | .bool b => b
  | .int n => n ≠ 0
  | .float q => q ≠ 0
  | .str s => s ≠ ""
  | .arr items => !items.isEmpty
  | .obj fields => !fields.isEmpty

/-- `column op value` in SQLAlchemy: `None` turns `==` and `!=` into `IS [NOT] NULL`,
and the ordering operators refuse `None`, `True` and `False`. -/
def compareTest (op : Comparison) (value : Json) : Except FilterError Test :=
  match op, value with
  | .eq, .null => .ok .isNull
  | .ne, .null => .ok .isNotNull
  | .eq, v => .ok (.compare .eq v)
  | .ne, v => .ok (.compare .ne v)
  | _, .null => .error .argument
  | _, .bool _ => .error .argument
  | op, v => .ok (.compare op v)

def applyOperator (text : PyText) (op : String) (value : Json) : Except FilterError Test :=
  match operators.lookup op with
  | some (.comparison c) => compareTest c value
  | some .isIn =>
    match value with
    | .arr (v :: vs) => .ok (.isIn (v :: vs))
    | _ => .error (.validation "Operator 'in' requires a non-empty list.")
  | some .notIn =>
    match value with
    | .arr (v :: vs) => .ok (.notIn (v :: vs))
    | _ => .error (.validation "Operator 'not_in' requires a non-empty list.")
  | some .contains => .ok (.contains (text.lower (text.strJson value)))
  | some .isNull => .ok (if value.truthy then .isNull else .isNotNull)
  | none => .error (.validation s!"Unsupported operator '{op}'.")

def sortedNames (names : List String) : List String :=
  names.mergeSort (fun a b => decide (a ≤ b))

def listRepr (text : PyText) (names : List String) : String :=
  "[" ++ ", ".intercalate ((sortedNames names).map text.repr) ++ "]"

def allowedFields (e : EntityDescriptor) : List String :=
  ((e.filterableFields.map Prod.fst ++ ["status", "created_at", "updated_at"]).filter
    (· ∈ e.columnNames)).eraseDups

def validateCondition (text : PyText) (e : EntityDescriptor) (name : String) (condition : Json) :
    Except FilterError Unit :=
  if name ∉ allowedFields e then
    .error (.validation (s!"Field '{name}' is not filterable on '{e.name}'. Allowed: "
      ++ listRepr text (allowedFields e) ++ "."))
  else
    match condition with
    | .obj ops =>
      let unknown := (ops.map Prod.fst).filter (· ∉ operators.map Prod.fst)
      if unknown.isEmpty then .ok ()
      else .error (.validation ("Unsupported operators " ++ listRepr text unknown
        ++ s!" on '{name}'. Allowed: " ++ listRepr text (operators.map Prod.fst) ++ "."))
    | _ => .ok ()

def validateFilter (text : PyText) (e : EntityDescriptor) (filters : Option Filter) :
    Except FilterError Unit :=
  (filters.getD []).forM (fun f => validateCondition text e f.1 f.2)

def conditionTests (text : PyText) (condition : Json) : Except FilterError (List Test) :=
  match condition with
  | .obj ops => ops.mapM (fun o => applyOperator text o.1 o.2)
  | v => (applyOperator text "eq" v).map (fun t => [t])

def buildPredicates (text : PyText) (e : EntityDescriptor) (filters : Option Filter) :
    Except FilterError (List Predicate) := do
  validateFilter text e filters
  let groups ← (filters.getD []).mapM (fun f => do
    let tests ← conditionTests text f.2
    pure (tests.map (fun t => (⟨f.1, t⟩ : Predicate))))
  pure groups.flatten

/-- The WHERE clause identifying a target set: tenant, live rows, filter predicates. -/
structure SelectionClause where
  accountId : Uuid
  notDeleted : Option String
  predicates : List Predicate

def selectionClause (text : PyText) (e : EntityDescriptor) (accountId : Uuid)
    (filters : Option Filter) (includeDeleted : Bool) : Except FilterError SelectionClause := do
  let predicates ← buildPredicates text e filters
  pure ⟨accountId, if includeDeleted then none else e.softDeleteColumn, predicates⟩

theorem selectionClause_account {text : PyText} {e : EntityDescriptor} {accountId : Uuid}
    {filters : Option Filter} {includeDeleted : Bool} {clause : SelectionClause}
    (h : selectionClause text e accountId filters includeDeleted = .ok clause) :
    clause.accountId = accountId := by
  unfold selectionClause at h
  cases hp : buildPredicates text e filters with
  | error err =>
    rw [hp] at h
    cases h
  | ok predicates =>
    rw [hp] at h
    rw [← Except.ok.inj h]

/-- What SQLAlchemy, the driver and PostgreSQL make of a compiled test: whether its
parameters can be bound to the column, and whether it is true of a column value. -/
structure Sql where
  accepts : ColumnType → Test → Bool
  holds : Test → Value → Bool

/-- An entity table row. -/
structure EntityRecord where
  id : Uuid
  accountId : Uuid
  cols : String → Value

namespace SelectionClause

def accepted (sql : Sql) (e : EntityDescriptor) (c : SelectionClause) : Bool :=
  c.predicates.all (fun p => (e.column p.column).any (fun col => sql.accepts col.type p.test))

def holds (sql : Sql) (c : SelectionClause) (r : EntityRecord) : Bool :=
  r.accountId = c.accountId && c.notDeleted.all (fun col => r.cols col = .null) &&
    c.predicates.all (fun p => sql.holds p.test (r.cols p.column))

end SelectionClause

end BulkActions
