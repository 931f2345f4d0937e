import BulkActions.Enums

namespace BulkActions

/-- A column value as the driver hands it over. -/
inductive Value where
  | null
  | int (n : Int)
  | str (s : String)
  | time (t : Timestamp)
  | uuid (u : Uuid)
  deriving DecidableEq, Repr

inductive ColumnType where
  | uuid
  | string (length : Nat)
  | integer
  | timestamp
  deriving DecidableEq, Repr

structure Column where
  name : String
  type : ColumnType
  nullable : Bool
  deriving DecidableEq, Repr

/-- The typing annotation of a field with its pydantic constraints. -/
inductive Annotation where
  | str (minLength maxLength : Nat) (pattern : Option String)
  | int (ge le : Int)
  deriving DecidableEq, Repr

structure FieldSpec where
  annotation : Annotation
  nullable : Bool := false
  filterable : Bool := true
  deriving DecidableEq, Repr

structure EntityDescriptor where
  name : String
  columns : List Column
  updatableFields : List (String × FieldSpec)
  dedupFields : List String
  softDeleteColumn : Option String
  deriving DecidableEq, Repr

namespace EntityDescriptor

def columnNames (e : EntityDescriptor) : List String := e.columns.map Column.name

def column (e : EntityDescriptor) (name : String) : Option Column :=
  e.columns.find? (fun c => c.name = name)

def filterableFields (e : EntityDescriptor) : List (String × FieldSpec) :=
  e.updatableFields.filter (fun f => f.2.filterable)

def readableColumns (e : EntityDescriptor) : List String :=
  let cols := "id" :: e.updatableFields.map Prod.fst
  match e.softDeleteColumn with
  | some c => if c ∈ cols then cols else cols ++ [c]
  | none => cols

end EntityDescriptor

def idColumns : List Column :=
  [⟨"id", .uuid, false⟩, ⟨"account_id", .uuid, false⟩]

def auditColumns : List Column :=
  [⟨"created_at", .timestamp, false⟩, ⟨"updated_at", .timestamp, false⟩,
    ⟨"deleted_at", .timestamp, true⟩]

def contactEntity : EntityDescriptor where
  name := "contact"
  columns := idColumns ++ [⟨"name", .string 255, false⟩, ⟨"email", .string 320, false⟩,
    ⟨"age", .integer, true⟩, ⟨"status", .string 50, false⟩] ++ auditColumns
  updatableFields :=
    [("name", ⟨.str 1 255 none, false, true⟩),
      ("email", ⟨.str 3 320 (some "^[^@\\s]+@[^@\\s]+\\.[^@\\s]+$"), false, true⟩),
      ("age", ⟨.int 0 150, true, true⟩),
      ("status", ⟨.str 1 50 none, false, true⟩)]
  dedupFields := ["email"]
  softDeleteColumn := some "deleted_at"

def companyEntity : EntityDescriptor where
  name := "company"
  columns := idColumns ++ [⟨"name", .string 255, false⟩, ⟨"domain", .string 255, true⟩,
    ⟨"industry", .string 100, true⟩, ⟨"employee_count", .integer, true⟩,
    ⟨"status", .string 50, false⟩] ++ auditColumns
  updatableFields :=
    [("name", ⟨.str 1 255 none, false, true⟩),
      ("domain", ⟨.str 3 255 none, true, true⟩),
      ("industry", ⟨.str 1 100 none, true, true⟩),
      ("employee_count", ⟨.int 0 10000000, true, true⟩),
      ("status", ⟨.str 1 50 none, false, true⟩)]
  dedupFields := ["domain"]
  softDeleteColumn := some "deleted_at"

/-- The registered entity types. -/
inductive EntityType where
  | contact
  | company
  deriving DecidableEq, Repr

def getEntity : EntityType → EntityDescriptor
  | .contact => contactEntity
  | .company => companyEntity

/-- A single entity as seen by an action handler. -/
structure EntityRow where
  id : Uuid
  values : List (String × Value)
  deriving DecidableEq, Repr

def EntityRow.get (row : EntityRow) (key : String) : Value :=
  (row.values.lookup key).getD .null

end BulkActions
