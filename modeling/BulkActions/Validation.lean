import BulkActions.Checks
import BulkActions.Handlers

namespace BulkActions

/-- What is wrong with a member of a payload. -/
inductive Fault where
  | missing
  | extraForbidden
  | invalid (value : Json)

/-- pydantic: its lax readings of a JSON value, its regular expressions, the stripping of
whitespace and the texts of its errors. -/
structure Pydantic where
  uuid : Json → Option Uuid
  bool : Json → Option Bool
  int : Json → Option Int
  search : String → String → Bool
  strip : String → String
  message : List String → Fault → String

structure FieldError where
  loc : List String
  msg : String

/-- An entry of the `errors` of a refused request. -/
structure ErrorDetail where
  field : String
  error : String
  deriving DecidableEq, Repr

def FieldError.detail (e : FieldError) : ErrorDetail := ⟨".".intercalate e.loc, e.msg⟩

/-- Why a payload is refused. -/
inductive ConfigError where
  | filter (error : FilterError)
  | validation (detail : String) (errors : List ErrorDetail)

/-- Coercions that take values as they come. -/
def plainPydantic : Pydantic where
  uuid
    | .int n => some n.toNat
    | _ => none
  bool
    | .bool b => some b
    | _ => none
  int
    | .int n => some n
    | _ => none
  search _ _ := true
  strip s := s
  message _ _ := ""

/-- A typing annotation, with or without `| None`. -/
structure Typing where
  annotation : Annotation
  optional : Bool
  deriving DecidableEq, Repr

/-- `annotation | None`. -/
def Typing.orNone (t : Typing) : Typing := { t with optional := true }

def FieldSpec.updateTyping (spec : FieldSpec) : Typing := ⟨spec.annotation, spec.nullable⟩

def Annotation.parse (py : Pydantic) : Annotation → Json → Option Value
  | .str minLength maxLength pattern, .str s =>
    let t := py.strip s
    if minLength ≤ t.length && t.length ≤ maxLength && pattern.all (fun r => py.search r t) then
      some (.str t)
    else none
  | .str _ _ _, _ => none
  | .int ge le, v => ((py.int v).filter (fun n => ge ≤ n && n ≤ le)).map .int

def Typing.parse (py : Pydantic) (t : Typing) : Json → Option Value
  | .null => if t.optional then some .null else none
  | v => t.annotation.parse py v

namespace EntityDescriptor

def updateModel (e : EntityDescriptor) : List (String × Typing) :=
  e.updatableFields.map (fun f => (f.1, f.2.updateTyping.orNone))

/-- The members of `updates` that the update model refuses. -/
def updateErrors (py : Pydantic) (e : EntityDescriptor) (updates : List (String × Json)) :
    List FieldError :=
  e.updateModel.filterMap (fun f => (updates.lookup f.1).bind (fun v =>
    if (f.2.parse py v).isSome then none else some ⟨[f.1], py.message [f.1] (.invalid v)⟩))

/-- `model_dump(include=set(updates))`. -/
def coerced (py : Pydantic) (e : EntityDescriptor) (updates : List (String × Json)) :
    List (String × Value) :=
  e.updateModel.filterMap (fun f =>
    (updates.lookup f.1).bind (fun v => (f.2.parse py v).map (fun value => (f.1, value))))

def validateUpdates (text : PyText) (py : Pydantic) (e : EntityDescriptor)
    (updates : List (String × Json)) : Except ConfigError (List (String × Value)) :=
  let allowed := e.updatableFields.map Prod.fst
  let unknown := (updates.map Prod.fst).filter (· ∉ allowed)
  let errors := e.updateErrors py updates
  if updates.isEmpty then .error (.validation "`updates` must contain at least one field." [])
  else if !unknown.isEmpty then
    .error (.validation (s!"Fields not updatable on '{e.name}': " ++ listRepr text unknown
      ++ ". Allowed: " ++ listRepr text allowed ++ ".") [])
  else if !errors.isEmpty then
    .error (.validation s!"Invalid update values for '{e.name}'." (errors.map FieldError.detail))
  else .ok (e.coerced py updates)

end EntityDescriptor

/-- A JSON object that is to become the configuration of an action. -/
abbrev Payload := List (String × Json)

namespace Payload

def refuse {α : Type} (py : Pydantic) (loc : List String) (fault : Fault) :
    Except (List FieldError) α :=
  .error [⟨loc, py.message loc fault⟩]

def faults {α : Type} : Except (List FieldError) α → List FieldError
  | .ok _ => []
  | .error errors => errors

def updates (py : Pydantic) (payload : Payload) : Except (List FieldError) (List (String × Json)) :=
  match payload.lookup "updates" with
  | none => refuse py ["updates"] .missing
  | some (.obj fields) => .ok fields
  | some v => refuse py ["updates"] (.invalid v)

def filter (py : Pydantic) (payload : Payload) : Except (List FieldError) (Option Filter) :=
  match payload.lookup "filter" with
  | none => .ok none
  | some .null => .ok none
  | some (.obj fields) => .ok (some fields)
  | some v => refuse py ["filter"] (.invalid v)

def entityId (py : Pydantic) (i : Nat) (v : Json) : Except (List FieldError) Uuid :=
  match py.uuid v with
  | some id => .ok id
  | none => refuse py ["entity_ids", toString i] (.invalid v)

def entityIds (py : Pydantic) (payload : Payload) : Except (List FieldError) (Option (List Uuid)) :=
  match payload.lookup "entity_ids" with
  | none => .ok none
  | some .null => .ok none
  | some (.arr items) =>
    let ids := items.mapIdx (entityId py)
    let errors := ids.flatMap faults
    if errors.isEmpty then .ok (some (ids.filterMap Except.toOption)) else .error errors
  | some v => refuse py ["entity_ids"] (.invalid v)

def deduplicateBy (py : Pydantic) (payload : Payload) : Except (List FieldError) (Option String) :=
  match payload.lookup "deduplicate_by" with
  | none => .ok none
  | some .null => .ok none
  | some (.str s) => .ok (some s)
  | some v => refuse py ["deduplicate_by"] (.invalid v)

def hard (py : Pydantic) (payload : Payload) : Except (List FieldError) Bool :=
  match payload.lookup "hard" with
  | none => .ok false
  | some v =>
    match py.bool v with
    | some b => .ok b
    | none => refuse py ["hard"] (.invalid v)

/-- `extra="forbid"`. -/
def forbidExtra (py : Pydantic) (fields : List String) (payload : Payload) : List FieldError :=
  ((payload.map Prod.fst).filter (· ∉ fields)).map (fun name =>
    ⟨[name], py.message [name] .extraForbidden⟩)

/-- The `_require_a_target_set` validator of both configurations. -/
def requireATargetSet (filter : Option Filter) (entityIds : Option (List Uuid)) :
    Except (List FieldError) Unit :=
  match filter, entityIds with
  | none, none =>
    .error [⟨[], "Value error, Provide either `entity_ids` or `filter` " ++
      "(use `filter: \x7b\x7d` to target every entity in the account)."⟩]
  | some _, some _ => .error [⟨[], "Value error, Provide `entity_ids` or `filter`, not both."⟩]
  | none, some [] => .error [⟨[], "Value error, `entity_ids` must not be empty."⟩]
  | _, _ => .ok ()

end Payload

/-- A payload of an update before its values are coerced. -/
structure UpdatePayload where
  updates : List (String × Json)
  filter : Option Filter
  entityIds : Option (List Uuid)
  deduplicateBy : Option String

def UpdatePayload.parse (py : Pydantic) (payload : Payload) :
    Except (List FieldError) UpdatePayload :=
  let updates := payload.updates py
  let filter := payload.filter py
  let entityIds := payload.entityIds py
  let deduplicateBy := payload.deduplicateBy py
  let errors := Payload.faults updates ++ Payload.faults filter ++ Payload.faults entityIds ++
    Payload.faults deduplicateBy ++
    payload.forbidExtra py ["updates", "filter", "entity_ids", "deduplicate_by"]
  if !errors.isEmpty then .error errors
  else do
    let config : UpdatePayload := ⟨← updates, ← filter, ← entityIds, ← deduplicateBy⟩
    Payload.requireATargetSet config.filter config.entityIds
    pure config

def BulkDeleteConfig.parse (py : Pydantic) (payload : Payload) :
    Except (List FieldError) BulkDeleteConfig :=
  let filter := payload.filter py
  let entityIds := payload.entityIds py
  let hard := payload.hard py
  let deduplicateBy := payload.deduplicateBy py
  let errors := Payload.faults filter ++ Payload.faults entityIds ++ Payload.faults hard ++
    Payload.faults deduplicateBy ++
    payload.forbidExtra py ["filter", "entity_ids", "hard", "deduplicate_by"]
  if !errors.isEmpty then .error errors
  else do
    let config : BulkDeleteConfig := ⟨← filter, ← entityIds, ← hard, ← deduplicateBy⟩
    Payload.requireATargetSet config.filter config.entityIds
    pure config

/-- `validate_config` of the base class, given what `ConfigModel` makes of the payload. -/
def invalidPayload (actionType : String) (errors : List FieldError) : ConfigError :=
  .validation s!"Invalid payload for action '{actionType}'." (errors.map FieldError.detail)

/-- A key is not declared for de-duplication by the entity. -/
def notDedupKey (text : PyText) (e : EntityDescriptor) (field : String) : ConfigError :=
  .validation (s!"'{field}' is not a de-duplication key for '{e.name}'. Available: "
    ++ listRepr text e.dedupFields ++ ".") []

namespace BulkUpdateAction

def checkDedup (text : PyText) (e : EntityDescriptor) : Option String → Except ConfigError Unit
  | none => .ok ()
  | some field =>
    if field = "" then .ok ()
    else if field ∉ e.updatableFields.map Prod.fst then
      .error (.validation s!"Cannot de-duplicate '{e.name}' by '{field}': unknown field." [])
    else if field ∉ e.dedupFields then .error (notDedupKey text e field)
    else .ok ()

def validateConfig (text : PyText) (py : Pydantic) (e : EntityDescriptor) (payload : Payload) :
    Except ConfigError BulkUpdateConfig := do
  let config ← (UpdatePayload.parse py payload).mapError (invalidPayload "update")
  let coerced ← e.validateUpdates text py config.updates
  (validateFilter text e config.filter).mapError .filter
  checkDedup text e config.deduplicateBy
  pure ⟨coerced, config.filter, config.entityIds, config.deduplicateBy⟩

end BulkUpdateAction

namespace BulkDeleteAction

def checkSoftDelete (e : EntityDescriptor) (hard : Bool) : Except ConfigError Unit :=
  if !hard && e.softDeleteColumn.isNone then
    .error (.validation (s!"Entity '{e.name}' has no soft-delete column; " ++
      "pass `hard: true` to delete permanently.") [])
  else .ok ()

def checkDedup (text : PyText) (e : EntityDescriptor) : Option String → Except ConfigError Unit
  | none => .ok ()
  | some field =>
    if field ≠ "" && field ∉ e.dedupFields then .error (notDedupKey text e field) else .ok ()

def validateConfig (text : PyText) (py : Pydantic) (e : EntityDescriptor) (payload : Payload) :
    Except ConfigError BulkDeleteConfig := do
  let config ← (BulkDeleteConfig.parse py payload).mapError (invalidPayload "delete")
  (validateFilter text e config.filter).mapError .filter
  checkSoftDelete e config.hard
  checkDedup text e config.deduplicateBy
  pure config

end BulkDeleteAction

/-- The registered actions. -/
inductive ActionType where
  | update
  | delete
  deriving DecidableEq, Repr

/-- `validate_config` of the handler of an action type. -/
def ActionType.validateConfig (text : PyText) (py : Pydantic) (e : EntityDescriptor)
    (payload : Payload) : ActionType → Except ConfigError Config
  | .update => (BulkUpdateAction.validateConfig text py e payload).map .update
  | .delete => (BulkDeleteAction.validateConfig text py e payload).map .delete

end BulkActions
