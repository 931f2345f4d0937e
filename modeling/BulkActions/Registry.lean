import BulkActions.System
import BulkActions.Validation
import Mathlib.Data.String.Basic

namespace BulkActions

/-- A `dict` with texts for keys, in the order of insertion. -/
structure Dict (κ : Type) where
  items : List (String × κ)
  nodup : (items.map Prod.fst).Nodup

namespace Dict

variable {κ : Type}

def empty : Dict κ := ⟨[], List.nodup_nil⟩

def keys (d : Dict κ) : List String := d.items.map Prod.fst

def get? (d : Dict κ) (key : String) : Option κ := d.items.lookup key

theorem mem_items_iff {d : Dict κ} {key : String} {value : κ} :
    (key, value) ∈ d.items ↔ d.get? key = some value :=
  (lookup_eq_some_iff_mem d.nodup).symm

theorem mem_keys {d : Dict κ} {key : String} : key ∈ d.keys ↔ (d.get? key).isSome := by
  rw [keys, List.mem_map, Option.isSome_iff_exists]
  constructor
  · rintro ⟨p, hp, rfl⟩
    exact ⟨p.2, mem_items_iff.mp hp⟩
  · rintro ⟨value, hvalue⟩
    exact ⟨(key, value), mem_items_iff.mpr hvalue, rfl⟩

def replaced (items : List (String × κ)) (key : String) (value : κ) : List (String × κ) :=
  items.map (fun p => if p.1 = key then (key, value) else p)

theorem map_fst_replaced (items : List (String × κ)) (key : String) (value : κ) :
    (replaced items key value).map Prod.fst = items.map Prod.fst := by
  rw [replaced, List.map_map]
  refine List.map_congr_left (fun p _ => ?_)
  by_cases hp : p.1 = key <;> simp [hp]

/-- `d[key] = value`. -/
def setItem (d : Dict κ) (key : String) (value : κ) : Dict κ :=
  if h : key ∈ d.keys then
    ⟨replaced d.items key value, by rw [map_fst_replaced]; exact d.nodup⟩
  else
    ⟨d.items ++ [(key, value)], by
      rw [List.map_append, List.nodup_append]
      refine ⟨d.nodup, List.pairwise_singleton _ key, ?_⟩
      rintro a ha b hb rfl
      rw [List.mem_singleton.mp hb] at ha
      exact h ha⟩

theorem mem_setItem {d : Dict κ} {key : String} {value : κ} {p : String × κ} :
    p ∈ (d.setItem key value).items ↔ p = (key, value) ∨ p ∈ d.items ∧ p.1 ≠ key := by
  unfold setItem
  split
  next h =>
    obtain ⟨q, hq, hname⟩ := List.mem_map.mp h
    simp only [replaced, List.mem_map]
    constructor
    · rintro ⟨q', hq', rfl⟩
      split
      next => exact Or.inl rfl
      next hne => exact Or.inr ⟨hq', hne⟩
    · rintro (rfl | ⟨hp, hne⟩)
      · exact ⟨q, hq, if_pos hname⟩
      · exact ⟨p, hp, if_neg hne⟩
  next h =>
    simp only [List.mem_append, List.mem_singleton]
    constructor
    · rintro (hp | rfl)
      · exact Or.inr ⟨hp, fun hname => h (List.mem_map.mpr ⟨p, hp, hname⟩)⟩
      · exact Or.inl rfl
    · rintro (rfl | ⟨hp, _⟩)
      · exact Or.inr rfl
      · exact Or.inl hp

theorem get?_setItem (d : Dict κ) (key : String) (value : κ) (name : String) :
    (d.setItem key value).get? name = if name = key then some value else d.get? name := by
  refine Option.ext (fun v => ?_)
  rw [← mem_items_iff, mem_setItem, mem_items_iff]
  split_ifs with hname
  · simp [hname, eq_comm]
  · simp [hname]

end Dict

/-- `"*"` or a set of names. -/
inductive SupportedEntities where
  | all
  | only (names : List String)
  deriving DecidableEq, Repr

def SupportedEntities.supports (entityName : String) : SupportedEntities → Bool
  | .all => true
  | .only names => entityName ∈ names

/-- What a decorator reads off a class: `__name__`, and the attribute that names it in the registry.
Classes are told apart by identity. -/
structure Decorated (κ : Type) where
  className : κ → String
  name : κ → Option String

/-- `register_entity` and `register_action`, which differ in their texts. -/
def Decorated.register {κ : Type} [DecidableEq κ] (c : Decorated κ) (attr noun : String) (cls : κ)
    (d : Dict κ) : Except String (Dict κ) :=
  match c.name cls with
  | none => .error s!"{c.className cls} must define {attr}."
  | some name =>
    if name = "" then .error s!"{c.className cls} must define {attr}."
    else if (d.get? name).any (· ≠ cls) then .error s!"{noun} '{name}' is already registered."
    else .ok (d.setItem name cls)

def registerEntity {ε : Type} [DecidableEq ε] (c : Decorated ε) (descriptor : ε) (d : Dict ε) :
    Except String (Dict ε) := c.register "a `name`" "Entity" descriptor d

/-- The registry keeps an instance of the class, which has no state. -/
def registerAction {α : Type} [DecidableEq α] (c : Decorated α) (handler : α) (d : Dict α) :
    Except String (Dict α) := c.register "an `action_type`" "Action" handler d

/-- The classes of the entities and of the actions that modules may declare. -/
structure Modules (ε α : Type) where
  entities : Decorated ε
  actions : Decorated α
  supported : α → SupportedEntities

structure Registries (ε α : Type) where
  entities : Dict ε
  actions : Dict α

inductive Registration (ε α : Type) where
  | entity (descriptor : ε)
  | action (handler : α)

namespace Registries

variable {ε α : Type} (m : Modules ε α)

def empty : Registries ε α := ⟨.empty, .empty⟩

def register [DecidableEq ε] [DecidableEq α] (r : Registries ε α) :
    Registration ε α → Except String (Registries ε α)
  | .entity descriptor =>
    (registerEntity m.entities descriptor r.entities).map (fun d => { r with entities := d })
  | .action handler =>
    (registerAction m.actions handler r.actions).map (fun d => { r with actions := d })

/-- A decorator that raises leaves the registries as they are. -/
def step [DecidableEq ε] [DecidableEq α] (r : Registries ε α) (l : Registration ε α) :
    Option (Registries ε α) :=
  match r.register m l with
  | .ok r' => some r'
  | .error _ => some r

def getEntity (text : PyText) (r : Registries ε α) (name : String) : Except String ε :=
  match r.entities.get? name with
  | some descriptor => .ok descriptor
  | none =>
    .error (s!"Unknown entity_type '{name}'. Supported: " ++ listRepr text r.entities.keys ++ ".")

def getAction (text : PyText) (r : Registries ε α) (actionType : String)
    (entityName : Option String) : Except String α :=
  match r.actions.get? actionType with
  | none =>
    .error (s!"Unknown action_type '{actionType}'. Supported: " ++ listRepr text r.actions.keys
      ++ ".")
  | some handler =>
    match entityName with
    | none => .ok handler
    | some entityName =>
      if (m.supported handler).supports entityName then .ok handler
      else .error s!"Action '{actionType}' does not support entity '{entityName}'."

/-- The `supported_combinations` of `registry_snapshot`, as (entity type, action type). -/
def supportedCombinations (r : Registries ε α) : List (String × String) :=
  (r.actions.items.mergeSort (fun p q => decide (p.1 ≤ q.1))).flatMap (fun p =>
    ((sortedNames r.entities.keys).filter (fun name => (m.supported p.2).supports name)).map
      (fun name => (name, p.1)))

section Results

variable {m} {text : PyText} {r r' : Registries ε α} {l : Registration ε α}

theorem getEntity_ok {name : String} {descriptor : ε} :
    r.getEntity text name = .ok descriptor ↔ r.entities.get? name = some descriptor := by
  unfold getEntity
  cases r.entities.get? name <;> simp

theorem getAction_ok {actionType entityName : String} {handler : α} :
    r.getAction m text actionType (some entityName) = .ok handler ↔
      r.actions.get? actionType = some handler ∧ (m.supported handler).supports entityName := by
  unfold getAction
  cases r.actions.get? actionType with
  | none => simp
  | some handler' =>
    dsimp only
    split_ifs with h
    · constructor
      · intro he
        cases Except.ok.inj he
        exact ⟨rfl, h⟩
      · rintro ⟨he, _⟩
        cases Option.some.inj he
        rfl
    · refine iff_of_false (by simp) ?_
      rintro ⟨he, hs⟩
      cases Option.some.inj he
      exact h hs

/-- The snapshot lists the combinations that a request can name. -/
theorem mem_supportedCombinations {entityType actionType : String} :
    (entityType, actionType) ∈ r.supportedCombinations m ↔
      ∃ descriptor handler, r.getEntity text entityType = .ok descriptor ∧
        r.getAction m text actionType (some entityType) = .ok handler := by
  simp only [supportedCombinations, List.mem_flatMap, List.mem_mergeSort, List.mem_map,
    List.mem_filter, sortedNames, Dict.mem_keys, Option.isSome_iff_exists, getEntity_ok,
    getAction_ok]
  constructor
  · rintro ⟨⟨name, handler⟩, hp, _, ⟨⟨descriptor, hd⟩, hs⟩, he⟩
    cases he
    exact ⟨descriptor, handler, hd, Dict.mem_items_iff.mp hp, hs⟩
  · rintro ⟨descriptor, handler, hd, hh, hs⟩
    exact ⟨(actionType, handler), Dict.mem_items_iff.mpr hh, entityType, ⟨⟨descriptor, hd⟩, hs⟩,
      rfl⟩

theorem sortedNames_strict {names : List String} (hnodup : names.Nodup) :
    (sortedNames names).Pairwise (· < ·) := by
  have hle : (sortedNames names).Pairwise (fun a b => decide (a ≤ b) = true) :=
    List.pairwise_mergeSort (by simpa using fun a b c => le_trans)
      (by simpa using fun a b => le_total a b) names
  have hne : (sortedNames names).Pairwise (· ≠ ·) :=
    (List.mergeSort_perm names _).nodup_iff.mpr hnodup
  exact (hle.and hne).imp (fun h => lt_of_le_of_ne (of_decide_eq_true h.1) h.2)

theorem sortedItems_strict {κ : Type} (d : Dict κ) :
    (d.items.mergeSort (fun p q => decide (p.1 ≤ q.1))).Pairwise (fun p q => p.1 < q.1) := by
  have hle : (d.items.mergeSort (fun p q => decide (p.1 ≤ q.1))).Pairwise
      (fun p q => decide (p.1 ≤ q.1) = true) :=
    List.pairwise_mergeSort
      (fun p q r hpq hqr =>
        decide_eq_true ((of_decide_eq_true hpq).trans (of_decide_eq_true hqr)))
      (fun p q => by simpa using le_total p.1 q.1) d.items
  have hne : ((d.items.mergeSort (fun p q => decide (p.1 ≤ q.1))).map Prod.fst).Nodup :=
    ((List.mergeSort_perm d.items _).map Prod.fst).nodup_iff.mpr d.nodup
  exact (hle.and (List.pairwise_map.mp hne)).imp
    (fun h => lt_of_le_of_ne (of_decide_eq_true h.1) h.2)

/-- The combinations are listed in order, and each once. -/
theorem supportedCombinations_strict (r : Registries ε α) :
    (r.supportedCombinations m).Pairwise
      (fun x y => x.2 < y.2 ∨ x.2 = y.2 ∧ x.1 < y.1) := by
  refine List.pairwise_flatMap.mpr ⟨fun p _ => ?_, ?_⟩
  · refine List.pairwise_map.mpr (List.Pairwise.imp (fun h => Or.inr ⟨rfl, h⟩) ?_)
    exact (sortedNames_strict r.entities.nodup).filter _
  · refine (sortedItems_strict r.actions).imp (fun h => ?_)
    intro x hx y hy
    obtain ⟨_, _, rfl⟩ := List.mem_map.mp hx
    obtain ⟨_, _, rfl⟩ := List.mem_map.mp hy
    exact Or.inl h

end Results

end Registries

section Register

variable {κ : Type} [DecidableEq κ] {c : Decorated κ} {d d' : Dict κ} {cls : κ} {attr noun : String}

/-- A class is registered under its own name, which no other class has taken. -/
theorem Decorated.register_ok (h : c.register attr noun cls d = .ok d') :
    ∃ name, c.name cls = some name ∧ name ≠ "" ∧ (∀ other, d.get? name = some other → other = cls) ∧
      d' = d.setItem name cls := by
  unfold Decorated.register at h
  split at h
  next => cases h
  next name hname =>
    split_ifs at h with hempty htaken
    refine ⟨name, hname, hempty, fun other hother => ?_, (Except.ok.inj h).symm⟩
    by_contra hne
    exact htaken (by simp [hother, hne])

/-- Every name leads to a class that declares it. -/
def Dict.Declared (c : Decorated κ) (d : Dict κ) : Prop :=
  ∀ name cls, d.get? name = some cls → c.name cls = some name

theorem declared_register (hd : d.Declared c) (h : c.register attr noun cls d = .ok d') :
    d'.Declared c := by
  obtain ⟨name, hname, _, _, rfl⟩ := Decorated.register_ok h
  intro name' cls' hcls
  rw [Dict.get?_setItem] at hcls
  split_ifs at hcls with he
  · cases Option.some.inj hcls
    exact he ▸ hname
  · exact hd name' cls' hcls

/-- A name is never taken away from a class. -/
theorem get?_register (h : c.register attr noun cls d = .ok d') {name : String} {bound : κ}
    (hbound : d.get? name = some bound) : d'.get? name = some bound := by
  obtain ⟨name', _, _, hfree, rfl⟩ := Decorated.register_ok h
  rw [Dict.get?_setItem]
  split_ifs with he
  · rw [hfree bound (he ▸ hbound)]
  · exact hbound

end Register

namespace Registries

section Runs

variable {ε α : Type} [DecidableEq ε] [DecidableEq α] {m : Modules ε α} {r r' : Registries ε α}
  {l : Registration ε α}

def Declared (m : Modules ε α) (r : Registries ε α) : Prop :=
  r.entities.Declared m.entities ∧ r.actions.Declared m.actions

/-- Whatever a name led to, it still leads to. -/
def Keeps (r r' : Registries ε α) : Prop :=
  (∀ name descriptor, r.entities.get? name = some descriptor →
    r'.entities.get? name = some descriptor) ∧
  ∀ name handler, r.actions.get? name = some handler → r'.actions.get? name = some handler

theorem registered (h : r.step m l = some r') :
    r' = r ∨ (∃ descriptor d, registerEntity m.entities descriptor r.entities = .ok d ∧
      r' = { r with entities := d }) ∨
    ∃ handler d, registerAction m.actions handler r.actions = .ok d ∧
      r' = { r with actions := d } := by
  unfold step at h
  split at h
  next r'' hr =>
    cases Option.some.inj h
    cases l with
    | entity descriptor =>
      obtain ⟨d, hd, he⟩ := Checks.map_eq_ok.mp hr
      exact Or.inr (Or.inl ⟨descriptor, d, hd, he.symm⟩)
    | action handler =>
      obtain ⟨d, hd, he⟩ := Checks.map_eq_ok.mp hr
      exact Or.inr (Or.inr ⟨handler, d, hd, he.symm⟩)
  next => exact Or.inl (Option.some.inj h).symm

theorem declared_step (hr : r.Declared m) (h : r.step m l = some r') : r'.Declared m := by
  rcases registered h with rfl | ⟨descriptor, d, hd, rfl⟩ | ⟨handler, d, hd, rfl⟩
  · exact hr
  · exact ⟨declared_register hr.1 hd, hr.2⟩
  · exact ⟨hr.1, declared_register hr.2 hd⟩

theorem keeps_step (h : r.step m l = some r') : r.Keeps r' := by
  rcases registered h with rfl | ⟨descriptor, d, hd, rfl⟩ | ⟨handler, d, hd, rfl⟩
  · exact ⟨fun _ _ h => h, fun _ _ h => h⟩
  · exact ⟨fun _ _ hbound => get?_register hd hbound, fun _ _ h => h⟩
  · exact ⟨fun _ _ h => h, fun _ _ hbound => get?_register hd hbound⟩

theorem keeps_reaches (h : Runs.Reaches (step m) Runs.anyStep r r') : r.Keeps r' :=
  h.invariant (P := r.Keeps)
    (fun hs _ hstep => ⟨fun n c hc => (keeps_step hstep).1 n c (hs.1 n c hc),
      fun n c hc => (keeps_step hstep).2 n c (hs.2 n c hc)⟩)
    ⟨fun _ _ h => h, fun _ _ h => h⟩

theorem declared_reaches (h : Runs.Reaches (step m) Runs.anyStep empty r) : r.Declared m :=
  h.invariant (P := Declared m) (fun hs _ hstep => declared_step hs hstep)
    ⟨fun _ _ h => (by cases h), fun _ _ h => (by cases h)⟩

/-- Whatever modules are imported, and whichever of their decorators raise: the registry lists a
combination when a request can name it and never otherwise, each once and in order; its names lead
to classes that declare them, and they will for good. -/
theorem combinations_listed_as_accepted (text : PyText)
    (h : Runs.Reaches (step m) Runs.anyStep empty r)
    (hlater : Runs.Reaches (step m) Runs.anyStep r r') :
    (r.supportedCombinations m).Pairwise (fun x y => x.2 < y.2 ∨ x.2 = y.2 ∧ x.1 < y.1) ∧
    (∀ entityType actionType, (entityType, actionType) ∈ r.supportedCombinations m ↔
      ∃ descriptor handler, r.getEntity text entityType = .ok descriptor ∧
        r.getAction m text actionType (some entityType) = .ok handler) ∧
    ∀ entityType actionType descriptor handler, r.getEntity text entityType = .ok descriptor →
      r.getAction m text actionType (some entityType) = .ok handler →
        m.entities.name descriptor = some entityType ∧ m.actions.name handler = some actionType ∧
        r'.getEntity text entityType = .ok descriptor ∧
        r'.getAction m text actionType (some entityType) = .ok handler ∧
        (entityType, actionType) ∈ r'.supportedCombinations m := by
  have hdeclared := declared_reaches h
  have hkeeps := keeps_reaches hlater
  refine ⟨supportedCombinations_strict r, fun _ _ => mem_supportedCombinations, ?_⟩
  intro entityType actionType descriptor handler hd hh
  have hentity := getEntity_ok.mp hd
  obtain ⟨haction, hsupports⟩ := getAction_ok.mp hh
  have hd' : r'.getEntity text entityType = .ok descriptor :=
    getEntity_ok.mpr (hkeeps.1 _ _ hentity)
  have hh' : r'.getAction m text actionType (some entityType) = .ok handler :=
    getAction_ok.mpr ⟨hkeeps.2 _ _ haction, hsupports⟩
  exact ⟨hdeclared.1 _ _ hentity, hdeclared.2 _ _ haction, hd', hh',
    mem_supportedCombinations.mpr ⟨descriptor, handler, hd', hh'⟩⟩

end Runs

end Registries

def ActionType.name : ActionType → String
  | .update => "update"
  | .delete => "delete"

def EntityType.className : EntityType → String
  | .contact => "ContactEntity"
  | .company => "CompanyEntity"

def ActionType.className : ActionType → String
  | .update => "BulkUpdateAction"
  | .delete => "BulkDeleteAction"

/-- The classes of the repository, whose actions support every entity. -/
def shippedModules : Modules EntityType ActionType where
  entities := ⟨EntityType.className, fun t => some (getEntity t).name⟩
  actions := ⟨ActionType.className, fun a => some a.name⟩
  supported _ := .all

/-- What `discover_entities` and `discover_actions` find. -/
def shipped : Registries EntityType ActionType where
  entities := ⟨[("company", .company), ("contact", .contact)], by decide⟩
  actions := ⟨[("delete", .delete), ("update", .update)], by decide⟩

/-- An action of a plug-in that supports contacts only, and one whose name is taken. -/
inductive PluginAction where
  | shipped (action : ActionType)
  | tag
  | clashing
  deriving DecidableEq, Repr

def pluginModules : Modules EntityType PluginAction where
  entities := shippedModules.entities
  actions :=
    { className := fun
        | .shipped action => action.className
        | .tag => "BulkTagAction"
        | .clashing => "Clashing"
      name := fun
        | .shipped action => some action.name
        | .tag => some "tag"
        | .clashing => some "update" }
  supported
    | .tag => .only ["contact"]
    | _ => .all

/-- The clash is refused, and the action that is added later is listed for contacts only. -/
theorem combinations_listed_as_accepted_plugin :
    ∃ r r', Runs.steps (Registries.step pluginModules) .empty
        [.entity .company, .entity .contact, .action (.shipped .update)] = some r ∧
      Runs.steps (Registries.step pluginModules) r [.action .clashing, .action .tag] = some r' ∧
      ("company", "update") ∈ r.supportedCombinations pluginModules ∧
      ("contact", "tag") ∉ r.supportedCombinations pluginModules ∧
      r'.getAction pluginModules asciiText "update" (some "company") = .ok (.shipped .update) ∧
      ("contact", "tag") ∈ r'.supportedCombinations pluginModules ∧
      ("company", "tag") ∉ r'.supportedCombinations pluginModules := by
  let labels : List (Registration EntityType PluginAction) :=
    [.entity .company, .entity .contact, .action (.shipped .update)]
  obtain ⟨r, r', hr, hr', hcompany, hupdate, hmissing, hcontact, htag, hforeign⟩ : ∃ r r',
      Runs.steps (Registries.step pluginModules) .empty labels = some r ∧
      Runs.steps (Registries.step pluginModules) r [.action .clashing, .action .tag] = some r' ∧
      r.getEntity asciiText "company" = .ok .company ∧
      r.getAction pluginModules asciiText "update" (some "company") = .ok (.shipped .update) ∧
      (r.getAction pluginModules asciiText "tag" (some "contact")).isOk = false ∧
      r'.getEntity asciiText "contact" = .ok .contact ∧
      r'.getAction pluginModules asciiText "tag" (some "contact") = .ok .tag ∧
      (r'.getAction pluginModules asciiText "tag" (some "company")).isOk = false :=
    ⟨_, _, rfl, rfl, rfl, rfl, rfl, rfl, rfl, rfl⟩
  have h := Runs.reaches_of_steps hr
  have hlater := Runs.reaches_of_steps hr'
  have hend : Runs.steps (Registries.step pluginModules) .empty
      (labels ++ [.action .clashing, .action .tag]) = some r' := by
    rw [Runs.steps_append, hr]
    exact hr'
  obtain ⟨_, hlisted, hstays⟩ :=
    Registries.combinations_listed_as_accepted asciiText h hlater
  obtain ⟨_, hlisted', _⟩ :=
    Registries.combinations_listed_as_accepted asciiText (Runs.reaches_of_steps hend) .refl
  obtain ⟨_, _, _, hupdate', _⟩ := hstays _ _ _ _ hcompany hupdate
  refine ⟨r, r', hr, hr', (hlisted _ _).mpr ⟨_, _, hcompany, hupdate⟩, ?_, hupdate',
    (hlisted' _ _).mpr ⟨_, _, hcontact, htag⟩, ?_⟩
  · intro hmem
    obtain ⟨_, _, _, hok⟩ := (hlisted _ _).mp hmem
    rw [hok] at hmissing
    cases hmissing
  · intro hmem
    obtain ⟨_, _, _, hok⟩ := (hlisted' _ _).mp hmem
    rw [hok] at hforeign
    cases hforeign

theorem shipped_discovered : Runs.steps (Registries.step shippedModules) .empty
    [.entity .company, .entity .contact, .action .delete, .action .update] = some shipped := rfl

end BulkActions
