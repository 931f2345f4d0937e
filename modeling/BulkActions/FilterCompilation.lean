import BulkActions.System
import BulkActions.Validation
import Mathlib.Data.List.Find
import Mathlib.Data.List.Nodup

namespace BulkActions

open Checks

/-- The operators a condition applies to its field. -/
def Json.operations : Json → List (String × Json)
  | .obj ops => ops
  | v => [("eq", v)]

/-- The operators of a filter, in the order in which `build_predicates` compiles them. -/
def conditions (filters : Filter) : List (String × Json) :=
  filters.flatMap (fun f => f.2.operations)

def Json.filledList : Json → Bool
  | .arr (_ :: _) => true
  | _ => false

/-- `in` or `not_in` with something else than a non-empty list. -/
def unfilled (o : String × Json) : Bool :=
  match operators.lookup o.1 with
  | some .isIn => !o.2.filledList
  | some .notIn => !o.2.filledList
  | _ => false

/-- An ordering against `null` or a truth value, which SQLAlchemy does not compile. -/
def refused (o : String × Json) : Bool :=
  match operators.lookup o.1, o.2 with
  | some (.comparison .eq), _ => false
  | some (.comparison .ne), _ => false
  | some (.comparison _), .null => true
  | some (.comparison _), .bool _ => true
  | _, _ => false

/-- No list operator is unfilled before SQLAlchemy refuses a comparison. -/
def listsFilled (filters : Filter) : Bool :=
  ((conditions filters).find? (fun o => unfilled o || refused o)).all refused

/-- What `_apply` makes of a supported operator. -/
inductive Applied (text : PyText) (o : String × Json) : Prop where
  | compiled (t : Test) : applyOperator text o.1 o.2 = .ok t → unfilled o = false →
      refused o = false → Applied text o
  | unfilled (detail : String) : applyOperator text o.1 o.2 = .error (.validation detail) →
      unfilled o = true → refused o = false → Applied text o
  | refused : applyOperator text o.1 o.2 = .error .argument → unfilled o = false →
      refused o = true → Applied text o

theorem filledList_eq_true {value : Json} (h : value.filledList = true) :
    ∃ v vs, value = .arr (v :: vs) := by
  cases value with
  | arr items =>
    cases items with
    | nil => cases h
    | cons v vs => exact ⟨v, vs, rfl⟩
  | _ => cases h

theorem applyOperator_unfilled {text : PyText} {op : String} {value : Json}
    (h : unfilled (op, value)) :
    ∃ detail, applyOperator text op value = .error (.validation detail) := by
  unfold unfilled at h
  unfold applyOperator
  split at h
  next ho =>
    rw [ho]
    exact ⟨"Operator 'in' requires a non-empty list.", by
      cases value with
      | arr items => cases items <;> simp [Json.filledList] at h ⊢
      | _ => rfl⟩
  next ho =>
    rw [ho]
    exact ⟨"Operator 'not_in' requires a non-empty list.", by
      cases value with
      | arr items => cases items <;> simp [Json.filledList] at h ⊢
      | _ => rfl⟩
  next => cases h

theorem applied_list {text : PyText} {op : String} {o : Operator} (ho : o = .isIn ∨ o = .notIn)
    (h : operators.lookup op = some o) (value : Json) : Applied text (op, value) := by
  have hrefused : refused (op, value) = false := by
    rcases ho with rfl | rfl <;> simp [refused, h]
  have hunfilled : unfilled (op, value) = !value.filledList := by
    rcases ho with rfl | rfl <;> simp [unfilled, h]
  cases hv : value.filledList with
  | true =>
    obtain ⟨v, vs, rfl⟩ := filledList_eq_true hv
    rw [hv] at hunfilled
    obtain ⟨t, ht⟩ : ∃ t, applyOperator text op (.arr (v :: vs)) = .ok t := by
      rcases ho with rfl | rfl
      · exact ⟨.isIn (v :: vs), by simp [applyOperator, h]⟩
      · exact ⟨.notIn (v :: vs), by simp [applyOperator, h]⟩
    exact .compiled t ht hunfilled hrefused
  | false =>
    rw [hv] at hunfilled
    obtain ⟨detail, hd⟩ := @applyOperator_unfilled text _ _ hunfilled
    exact .unfilled detail hd hunfilled hrefused

theorem applied_comparison {text : PyText} {op : String} {c : Comparison}
    (h : operators.lookup op = some (.comparison c)) (value : Json) : Applied text (op, value) := by
  have happly : applyOperator text op value = compareTest c value := by simp [applyOperator, h]
  have hfilled : unfilled (op, value) = false := by simp [unfilled, h]
  cases hr : refused (op, value) with
  | true =>
    refine .refused (happly.trans ?_) hfilled hr
    cases c <;> cases value <;> first | rfl | simp [refused, h] at hr
  | false =>
    obtain ⟨t, ht⟩ : ∃ t, compareTest c value = .ok t := by
      cases c <;> cases value <;> first | exact ⟨_, rfl⟩ | simp [refused, h] at hr
    exact .compiled t (happly.trans ht) hfilled hr

theorem applied_of_lookup {text : PyText} {op : String} {o : Operator}
    (h : operators.lookup op = some o) (value : Json) : Applied text (op, value) := by
  cases o with
  | comparison c => exact applied_comparison h value
  | isIn => exact applied_list (Or.inl rfl) h value
  | notIn => exact applied_list (Or.inr rfl) h value
  | contains =>
    refine .compiled (.contains (text.lower (text.strJson value))) ?_ ?_ ?_
    · simp [applyOperator, h]
    · simp [unfilled, h]
    · simp [refused, h]
  | isNull =>
    refine .compiled (if value.truthy then .isNull else .isNotNull) ?_ ?_ ?_
    · simp [applyOperator, h]
    · simp [unfilled, h]
    · simp [refused, h]

theorem operators_lookup : ∀ op ∈ operators.map Prod.fst, (operators.lookup op).isSome := by
  decide

/-- `validate_filter` lets only supported operators through. -/
theorem applied_of_valid {text : PyText} {e : EntityDescriptor} {filters : Filter}
    (h : validateFilter text e (some filters) = .ok ()) {o : String × Json}
    (ho : o ∈ conditions filters) : Applied text o := by
  obtain ⟨f, hf, ho⟩ := List.mem_flatMap.mp ho
  have hvalid := forM_eq_ok.mp h f hf
  have heq : "eq" ∈ operators.map Prod.fst := by decide
  suffices hop : o.1 ∈ operators.map Prod.fst by
    obtain ⟨op, hop⟩ := Option.isSome_iff_exists.mp (operators_lookup o.1 hop)
    exact applied_of_lookup hop o.2
  unfold validateCondition at hvalid
  split at hvalid
  next => simp at hvalid
  next =>
    cases hc : f.2 with
    | obj ops =>
      rw [hc] at hvalid ho
      simp only at hvalid
      split at hvalid
      next hnone =>
        by_contra hop
        have hmem : o.1 ∈ (ops.map Prod.fst).filter (· ∉ operators.map Prod.fst) :=
          List.mem_filter.mpr ⟨List.mem_map_of_mem ho, by simpa using hop⟩
        rw [List.isEmpty_iff.mp hnone] at hmem
        simp at hmem
      next => simp at hvalid
    | _ =>
      rw [hc] at ho
      rw [List.mem_singleton.mp ho]
      exact heq

theorem conditionTests_eq (text : PyText) (condition : Json) :
    conditionTests text condition =
      condition.operations.mapM (fun o => applyOperator text o.1 o.2) := by
  cases condition with
  | obj ops => rfl
  | _ =>
    simp only [conditionTests, Json.operations, List.mapM_cons, List.mapM_nil]
    cases applyOperator text "eq" _ <;> rfl

/-- `build_predicates` fails at the first operator that does not compile. -/
theorem buildPredicates_eq_error {text : PyText} {e : EntityDescriptor} {filters : Filter}
    (h : validateFilter text e (some filters) = .ok ()) {error : FilterError} :
    buildPredicates text e (some filters) = .error error ↔
      ∃ o, (conditions filters).find? (fun o => unfilled o || refused o) = some o ∧
        applyOperator text o.1 o.2 = .error error := by
  have hisOk : ∀ o ∈ conditions filters,
      (!(applyOperator text o.1 o.2).isOk) = (unfilled o || refused o) := by
    intro o ho
    cases applied_of_valid h ho with
    | compiled t ht hu hr => simp [ht, hu, hr, Except.isOk, Except.toBool]
    | unfilled detail ht hu hr => simp [ht, hu, hr, Except.isOk, Except.toBool]
    | refused ht hu hr => simp [ht, hu, hr, Except.isOk, Except.toBool]
  have hcompile : buildPredicates text e (some filters) = .error error ↔
      (conditions filters).mapM (fun o => applyOperator text o.1 o.2) = .error error := by
    have hgroups : (filters.mapM (fun f => do
        let tests ← conditionTests text f.2
        pure (tests.map (fun t => (⟨f.1, t⟩ : Predicate))))) = .error error ↔
        filters.mapM (fun f => conditionTests text f.2) = .error error :=
      @mapM_pure_eq_error _ _ _ _ filters (fun f => conditionTests text f.2)
        (fun f tests => tests.map (fun t => (⟨f.1, t⟩ : Predicate))) error
    rw [conditions, ← mapM_mapM_eq_error]
    simp only [← conditionTests_eq, ← hgroups]
    rw [buildPredicates, h, bind_eq_error]
    simp [bind_eq_error, pure, Except.pure]
  rw [hcompile, mapM_eq_error, List.find?_congr hisOk]

/-- A filter compiles without a ValidationError when its lists are filled. -/
theorem buildPredicates_valid_iff {text : PyText} {e : EntityDescriptor} {filters : Filter}
    (h : validateFilter text e (some filters) = .ok ()) :
    (∀ detail, buildPredicates text e (some filters) ≠ .error (.validation detail)) ↔
      listsFilled filters := by
  unfold listsFilled
  cases hfind : (conditions filters).find? (fun o => unfilled o || refused o) with
  | none => simp [buildPredicates_eq_error h, hfind]
  | some o =>
    have hbad : unfilled o || refused o := by simpa using List.find?_some hfind
    simp only [ne_eq, buildPredicates_eq_error h, hfind, Option.some.injEq, exists_eq_left',
      Option.all_some]
    cases applied_of_valid h (List.mem_of_find?_eq_some hfind) with
    | compiled t ht hu hr => simp [hu, hr] at hbad
    | unfilled detail ht hu hr => simp [ht, hr]
    | refused ht hu hr => simp [ht, hr]

theorem selectionClause_eq_error {text : PyText} {e : EntityDescriptor} {accountId : Uuid}
    {filters : Option Filter} {includeDeleted : Bool} {error : FilterError} :
    selectionClause text e accountId filters includeDeleted = .error error ↔
      buildPredicates text e filters = .error error := by
  unfold selectionClause
  rw [bind_eq_error]
  simp [pure, Except.pure]

section Accepted

variable {text : PyText} {py : Pydantic} {e : EntityDescriptor} {payload : Payload}

/-- A payload of an update is parsed when each of its members is, nothing else is in it and
it names one target set. -/
theorem updatePayload_eq_ok {config : UpdatePayload} :
    UpdatePayload.parse py payload = .ok config ↔
      payload.updates py = .ok config.updates ∧ payload.filter py = .ok config.filter ∧
      payload.entityIds py = .ok config.entityIds ∧
      payload.deduplicateBy py = .ok config.deduplicateBy ∧
      payload.forbidExtra py ["updates", "filter", "entity_ids", "deduplicate_by"] = [] ∧
      Payload.requireATargetSet config.filter config.entityIds = .ok () := by
  unfold UpdatePayload.parse
  dsimp only
  constructor
  · intro h
    split_ifs at h with herrors
    obtain ⟨updates, hupdates, h⟩ := bind_eq_ok.mp h
    obtain ⟨filter, hfilter, h⟩ := bind_eq_ok.mp h
    obtain ⟨entityIds, hentityIds, h⟩ := bind_eq_ok.mp h
    obtain ⟨deduplicateBy, hdeduplicateBy, h⟩ := bind_eq_ok.mp h
    obtain ⟨_, htarget, h⟩ := bind_eq_ok.mp h
    cases pure_eq_ok.mp h
    simp only [Bool.not_eq_true', Bool.not_eq_false, List.isEmpty_iff,
      List.append_eq_nil_iff] at herrors
    exact ⟨hupdates, hfilter, hentityIds, hdeduplicateBy, herrors.2, htarget⟩
  · rintro ⟨hupdates, hfilter, hentityIds, hdeduplicateBy, hextra, htarget⟩
    simp only [hupdates, hfilter, hentityIds, hdeduplicateBy, hextra, Payload.faults]
    exact bind_eq_ok.mpr ⟨_, rfl, bind_eq_ok.mpr ⟨_, rfl, bind_eq_ok.mpr ⟨_, rfl,
      bind_eq_ok.mpr ⟨_, rfl, bind_eq_ok.mpr ⟨(), htarget, rfl⟩⟩⟩⟩⟩

theorem deleteConfig_eq_ok {config : BulkDeleteConfig} :
    BulkDeleteConfig.parse py payload = .ok config ↔
      payload.filter py = .ok config.filter ∧ payload.entityIds py = .ok config.entityIds ∧
      payload.hard py = .ok config.hard ∧ payload.deduplicateBy py = .ok config.deduplicateBy ∧
      payload.forbidExtra py ["filter", "entity_ids", "hard", "deduplicate_by"] = [] ∧
      Payload.requireATargetSet config.filter config.entityIds = .ok () := by
  unfold BulkDeleteConfig.parse
  dsimp only
  constructor
  · intro h
    split_ifs at h with herrors
    obtain ⟨filter, hfilter, h⟩ := bind_eq_ok.mp h
    obtain ⟨entityIds, hentityIds, h⟩ := bind_eq_ok.mp h
    obtain ⟨hard, hhard, h⟩ := bind_eq_ok.mp h
    obtain ⟨deduplicateBy, hdeduplicateBy, h⟩ := bind_eq_ok.mp h
    obtain ⟨_, htarget, h⟩ := bind_eq_ok.mp h
    cases pure_eq_ok.mp h
    simp only [Bool.not_eq_true', Bool.not_eq_false, List.isEmpty_iff,
      List.append_eq_nil_iff] at herrors
    exact ⟨hfilter, hentityIds, hhard, hdeduplicateBy, herrors.2, htarget⟩
  · rintro ⟨hfilter, hentityIds, hhard, hdeduplicateBy, hextra, htarget⟩
    simp only [hfilter, hentityIds, hhard, hdeduplicateBy, hextra, Payload.faults]
    exact bind_eq_ok.mpr ⟨_, rfl, bind_eq_ok.mpr ⟨_, rfl, bind_eq_ok.mpr ⟨_, rfl,
      bind_eq_ok.mpr ⟨_, rfl, bind_eq_ok.mpr ⟨(), htarget, rfl⟩⟩⟩⟩⟩

/-- An accepted payload keeps its filter, which `validate_filter` has accepted. -/
theorem validateConfig_filter {a : ActionType} {config : Config}
    (h : a.validateConfig text py e payload = .ok config) :
    payload.filter py = .ok config.selectionFilters ∧
      validateFilter text e config.selectionFilters = .ok () := by
  cases a with
  | update =>
    obtain ⟨c, h, hc⟩ := map_eq_ok.mp h
    obtain ⟨parsed, hparsed, h⟩ := bind_eq_ok.mp h
    obtain ⟨coerced, _, h⟩ := bind_eq_ok.mp h
    obtain ⟨_, hvalid, h⟩ := bind_eq_ok.mp h
    obtain ⟨_, _, h⟩ := bind_eq_ok.mp h
    cases pure_eq_ok.mp h
    subst hc
    exact ⟨(updatePayload_eq_ok.mp (mapError_eq_ok.mp hparsed)).2.1, mapError_eq_ok.mp hvalid⟩
  | delete =>
    obtain ⟨c, h, hc⟩ := map_eq_ok.mp h
    obtain ⟨parsed, hparsed, h⟩ := bind_eq_ok.mp h
    obtain ⟨_, hvalid, h⟩ := bind_eq_ok.mp h
    obtain ⟨_, _, h⟩ := bind_eq_ok.mp h
    obtain ⟨_, _, h⟩ := bind_eq_ok.mp h
    cases pure_eq_ok.mp h
    subst hc
    exact ⟨(deleteConfig_eq_ok.mp (mapError_eq_ok.mp hparsed)).1, mapError_eq_ok.mp hvalid⟩

theorem payload_filter_obj {filters : Filter} (h : payload.lookup "filter" = some (.obj filters)) :
    payload.filter py = .ok (some filters) := by
  simp [Payload.filter, h]

end Accepted

section Compiled

variable {text : PyText} {e : EntityDescriptor} {filters : Filter} {predicates : List Predicate}

/-- The predicates are the tests of the conditions on their columns. -/
theorem mem_buildPredicates (h : buildPredicates text e (some filters) = .ok predicates)
    {p : Predicate} :
    p ∈ predicates ↔ ∃ f ∈ filters, ∃ o ∈ f.2.operations,
      f.1 = p.column ∧ applyOperator text o.1 o.2 = .ok p.test := by
  obtain ⟨_, _, h⟩ := bind_eq_ok.mp h
  obtain ⟨groups, hgroups, h⟩ := bind_eq_ok.mp h
  cases pure_eq_ok.mp h
  rw [List.mem_flatten]
  constructor
  · rintro ⟨group, hgroup, hp⟩
    obtain ⟨f, hf, hfg⟩ := (mem_mapM hgroups).mp hgroup
    obtain ⟨tests, htests, hfg⟩ := bind_eq_ok.mp hfg
    cases pure_eq_ok.mp hfg
    obtain ⟨t, ht, rfl⟩ := List.mem_map.mp hp
    rw [conditionTests_eq] at htests
    obtain ⟨o, ho, hot⟩ := (mem_mapM htests).mp ht
    exact ⟨f, hf, o, ho, rfl, hot⟩
  · rintro ⟨f, hf, o, ho, hcolumn, hot⟩
    obtain ⟨group, hfg⟩ := isOk_of_mapM hgroups hf
    refine ⟨group, (mem_mapM hgroups).mpr ⟨f, hf, hfg⟩, ?_⟩
    obtain ⟨tests, htests, hfg⟩ := bind_eq_ok.mp hfg
    cases pure_eq_ok.mp hfg
    rw [conditionTests_eq] at htests
    have ht : p.test ∈ tests := (mem_mapM htests).mpr ⟨o, ho, hot⟩
    exact List.mem_map.mpr ⟨p.test, ht, by rw [hcolumn]⟩

theorem applyOperator_of_buildPredicates
    (h : buildPredicates text e (some filters) = .ok predicates) {f : String × Json}
    (hf : f ∈ filters) {o : String × Json} (ho : o ∈ f.2.operations) :
    ∃ t, applyOperator text o.1 o.2 = .ok t := by
  obtain ⟨_, _, h⟩ := bind_eq_ok.mp h
  obtain ⟨groups, hgroups, _⟩ := bind_eq_ok.mp h
  obtain ⟨group, hfg⟩ := isOk_of_mapM hgroups hf
  obtain ⟨tests, htests, _⟩ := bind_eq_ok.mp hfg
  rw [conditionTests_eq] at htests
  exact isOk_of_mapM htests ho

theorem operations_eq_nil {condition : Json} : condition.operations = [] ↔ condition = .obj [] := by
  cases condition <;> simp [Json.operations]

/-- A condition with an operator makes a predicate on its column. -/
theorem exists_predicate (h : buildPredicates text e (some filters) = .ok predicates)
    {f : String × Json} (hf : f ∈ filters) (hobj : f.2 ≠ .obj []) :
    ∃ p ∈ predicates, p.column = f.1 := by
  obtain ⟨o, ho⟩ := List.exists_mem_of_ne_nil _ (fun hnil => hobj (operations_eq_nil.mp hnil))
  obtain ⟨t, ht⟩ := applyOperator_of_buildPredicates h hf ho
  exact ⟨⟨f.1, t⟩, (mem_buildPredicates h).mpr ⟨f, hf, o, ho, rfl, ht⟩, rfl⟩

/-- Without predicates no condition of the filter has an operator. -/
theorem predicates_eq_nil_iff (h : buildPredicates text e (some filters) = .ok predicates) :
    predicates = [] ↔ ∀ f ∈ filters, f.2 = .obj [] := by
  rw [List.eq_nil_iff_forall_not_mem]
  constructor
  · intro hnone f hf
    by_contra hobj
    obtain ⟨p, hp, _⟩ := exists_predicate h hf hobj
    exact hnone p hp
  · intro hobj p hp
    obtain ⟨f, hf, o, ho, _⟩ := (mem_buildPredicates h).mp hp
    rw [operations_eq_nil.mpr (hobj f hf)] at ho
    simp at ho

end Compiled

/-- Every field of a filter is tested, and only the filter without fields selects the whole
account, exactly when no condition is the empty object. -/
theorem every_field_tested_iff {text : PyText} {e : EntityDescriptor} {filters : Filter}
    {predicates : List Predicate} (hkeys : (filters.map Prod.fst).Nodup)
    (h : buildPredicates text e (some filters) = .ok predicates) :
    ((∀ f ∈ filters, ∃ p ∈ predicates, p.column = f.1) ∧ (predicates = [] → filters = [])) ↔
      ∀ f ∈ filters, f.2 ≠ .obj [] := by
  constructor
  · rintro ⟨htested, _⟩ f hf hobj
    obtain ⟨p, hp, hcolumn⟩ := htested f hf
    obtain ⟨g, hg, o, ho, hgp, _⟩ := (mem_buildPredicates h).mp hp
    have hsame : g = f := List.inj_on_of_nodup_map hkeys hg hf (hgp.trans hcolumn)
    rw [hsame, operations_eq_nil.mpr hobj] at ho
    simp at ho
  · intro hobj
    refine ⟨fun f hf => exists_predicate h hf (hobj f hf), fun hnil => ?_⟩
    rw [List.eq_nil_iff_forall_not_mem]
    intro f hf
    exact hobj f hf ((predicates_eq_nil_iff h).mp hnil f hf)

theorem every_field_tested_status :
    ((∀ f ∈ [("status", Json.str "active")],
        ∃ p ∈ [(⟨"status", .compare .eq (.str "active")⟩ : Predicate)], p.column = f.1) ∧
      ([(⟨"status", .compare .eq (.str "active")⟩ : Predicate)] = [] →
        [("status", Json.str "active")] = [])) ↔
      ∀ f ∈ [("status", Json.str "active")], f.2 ≠ .obj [] :=
  @every_field_tested_iff asciiText contactEntity [("status", .str "active")] _
    (by decide) rfl

/-- A filter whose conditions are all empty objects selects every live row of the account. -/
theorem selection_without_operators {text : PyText} {e : EntityDescriptor} {filters : Filter}
    {accountId : Uuid} {includeDeleted : Bool} {clause : SelectionClause}
    (h : selectionClause text e accountId (some filters) includeDeleted = .ok clause)
    (hobj : ∀ f ∈ filters, f.2 = .obj []) :
    selectionClause text e accountId none includeDeleted = .ok clause := by
  obtain ⟨predicates, hpreds, h⟩ := bind_eq_ok.mp h
  cases pure_eq_ok.mp h
  rw [(predicates_eq_nil_iff hpreds).mpr hobj]
  rfl

/-- An empty condition on the status selects the whole account. -/
theorem empty_condition_is_vacuous :
    ¬ ∀ (text : PyText) (t : EntityType) (filters : Filter) (predicates : List Predicate),
      (filters.map Prod.fst).Nodup →
      validateFilter text (getEntity t) (some filters) = .ok () →
      buildPredicates text (getEntity t) (some filters) = .ok predicates →
      (∀ f ∈ filters, ∃ p ∈ predicates, p.column = f.1) ∧ (predicates = [] → filters = []) := by
  intro always
  have hall := always asciiText .contact [("status", .obj [])] [] (by decide) rfl rfl
  have hnil := hall.2 rfl
  simp at hnil

end BulkActions
