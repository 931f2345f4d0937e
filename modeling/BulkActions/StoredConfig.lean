import BulkActions.ColumnConstraints
import BulkActions.FilterCompilation

namespace BulkActions

open Checks

/-- The texts that `model_dump(mode="json")` makes of the values that JSON does not have. -/
structure JsonDump where
  uuid : Uuid → String
  time : Timestamp → String

def Value.dump (d : JsonDump) : Value → Json
  | .null => .null
  | .int n => .int n
  | .str s => .str s
  | .time t => .str (d.time t)
  | .uuid u => .str (d.uuid u)

/-- A decoded JSON scalar as the value of a column. -/
def Json.value : Json → Option Value
  | .null => some .null
  | .int n => some (.int n)
  | .str s => some (.str s)
  | _ => none

def dumpOptional {α : Type} (dump : α → Json) : Option α → Json
  | none => .null
  | some a => dump a

def dumpIds (d : JsonDump) (ids : List Uuid) : Json :=
  .arr (ids.map (fun id => .str (d.uuid id)))

def dumpUpdates (d : JsonDump) (updates : List (String × Value)) : List (String × Json) :=
  updates.map (fun u => (u.1, u.2.dump d))

def BulkUpdateConfig.modelDump (d : JsonDump) (c : BulkUpdateConfig) : Payload :=
  [("updates", .obj (dumpUpdates d c.updates)),
    ("filter", dumpOptional .obj c.filter),
    ("entity_ids", dumpOptional (dumpIds d) c.entityIds),
    ("deduplicate_by", dumpOptional .str c.deduplicateBy)]

def BulkDeleteConfig.modelDump (d : JsonDump) (c : BulkDeleteConfig) : Payload :=
  [("filter", dumpOptional .obj c.filter),
    ("entity_ids", dumpOptional (dumpIds d) c.entityIds),
    ("hard", .bool c.hard),
    ("deduplicate_by", dumpOptional .str c.deduplicateBy)]

/-- `config.model_dump(mode="json")`, the `configuration` of the action. -/
def Config.modelDump (d : JsonDump) : Config → Payload
  | .update c => c.modelDump d
  | .delete c => c.modelDump d

def columnUpdate (u : String × Json) : Option (String × Value) :=
  u.2.value.map (fun value => (u.1, value))

/-- The configuration whose `updates` are just as they were sent; `none` where one of them is
no value of a column. -/
def UpdatePayload.uncoerced (c : UpdatePayload) : Option BulkUpdateConfig :=
  (c.updates.mapM columnUpdate).map (fun updates =>
    ⟨updates, c.filter, c.entityIds, c.deduplicateBy⟩)

/-- `handler.ConfigModel(**payload)`. -/
def ActionType.configModel (py : Pydantic) (payload : Payload) :
    ActionType → Except (List FieldError) (Option Config)
  | .update => (UpdatePayload.parse py payload).map (fun c => c.uncoerced.map .update)
  | .delete => (BulkDeleteConfig.parse py payload).map (fun c => some (.delete c))

/-- pydantic reads back what it dumps, and strips a text once and for all. -/
structure Pydantic.ReadsBack (py : Pydantic) (d : JsonDump) : Prop where
  uuid : ∀ id, py.uuid (.str (d.uuid id)) = some id
  bool : ∀ b, py.bool (.bool b) = some b
  int : ∀ n, py.int (.int n) = some n
  strip : ∀ s, py.strip (py.strip s) = py.strip s

section Members

variable {py : Pydantic} {d : JsonDump} {payload : Payload}

theorem filter_dumped {filter : Option Filter}
    (h : payload.lookup "filter" = some (dumpOptional .obj filter)) :
    payload.filter py = .ok filter := by
  cases filter <;> simp [Payload.filter, h, dumpOptional]

theorem deduplicateBy_dumped {field : Option String}
    (h : payload.lookup "deduplicate_by" = some (dumpOptional .str field)) :
    payload.deduplicateBy py = .ok field := by
  cases field <;> simp [Payload.deduplicateBy, h, dumpOptional]

theorem hard_dumped (hb : py.ReadsBack d) {hard : Bool}
    (h : payload.lookup "hard" = some (.bool hard)) : payload.hard py = .ok hard := by
  simp [Payload.hard, h, hb.bool]

theorem entityIds_dumped (hb : py.ReadsBack d) {ids : Option (List Uuid)}
    (h : payload.lookup "entity_ids" = some (dumpOptional (dumpIds d) ids)) :
    payload.entityIds py = .ok ids := by
  cases ids with
  | none => simp [Payload.entityIds, h, dumpOptional]
  | some ids =>
    have hread : (ids.map (fun id => Json.str (d.uuid id))).mapIdx (Payload.entityId py) =
        ids.map Except.ok := by
      refine List.ext_getElem (by simp) (fun i h₁ h₂ => ?_)
      simp [Payload.entityId, hb.uuid]
    have hfaults : (ids.map (Except.ok (ε := List FieldError))).flatMap Payload.faults = [] := by
      simp [List.flatMap_map, Payload.faults]
    simp only [Payload.entityIds, h, dumpOptional, dumpIds, hread, hfaults]
    simp [List.filterMap_map, Function.comp_def, Except.toOption]

end Members

/-- One value for each name that has one. -/
theorem lookup_filterMap {α β : Type} {fields : List (String × α)} {g : String × α → Option β}
    (hnodup : (fields.map Prod.fst).Nodup) {f : String × α} (hf : f ∈ fields) :
    (fields.filterMap (fun f => (g f).map (fun b => (f.1, b)))).lookup f.1 = g f := by
  induction fields with
  | nil => cases hf
  | cons f' fields ih =>
    obtain ⟨hfresh, hnodup⟩ := List.nodup_cons.mp hnodup
    rcases List.mem_cons.mp hf with rfl | hf
    · cases hg : g f with
      | some b => simp [hg]
      | none =>
        rw [List.filterMap_cons_none (by simp [hg]), List.lookup_eq_none_iff]
        intro p hp
        obtain ⟨f', hf', hp⟩ := List.mem_filterMap.mp hp
        obtain ⟨b, _, rfl⟩ := Option.map_eq_some_iff.mp hp
        rw [bne_iff_ne]
        intro he
        exact hfresh (List.mem_map.mpr ⟨f', hf', he.symm⟩)
    · have hne : f.1 ≠ f'.1 := fun he => hfresh (he ▸ List.mem_map_of_mem hf)
      cases hg : g f' with
      | some b =>
        rw [List.filterMap_cons_some (b := (f'.1, b)) (by simp [hg]), List.lookup_cons,
          beq_false_of_ne hne]
        exact ih hnodup hf
      | none => rw [List.filterMap_cons_none (by simp [hg]), ih hnodup hf]

section Updates

variable {py : Pydantic} {d : JsonDump} {e : EntityDescriptor} {v : Json} {value : Value}

theorem Annotation.parse_dump (hb : py.ReadsBack d) {a : Annotation}
    (h : a.parse py v = some value) :
    a.parse py (value.dump d) = some value ∧ (value.dump d).value = some value ∧
      value ≠ .null := by
  cases a with
  | str minLength maxLength pattern =>
    cases v with
    | str s =>
      unfold Annotation.parse at h
      dsimp only at h
      split_ifs at h with hfits
      cases Option.some.inj h
      refine ⟨?_, rfl, by simp⟩
      simp only [Value.dump, Annotation.parse, hb.strip]
      exact if_pos hfits
    | _ => cases h
  | int ge le =>
    obtain ⟨n, hn, rfl⟩ := Option.map_eq_some_iff.mp h
    have hrange := (Option.filter_eq_some_iff.mp hn).2
    refine ⟨?_, rfl, by simp⟩
    simp only [Value.dump, Annotation.parse, hb.int, Option.filter_some, hrange, if_true,
      Option.map_some]

theorem Typing.parse_dump (hb : py.ReadsBack d) {t : Typing} (h : t.parse py v = some value) :
    t.parse py (value.dump d) = some value ∧ (value.dump d).value = some value := by
  by_cases hv : v = .null
  · subst hv
    have hnull : (if t.optional then some Value.null else none) = some value := h
    split_ifs at hnull
    cases Option.some.inj hnull
    exact ⟨h, rfl⟩
  · have hann : t.annotation.parse py v = some value := by
      cases v with
      | null => exact absurd rfl hv
      | _ => exact h
    obtain ⟨hparse, hvalue, hne⟩ := Annotation.parse_dump hb hann
    refine ⟨?_, hvalue⟩
    cases value with
    | null => exact absurd rfl hne
    | _ => exact hparse

/-- Every field of the update model is read back from what is dumped of the coerced updates. -/
theorem lookup_dumped (hnodup : (e.updatableFields.map Prod.fst).Nodup)
    {updates : List (String × Json)} {f : String × Typing} (hf : f ∈ e.updateModel) :
    (dumpUpdates d (e.coerced py updates)).lookup f.1 =
      ((updates.lookup f.1).bind (f.2.parse py)).map (Value.dump d) := by
  have hnames : (e.updateModel.map Prod.fst).Nodup := by
    simpa [EntityDescriptor.updateModel, Function.comp_def] using hnodup
  have hdump : dumpUpdates d (e.coerced py updates) = e.updateModel.filterMap (fun f =>
      (((updates.lookup f.1).bind (f.2.parse py)).map (Value.dump d)).map (fun v => (f.1, v))) := by
    rw [dumpUpdates, EntityDescriptor.coerced, List.map_filterMap]
    refine List.filterMap_congr (fun f _ => ?_)
    cases updates.lookup f.1 with
    | none => rfl
    | some v => cases h : f.2.parse py v <;> simp [h]
  rw [hdump]
  exact lookup_filterMap hnames hf

theorem coerced_dumped (hb : py.ReadsBack d) (hnodup : (e.updatableFields.map Prod.fst).Nodup)
    (updates : List (String × Json)) :
    e.coerced py (dumpUpdates d (e.coerced py updates)) = e.coerced py updates := by
  refine List.filterMap_congr (fun f hf => ?_)
  rw [lookup_dumped hnodup hf]
  cases updates.lookup f.1 with
  | none => rfl
  | some v =>
    cases h : f.2.parse py v with
    | none => simp [h]
    | some value => simp [h, (Typing.parse_dump hb h).1]

theorem updateErrors_dumped (hb : py.ReadsBack d)
    (hnodup : (e.updatableFields.map Prod.fst).Nodup) (updates : List (String × Json)) :
    e.updateErrors py (dumpUpdates d (e.coerced py updates)) = [] := by
  refine List.filterMap_eq_nil_iff.mpr (fun f hf => ?_)
  rw [lookup_dumped hnodup hf]
  cases updates.lookup f.1 with
  | none => rfl
  | some v =>
    cases h : f.2.parse py v with
    | none => simp [h]
    | some value => simp [h, (Typing.parse_dump hb h).1]

theorem mem_names_of_mem_coerced {updates : List (String × Json)} {p : String × Value}
    (h : p ∈ e.coerced py updates) : p.1 ∈ e.updatableFields.map Prod.fst := by
  obtain ⟨f, hf, _, _, _, hname⟩ := mem_coerced.mp h
  exact List.mem_map.mpr ⟨f, hf, hname⟩

theorem uncoerced_dumped (hb : py.ReadsBack d) (updates : List (String × Json)) :
    (dumpUpdates d (e.coerced py updates)).mapM columnUpdate = some (e.coerced py updates) := by
  have hback : ∀ p ∈ e.coerced py updates, columnUpdate (p.1, p.2.dump d) = some p := by
    intro p hp
    obtain ⟨_, _, _, _, hparse, _⟩ := mem_coerced.mp hp
    simp only [columnUpdate, (Typing.parse_dump hb hparse).2, Option.map_some]
  unfold dumpUpdates
  generalize e.coerced py updates = coerced at hback
  induction coerced with
  | nil => rfl
  | cons p coerced ih =>
    rw [List.map_cons, List.mapM_cons, hback p List.mem_cons_self,
      ih (fun q hq => hback q (List.mem_cons_of_mem p hq))]
    rfl

theorem validateUpdates_ok_iff {text : PyText} {updates : List (String × Json)}
    {coerced : List (String × Value)} :
    e.validateUpdates text py updates = .ok coerced ↔
      updates ≠ [] ∧ (∀ u ∈ updates, u.1 ∈ e.updatableFields.map Prod.fst) ∧
        e.updateErrors py updates = [] ∧ coerced = e.coerced py updates := by
  have hunknown : ((updates.map Prod.fst).filter (· ∉ e.updatableFields.map Prod.fst)).isEmpty ↔
      ∀ u ∈ updates, u.1 ∈ e.updatableFields.map Prod.fst := by
    simp only [List.isEmpty_iff, List.filter_eq_nil_iff, decide_eq_true_eq, not_not,
      List.forall_mem_map]
  rw [← hunknown, ne_eq, ← List.isEmpty_iff, ← List.isEmpty_iff]
  unfold EntityDescriptor.validateUpdates
  dsimp only
  split_ifs with hempty hnames herrors
  · exact iff_of_false (by simp) (fun h => h.1 hempty)
  · exact iff_of_false (by simp) (fun h => by simp only [h.2.1, Bool.not_true,
      Bool.false_eq_true] at hnames)
  · exact iff_of_false (by simp) (fun h => by simp only [h.2.2.1, Bool.not_true,
      Bool.false_eq_true] at herrors)
  · rw [Bool.not_eq_true', Bool.not_eq_false] at hnames herrors
    exact ⟨fun h => ⟨hempty, hnames, herrors, (Except.ok.inj h).symm⟩,
      fun h => congrArg Except.ok h.2.2.2.symm⟩

/-- The updates that an entity has accepted are accepted once more, and as they are. -/
theorem validateUpdates_dumped {text : PyText} (hb : py.ReadsBack d)
    (hnodup : (e.updatableFields.map Prod.fst).Nodup) {updates : List (String × Json)}
    {coerced : List (String × Value)} (h : e.validateUpdates text py updates = .ok coerced) :
    e.validateUpdates text py (dumpUpdates d coerced) = .ok coerced := by
  obtain ⟨hne, hnames, herrors, rfl⟩ := validateUpdates_ok_iff.mp h
  refine validateUpdates_ok_iff.mpr ⟨?_, ?_, updateErrors_dumped hb hnodup updates,
    (coerced_dumped hb hnodup updates).symm⟩
  · obtain ⟨u, rest, rfl⟩ := List.exists_cons_of_ne_nil hne
    obtain ⟨f, hf, hname⟩ := List.mem_map.mp (hnames u List.mem_cons_self)
    have hlookup : (u :: rest).lookup f.1 = some u.2 := by
      rw [hname]
      exact List.lookup_cons_self
    have hparse : ((f.2.updateTyping.orNone).parse py u.2).isSome := by
      by_contra hnone
      have hf' := List.filterMap_eq_nil_iff.mp herrors (f.1, f.2.updateTyping.orNone)
        (List.mem_map.mpr ⟨f, hf, rfl⟩)
      simp [hlookup, hnone] at hf'
    obtain ⟨value, hvalue⟩ := Option.isSome_iff_exists.mp hparse
    have hmem : (f.1, value) ∈ e.coerced py (u :: rest) :=
      mem_coerced.mpr ⟨f, hf, u.2, hlookup, hvalue, rfl⟩
    exact fun hnil => List.ne_nil_of_mem hmem (List.map_eq_nil_iff.mp hnil)
  · intro u hu
    obtain ⟨p, hp, rfl⟩ := List.mem_map.mp hu
    exact mem_names_of_mem_coerced hp

end Updates

section Configs

variable {text : PyText} {py : Pydantic} {d : JsonDump} {e : EntityDescriptor} {payload : Payload}

theorem updatePayload_dumped (hb : py.ReadsBack d) {c : BulkUpdateConfig}
    (h : Payload.requireATargetSet c.filter c.entityIds = .ok ()) :
    UpdatePayload.parse py (c.modelDump d) =
      .ok ⟨dumpUpdates d c.updates, c.filter, c.entityIds, c.deduplicateBy⟩ :=
  updatePayload_eq_ok.mpr ⟨rfl, filter_dumped rfl, entityIds_dumped hb rfl,
    deduplicateBy_dumped rfl, rfl, h⟩

theorem deleteConfig_dumped (hb : py.ReadsBack d) {c : BulkDeleteConfig}
    (h : Payload.requireATargetSet c.filter c.entityIds = .ok ()) :
    BulkDeleteConfig.parse py (c.modelDump d) = .ok c :=
  deleteConfig_eq_ok.mpr ⟨filter_dumped rfl, entityIds_dumped hb rfl, hard_dumped hb rfl,
    deduplicateBy_dumped rfl, rfl, h⟩

theorem update_reads_back (hb : py.ReadsBack d) (hnodup : (e.updatableFields.map Prod.fst).Nodup)
    {c : BulkUpdateConfig} (h : BulkUpdateAction.validateConfig text py e payload = .ok c) :
    ActionType.configModel py (c.modelDump d) .update = .ok (some (.update c)) ∧
      BulkUpdateAction.validateConfig text py e (c.modelDump d) = .ok c := by
  obtain ⟨parsed, hparsed, h⟩ := bind_eq_ok.mp h
  obtain ⟨coerced, hcoerced, h⟩ := bind_eq_ok.mp h
  obtain ⟨_, hfilter, h⟩ := bind_eq_ok.mp h
  obtain ⟨_, hdedup, h⟩ := bind_eq_ok.mp h
  cases pure_eq_ok.mp h
  have htarget := (updatePayload_eq_ok.mp (mapError_eq_ok.mp hparsed)).2.2.2.2.2
  have hdumped := updatePayload_dumped (c := ⟨coerced, _, _, parsed.deduplicateBy⟩) hb htarget
  constructor
  · refine map_eq_ok.mpr ⟨_, hdumped, ?_⟩
    obtain rfl := validateUpdates_eq_ok hcoerced
    simp only [UpdatePayload.uncoerced, uncoerced_dumped hb, Option.map_some]
  · exact bind_eq_ok.mpr ⟨_, mapError_eq_ok.mpr hdumped, bind_eq_ok.mpr
      ⟨coerced, validateUpdates_dumped hb hnodup hcoerced, bind_eq_ok.mpr
        ⟨_, hfilter, bind_eq_ok.mpr ⟨_, hdedup, rfl⟩⟩⟩⟩

theorem delete_reads_back (hb : py.ReadsBack d) {c : BulkDeleteConfig}
    (h : BulkDeleteAction.validateConfig text py e payload = .ok c) :
    ActionType.configModel py (c.modelDump d) .delete = .ok (some (.delete c)) ∧
      BulkDeleteAction.validateConfig text py e (c.modelDump d) = .ok c := by
  obtain ⟨parsed, hparsed, h⟩ := bind_eq_ok.mp h
  obtain ⟨_, hfilter, h⟩ := bind_eq_ok.mp h
  obtain ⟨_, hsoft, h⟩ := bind_eq_ok.mp h
  obtain ⟨_, hdedup, h⟩ := bind_eq_ok.mp h
  cases pure_eq_ok.mp h
  have htarget := (deleteConfig_eq_ok.mp (mapError_eq_ok.mp hparsed)).2.2.2.2.2
  have hdumped := deleteConfig_dumped hb htarget
  exact ⟨map_eq_ok.mpr ⟨_, hdumped, rfl⟩, bind_eq_ok.mpr ⟨_, mapError_eq_ok.mpr hdumped,
    bind_eq_ok.mpr ⟨_, hfilter, bind_eq_ok.mpr ⟨_, hsoft, bind_eq_ok.mpr ⟨_, hdedup, rfl⟩⟩⟩⟩⟩

end Configs

theorem getEntity_names_nodup : ∀ t, ((getEntity t).updatableFields.map Prod.fst).Nodup
  | .contact => by decide
  | .company => by decide

/-- A configuration that has been validated is read back from its dump, which would be accepted
once more. -/
theorem config_reads_back {text : PyText} {py : Pydantic} {d : JsonDump} (hb : py.ReadsBack d)
    {t : EntityType} {a : ActionType} {payload : Payload} {config : Config}
    (h : a.validateConfig text py (getEntity t) payload = .ok config) :
    a.configModel py (config.modelDump d) = .ok (some config) ∧
      a.validateConfig text py (getEntity t) (config.modelDump d) = .ok config := by
  cases a with
  | update =>
    obtain ⟨c, hc, rfl⟩ := map_eq_ok.mp h
    obtain ⟨hmodel, hvalid⟩ := update_reads_back hb (getEntity_names_nodup t) hc
    exact ⟨hmodel, map_eq_ok.mpr ⟨c, hvalid, rfl⟩⟩
  | delete =>
    obtain ⟨c, hc, rfl⟩ := map_eq_ok.mp h
    obtain ⟨hmodel, hvalid⟩ := delete_reads_back hb hc
    exact ⟨hmodel, map_eq_ok.mpr ⟨c, hvalid, rfl⟩⟩

/-- What is stored of an accepted payload is read back as the configuration that was
validated, by the worker and when it is submitted once more. -/
theorem stored_config_reads_back {text : PyText} {py : Pydantic} {d : JsonDump}
    (hb : py.ReadsBack d) {t : EntityType} {a : ActionType} {payload : Payload} {config : Config}
    (h : a.validateConfig text py (getEntity t) payload = .ok config) :
    a.configModel py (config.modelDump d) = .ok (some config) ∧
      a.validateConfig text py (getEntity t) (config.modelDump d) = .ok config :=
  config_reads_back hb h

/-- Ids are written in decimal. -/
def decimalDump : JsonDump where
  uuid := Nat.repr
  time := Nat.repr

def decimalPydantic : Pydantic :=
  { plainPydantic with
    uuid := fun
      | .str s => some (Nat.ofDigitChars 10 s.toList 0)
      | _ => none }

theorem decimal_readsBack : decimalPydantic.ReadsBack decimalDump where
  uuid id := congrArg some (by
    rw [decimalDump, Nat.toList_repr, Nat.ofDigitChars_ten_toDigits])
  bool _ := rfl
  int _ := rfl
  strip _ := rfl

/-- The age of two contacts, one for each email. -/
def ageConfig : Config := .update ⟨[("age", .int 41)], none, some [7, 12], some "email"⟩

theorem stored_config_reads_back_ages :
    ActionType.configModel decimalPydantic (ageConfig.modelDump decimalDump) .update =
        .ok (some ageConfig) ∧
      ActionType.validateConfig asciiText decimalPydantic contactEntity
        (ageConfig.modelDump decimalDump) .update = .ok ageConfig :=
  @stored_config_reads_back asciiText decimalPydantic decimalDump decimal_readsBack .contact .update
    [("updates", .obj [("age", .int 41)]), ("entity_ids", .arr [.str "7", .str "12"]),
      ("deduplicate_by", .str "email")] ageConfig rfl

end BulkActions
