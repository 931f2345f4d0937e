import BulkActions.Jsonb
import BulkActions.StoredConfig

namespace BulkActions

open Checks

/-- The configuration that a worker reads from the column, for one that has been validated. -/
def Config.ReadFrom (j : Jsonb) : Config → Config → Prop
  | .update c, .update s => s.updates.Perm c.updates ∧ s.filter = c.filter.map j.members ∧
    s.entityIds = c.entityIds ∧ s.deduplicateBy = c.deduplicateBy
  | .delete c, .delete s => s.filter = c.filter.map j.members ∧ s.entityIds = c.entityIds ∧
    s.hard = c.hard ∧ s.deduplicateBy = c.deduplicateBy
  | _, _ => False

section Members

variable {j : Jsonb} {py : Pydantic} {d : JsonDump} {payload : Payload}

theorem read_dump (v : Value) : j.read (v.dump d) = v.dump d := by
  cases v <;> simp [Value.dump]

theorem read_dumpOptional_filter (filter : Option Filter) :
    j.read (dumpOptional .obj filter) = dumpOptional .obj (filter.map j.members) := by
  cases filter <;> simp [dumpOptional]

theorem read_dumpOptional_ids (ids : Option (List Uuid)) :
    j.read (dumpOptional (dumpIds d) ids) = dumpOptional (dumpIds d) ids := by
  cases ids <;> simp [dumpOptional, dumpIds]

theorem read_dumpOptional_str (field : Option String) :
    j.read (dumpOptional .str field) = dumpOptional .str field := by
  cases field <;> simp [dumpOptional]

theorem members_dumpUpdates_perm (updates : List (String × Value)) :
    (j.members (dumpUpdates d updates)).Perm (dumpUpdates d updates) := by
  have hsame : (dumpUpdates d updates).map (fun f => (f.1, j.read f.2)) =
      dumpUpdates d updates := by
    simp [dumpUpdates, read_dump]
  exact (Jsonb.members_perm _).trans (List.Perm.of_eq hsame)

theorem forbidExtra_members {fields : List String} (h : payload.forbidExtra py fields = []) :
    Payload.forbidExtra py fields (j.members payload) = [] := by
  simp only [Payload.forbidExtra, List.map_eq_nil_iff, List.filter_eq_nil_iff] at h ⊢
  exact fun name hname => h name ((Jsonb.members_names_perm payload).mem_iff.mp hname)

theorem requireATargetSet_map {filter : Option Filter} {ids : Option (List Uuid)}
    (h : Payload.requireATargetSet filter ids = .ok ()) :
    Payload.requireATargetSet (filter.map j.members) ids = .ok () := by
  cases filter with
  | none => exact h
  | some filter =>
    cases ids with
    | none => rfl
    | some ids => cases h

end Members

theorem Config.ReadFrom.selectionFilters {j : Jsonb} {config stored : Config}
    (h : config.ReadFrom j stored) :
    stored.selectionFilters = config.selectionFilters.map j.members := by
  cases config <;> cases stored
  · exact h.2.1
  · cases h
  · cases h
  · exact h.1

section Reading

variable {j : Jsonb} {py : Pydantic} {d : JsonDump}

/-- Updates that are values of columns are so in any order of their names. -/
theorem uncoerced_members {updates : List (String × Value)}
    (h : (dumpUpdates d updates).mapM columnUpdate = some updates) :
    ∃ updates', (j.members (dumpUpdates d updates)).mapM columnUpdate = some updates' ∧
      updates'.Perm updates := by
  have hperm := members_dumpUpdates_perm (j := j) (d := d) updates
  have hsome : ∀ u ∈ dumpUpdates d updates, (columnUpdate u).isSome := isSome_of_mapM h
  have hsame : (dumpUpdates d updates).filterMap columnUpdate = updates :=
    Option.some.inj ((mapM_eq_filterMap hsome).symm.trans h)
  refine ⟨_, mapM_eq_filterMap (fun u hu => hsome u (hperm.mem_iff.mp hu)), ?_⟩
  exact (hperm.filterMap columnUpdate).trans (List.Perm.of_eq hsame)

theorem updatePayload_read_from (hb : py.ReadsBack d) {c : BulkUpdateConfig}
    (h : Payload.requireATargetSet c.filter c.entityIds = .ok ()) :
    UpdatePayload.parse py (j.members (c.modelDump d)) =
      .ok ⟨j.members (dumpUpdates d c.updates), c.filter.map j.members, c.entityIds,
        c.deduplicateBy⟩ := by
  have hnames : ((c.modelDump d).map Prod.fst).Nodup := by
    simp [BulkUpdateConfig.modelDump]
  have hlookup := Jsonb.lookup_members (j := j) hnames
  refine updatePayload_eq_ok.mpr ⟨?_, filter_dumped ?_, entityIds_dumped hb ?_,
    deduplicateBy_dumped ?_, forbidExtra_members rfl, requireATargetSet_map h⟩
  · have hupdates : (c.modelDump d).lookup "updates" = some (.obj (dumpUpdates d c.updates)) := rfl
    rw [Payload.updates, hlookup, hupdates, Option.map_some, Jsonb.read_obj]
  · rw [hlookup]
    exact congrArg some (read_dumpOptional_filter _)
  · rw [hlookup]
    exact congrArg some (read_dumpOptional_ids _)
  · rw [hlookup]
    exact congrArg some (read_dumpOptional_str _)

theorem deleteConfig_read_from (hb : py.ReadsBack d) {c : BulkDeleteConfig}
    (h : Payload.requireATargetSet c.filter c.entityIds = .ok ()) :
    BulkDeleteConfig.parse py (j.members (c.modelDump d)) =
      .ok ⟨c.filter.map j.members, c.entityIds, c.hard, c.deduplicateBy⟩ := by
  have hnames : ((c.modelDump d).map Prod.fst).Nodup := by
    simp [BulkDeleteConfig.modelDump]
  have hlookup := Jsonb.lookup_members (j := j) hnames
  refine deleteConfig_eq_ok.mpr ⟨filter_dumped ?_, entityIds_dumped hb ?_, hard_dumped hb ?_,
    deduplicateBy_dumped ?_, forbidExtra_members rfl, requireATargetSet_map h⟩
  · rw [hlookup]
    exact congrArg some (read_dumpOptional_filter _)
  · rw [hlookup]
    exact congrArg some (read_dumpOptional_ids _)
  · rw [hlookup]
    exact congrArg some (Jsonb.read_bool _)
  · rw [hlookup]
    exact congrArg some (read_dumpOptional_str _)

/-- A configuration that is read back from its dump is read back from the column too. -/
theorem config_read_from (hb : py.ReadsBack d) {a : ActionType} {config : Config}
    (h : a.configModel py (config.modelDump d) = .ok (some config)) :
    ∃ stored, a.configModel py (j.members (config.modelDump d)) = .ok (some stored) ∧
      config.ReadFrom j stored := by
  cases a with
  | update =>
    obtain ⟨parsed, hparsed, hconfig⟩ := map_eq_ok.mp h
    obtain ⟨c, hc, rfl⟩ := Option.map_eq_some_iff.mp hconfig
    obtain ⟨updates, hupdates, rfl⟩ := Option.map_eq_some_iff.mp hc
    obtain ⟨hsent, _, _, _, _, htarget⟩ := updatePayload_eq_ok.mp hparsed
    rw [← Except.ok.inj hsent] at hupdates
    obtain ⟨updates', hupdates', hperm⟩ := uncoerced_members (j := j) hupdates
    refine ⟨.update ⟨updates', parsed.filter.map j.members, parsed.entityIds,
      parsed.deduplicateBy⟩, ?_, hperm, rfl, rfl, rfl⟩
    refine map_eq_ok.mpr ⟨_, updatePayload_read_from hb htarget, ?_⟩
    rw [UpdatePayload.uncoerced, hupdates']
    rfl
  | delete =>
    obtain ⟨c, hparsed, hc⟩ := map_eq_ok.mp h
    obtain rfl := Option.some.inj hc
    have htarget := (deleteConfig_eq_ok.mp hparsed).2.2.2.2.2
    exact ⟨_, map_eq_ok.mpr ⟨_, deleteConfig_read_from hb htarget, rfl⟩, rfl, rfl, rfl, rfl⟩

end Reading

/-- The validation of a filter looks at the names in it, in any order. -/
theorem validateFilter_members {text : PyText} {j : Jsonb} {e : EntityDescriptor}
    {filters : Filter} (h : validateFilter text e (some filters) = .ok ()) :
    validateFilter text e (some (j.members filters)) = .ok () := by
  refine forM_eq_ok.mpr (fun f hf => ?_)
  obtain ⟨g, hg, rfl⟩ := Jsonb.mem_members.mp hf
  have hvalid := forM_eq_ok.mp h g hg
  unfold validateCondition at hvalid ⊢
  split_ifs at hvalid ⊢ with hname
  cases hc : g.2 with
  | obj ops =>
    simp only [hc, Jsonb.read_obj] at hvalid ⊢
    have hperm := (Jsonb.members_names_perm (j := j) ops).filter (· ∉ operators.map Prod.fst)
    split_ifs at hvalid with hnone
    rw [List.isEmpty_iff] at hnone
    rw [hnone, List.perm_nil] at hperm
    rw [hperm]
    rfl
  | float q => cases hq : j.number q <;> simp [Jsonb.read, hq]
  | _ => simp

theorem Config.ReadFrom.validFilter {text : PyText} {j : Jsonb} {e : EntityDescriptor}
    {config stored : Config} (h : config.ReadFrom j stored)
    (hvalid : validateFilter text e config.selectionFilters = .ok ()) :
    validateFilter text e stored.selectionFilters = .ok () := by
  rw [h.selectionFilters]
  cases hfilter : config.selectionFilters with
  | none => rfl
  | some filters =>
    rw [hfilter] at hvalid
    exact validateFilter_members hvalid

/-- The filter that is read back of an accepted payload compiles without a ValidationError exactly
when its lists are filled, in the order of the column. -/
theorem accepted_filter_compiles_iff {text : PyText} {py : Pydantic} {d : JsonDump}
    (hb : py.ReadsBack d) (j : Jsonb) {t : EntityType} {a : ActionType} {payload : Payload}
    {filters : Filter} {config : Config} (accountId : Uuid)
    (hf : payload.lookup "filter" = some (.obj filters))
    (h : a.validateConfig text py (getEntity t) payload = .ok config) :
    ∃ stored, a.configModel py (j.members (config.modelDump d)) = .ok (some stored) ∧
      stored.selectionFilters = some (j.members filters) ∧
      ((∀ detail, selectionClause text (getEntity t) accountId stored.selectionFilters
        stored.includeDeleted ≠ .error (.validation detail)) ↔
          listsFilled (j.members filters)) := by
  obtain ⟨hfilter, hvalid⟩ := validateConfig_filter h
  have hsame : config.selectionFilters = some filters :=
    Except.ok.inj (hfilter.symm.trans (payload_filter_obj hf))
  obtain ⟨stored, hstored, hread⟩ := config_read_from (j := j) hb (config_reads_back hb h).1
  have hselect : stored.selectionFilters = some (j.members filters) := by
    rw [Config.ReadFrom.selectionFilters hread, hsame]
    rfl
  refine ⟨stored, hstored, hselect, ?_⟩
  rw [hsame] at hvalid
  simp only [hselect, ne_eq, selectionClause_eq_error]
  exact buildPredicates_valid_iff (validateFilter_members hvalid)

/-- Numbers are read back as they are. -/
def plainJsonb : Jsonb := ⟨Sum.inr⟩

/-- Two operators change places in the column. -/
theorem plainJsonb_members :
    plainJsonb.members [("age", .obj [("lt", .null), ("in", .arr [.int 41])])] =
      [("age", .obj [("in", .arr [.int 41]), ("lt", .null)])] := by
  have hsize : ("in" : String).utf8ByteSize = ("lt" : String).utf8ByteSize := by decide
  have hnot : ¬ ("lt" : String) ≤ "in" := by decide
  simp [Jsonb.members, Jsonb.readFields, Jsonb.readItems, Jsonb.read, List.mergeSort,
    List.MergeSort.Internal.splitInTwo, Jsonb.memberLe, hsize, hnot]

/-- Set the status of the contacts that a filter selects. -/
def churnPayload (filters : Filter) : Payload :=
  [("updates", .obj [("status", .str "churned")]), ("filter", .obj filters)]

def churnConfig (filters : Filter) : Config :=
  .update ⟨[("status", .str "churned")], some filters, none, none⟩

theorem accepted_filter_compiles_listed :
    ∃ stored, ActionType.configModel decimalPydantic (plainJsonb.members
        ((churnConfig [("age", .obj [("lt", .null), ("in", .arr [.int 41])])]).modelDump
          decimalDump)) .update = .ok (some stored) ∧
      stored.selectionFilters = some [("age", .obj [("in", .arr [.int 41]), ("lt", .null)])] ∧
      ((∀ detail, selectionClause asciiText contactEntity 1 stored.selectionFilters
        stored.includeDeleted ≠ .error (.validation detail)) ↔
          listsFilled [("age", .obj [("in", .arr [.int 41]), ("lt", .null)])]) := by
  rw [← plainJsonb_members]
  exact @accepted_filter_compiles_iff asciiText decimalPydantic decimalDump decimal_readsBack
    plainJsonb .contact .update
    (churnPayload [("age", .obj [("lt", .null), ("in", .arr [.int 41])])]) _
    (churnConfig [("age", .obj [("lt", .null), ("in", .arr [.int 41])])]) 1 rfl rfl

/-- An empty list under `in` is accepted at submission and refused by the worker. -/
theorem accepted_filter_may_not_compile :
    ¬ ∀ (text : PyText) (py : Pydantic) (d : JsonDump) (j : Jsonb) (t : EntityType)
      (a : ActionType) (payload : Payload) (filters : Filter) (config stored : Config)
      (accountId : Uuid) (detail : String),
      py.ReadsBack d → payload.lookup "filter" = some (.obj filters) →
      a.validateConfig text py (getEntity t) payload = .ok config →
      a.configModel py (j.members (config.modelDump d)) = .ok (some stored) →
      selectionClause text (getEntity t) accountId stored.selectionFilters stored.includeDeleted ≠
        .error (.validation detail) := by
  intro always
  have hvalid : ActionType.validateConfig asciiText decimalPydantic contactEntity
      (churnPayload [("status", .obj [("in", .arr [])])]) .update =
        .ok (churnConfig [("status", .obj [("in", .arr [])])]) := rfl
  obtain ⟨stored, hstored, hread⟩ := config_read_from (j := plainJsonb) decimal_readsBack
    (config_reads_back (t := .contact) decimal_readsBack hvalid).1
  have hfilter : stored.selectionFilters = some [("status", .obj [("in", .arr [])])] := by
    rw [hread.selectionFilters]
    simp [churnConfig, Config.selectionFilters, Jsonb.members, Jsonb.readFields, Jsonb.readItems,
      Jsonb.read]
  refine always asciiText decimalPydantic decimalDump plainJsonb .contact .update _ _ _ stored 1
    "Operator 'in' requires a non-empty list." decimal_readsBack rfl hvalid hstored ?_
  rw [hfilter]
  cases stored <;> rfl

end BulkActions
