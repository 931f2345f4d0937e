import BulkActions.ColumnConstraints
import BulkActions.LiveTargets

namespace BulkActions

namespace EntityRecord

theorem assign_cols_ne {r : EntityRecord} {values : List (String × Value)} {name : String}
    (h : name ∉ values.map Prod.fst) : (r.assign values).cols name = r.cols name := by
  induction values generalizing r with
  | nil => rfl
  | cons v values ih =>
    simp only [List.map_cons, List.mem_cons, not_or] at h
    exact (ih h.2).trans (Function.update_of_ne h.1 _ _)

/-- A column holds what a dict assigns to it. -/
theorem assign_cols {r : EntityRecord} {values : List (String × Value)}
    (nodup : (values.map Prod.fst).Nodup) {v : String × Value} (h : v ∈ values) :
    (r.assign values).cols v.1 = v.2 := by
  induction values generalizing r with
  | nil => cases h
  | cons w values ih =>
    obtain ⟨hw, nodup⟩ := List.nodup_cons.mp nodup
    rcases List.mem_cons.mp h with rfl | h
    · exact (assign_cols_ne hw).trans (Function.update_self ..)
    · exact ih nodup h

theorem lookup_map_get (r : EntityRecord) {names : List String} {name : String}
    (h : name ∈ names) :
    (names.map (fun name => (name, r.get name))).lookup name = some (r.get name) := by
  induction names with
  | nil => cases h
  | cons n names ih =>
    by_cases hn : name = n
    · subst hn
      simp
    · have hne : (name == n) = false := by simpa using hn
      rw [List.map_cons, List.lookup_cons, hne]
      exact ih ((List.mem_cons.mp h).resolve_left hn)

/-- A handler sees the readable columns as they are. -/
theorem toRow_get {e : EntityDescriptor} (r : EntityRecord) {name : String}
    (h : name ∈ e.readableColumns) : (r.toRow e).get name = r.get name := by
  rw [EntityRow.get, toRow, lookup_map_get r h]
  rfl

end EntityRecord

/-- What the writable fields of a registered entity have in common. -/
theorem updatable_column : ∀ (entity : EntityType),
    ∀ name ∈ (getEntity entity).updatableFields.map Prod.fst,
      name ∈ (getEntity entity).readableColumns ∧
        name ≠ "id" ∧ name ≠ "account_id" ∧ name ≠ "updated_at"
  | .contact => by decide
  | .company => by decide

/-- A writable field has a column. -/
theorem updatable_declared : ∀ (entity : EntityType),
    ∀ name ∈ (getEntity entity).updatableFields.map Prod.fst,
      ((getEntity entity).column name).isSome
  | .contact => by decide
  | .company => by decide

theorem column_eq_some {e : EntityDescriptor} {name : String} {c : Column}
    (h : e.column name = some c) : c ∈ e.columns ∧ c.name = name :=
  ⟨List.mem_of_find?_eq_some h, by simpa using List.find?_some h⟩

/-- Every column of the table holds a value that it can hold. -/
def EntityTable.Admitted (e : EntityDescriptor) (t : EntityTable) : Prop :=
  ∀ r ∈ t.rows, ∀ c ∈ e.columns, c.admits (r.get c.name)

namespace BulkUpdateAction

/-- What `execute` comes to on a table that others leave alone, when PostgreSQL takes its UPDATE. -/
def taken (e : EntityDescriptor) (config : BulkUpdateConfig) (accountId : Uuid) (now : Timestamp)
    (rows : List EntityRow) (t : EntityTable) : BatchResult × EntityTable :=
  let ids := toWrite config rows
  if ids.isEmpty then (execute config rows [], t)
  else (execute config rows (t.affected accountId ids),
    t.write e (.update config) accountId now ids)

/-- `execute` with its UPDATE; `none` when PostgreSQL refuses the new version of a row, since a
column cannot hold its value: the statement raises. -/
def run (e : EntityDescriptor) (config : BulkUpdateConfig) (accountId : Uuid) (now : Timestamp)
    (rows : List EntityRow) (t : EntityTable) : Option (BatchResult × EntityTable) :=
  if (t.affected accountId (toWrite config rows)).isEmpty ||
      e.admits (Config.stamped e now config.updates) then
    some (taken e config accountId now rows t)
  else none

/-- An update of some writable fields of an entity, as a dict. -/
structure Writes (entity : EntityType) (config : BulkUpdateConfig) : Prop where
  nonempty : config.updates ≠ []
  fields : ∀ u ∈ config.updates, u.1 ∈ (getEntity entity).updatableFields.map Prod.fst
  nodup : (config.updates.map Prod.fst).Nodup

section Run

variable {entity : EntityType} {config : BulkUpdateConfig} {accountId : Uuid} {now : Timestamp}
  {t : EntityTable} {rs : List EntityRecord} {r : EntityRecord}

/-- The row holds all the requested values. -/
def Holds (config : BulkUpdateConfig) (r : EntityRecord) : Prop :=
  ∀ u ∈ config.updates, r.get u.1 = u.2

theorem holdsValues_iff (h : Writes entity config) (r : EntityRecord) :
    holdsValues config (r.toRow (getEntity entity)) ↔ Holds config r := by
  rw [holdsValues, List.all_eq_true]
  refine forall₂_congr (fun u hu => ?_)
  have hcolumn := updatable_column entity u.1 (h.fields u hu)
  rw [decide_eq_true_eq, EntityRecord.toRow_get r hcolumn.1]

theorem get_of_updatable {name : String}
    (h : name ∈ (getEntity entity).updatableFields.map Prod.fst) (r : EntityRecord) :
    r.get name = r.cols name := by
  obtain ⟨_, hid, haccount, _⟩ := updatable_column entity name h
  simp [EntityRecord.get, hid, haccount]

/-- What the UPDATE makes of a row it hits. -/
def rewritten (entity : EntityType) (config : BulkUpdateConfig) (now : Timestamp)
    (r : EntityRecord) : EntityRecord :=
  r.assign (Config.stamped (getEntity entity) now config.updates)

theorem mem_stamped {e : EntityDescriptor} {v : String × Value} {values : List (String × Value)}
    (h : v ∈ Config.stamped e now values) : v ∈ values ∨ v.1 = "updated_at" := by
  rcases List.mem_append.mp h with h | h
  · exact Or.inl h
  · split_ifs at h
    · rw [List.mem_singleton.mp h]
      exact Or.inr rfl
    · cases h

theorem stamped_nodup (h : Writes entity config) :
    ((Config.stamped (getEntity entity) now config.updates).map Prod.fst).Nodup := by
  have hfresh : "updated_at" ∉ config.updates.map Prod.fst := by
    intro hmem
    obtain ⟨u, hu, hname⟩ := List.mem_map.mp hmem
    exact (updatable_column entity u.1 (h.fields u hu)).2.2.2 hname
  unfold Config.stamped
  split_ifs
  · rw [List.map_append, List.map_singleton]
    exact List.nodup_append.mpr ⟨h.nodup, List.nodup_singleton _, by
      intro name hname other hother
      rw [List.mem_singleton.mp hother]
      rintro rfl
      exact hfresh hname⟩
  · rw [List.append_nil]
    exact h.nodup

theorem rewritten_holds (h : Writes entity config) (r : EntityRecord) :
    Holds config (rewritten entity config now r) := by
  intro u hu
  rw [get_of_updatable (h.fields u hu)]
  exact EntityRecord.assign_cols (stamped_nodup h) (List.mem_append_left _ hu)

theorem rewritten_frame {name : String} (h : name ∉ config.updates.map Prod.fst)
    (hstamp : name ≠ "updated_at") : (rewritten entity config now r).get name = r.get name := by
  have hkeys := r.assign_keys (Config.stamped (getEntity entity) now config.updates)
  have hcols : (rewritten entity config now r).cols name = r.cols name := by
    apply EntityRecord.assign_cols_ne
    intro hmem
    obtain ⟨v, hv, hname⟩ := List.mem_map.mp hmem
    rcases mem_stamped hv with hv | hv
    · exact h (hname ▸ List.mem_map_of_mem hv)
    · exact hstamp (hname.symm.trans hv)
  simp only [EntityRecord.get, rewritten, hkeys.1, hkeys.2]
  rw [← hcols, rewritten]

/-- The rows of the account that a run is given. -/
def Given (accountId : Uuid) (t : EntityTable) (rs : List EntityRecord) : Prop :=
  ∀ r ∈ rs, r ∈ t.rows ∧ r.accountId = accountId

/-- The WHERE clause hits the given rows that hold other values. -/
theorem hits_iff (h : Writes entity config) (hrs : Given accountId t rs) (hr : r ∈ t.rows) :
    EntityTable.hits accountId (toWrite config (rs.map (EntityRecord.toRow (getEntity entity)))) r ↔
      r ∈ rs ∧ ¬ Holds config r := by
  have hchanges : (Config.update config).changes (getEntity entity) r ↔ ¬ Holds config r := by
    rw [← holdsValues_iff h r, Config.changes, Bool.not_eq_true', Bool.not_eq_true]
  have hids : r.id ∈ toWrite config (rs.map (EntityRecord.toRow (getEntity entity))) ↔
      r ∈ rs ∧ ¬ Holds config r := by
    have htargets := Config.targets_toRow (getEntity entity) (.update config) rs
    rw [Config.targets] at htargets
    rw [htargets, EntityTable.mem_ids ?_ hr, List.mem_filter, hchanges]
    exact fun s hs => (hrs s (List.mem_filter.mp hs).1).1
  rw [EntityTable.hits, Bool.and_eq_true, decide_eq_true_eq, decide_eq_true_eq, hids]
  exact ⟨fun hboth => hboth.1, fun hwrite => ⟨hwrite, (hrs r hwrite.1).2⟩⟩

/-- Without rows to write the statement would do nothing either. -/
theorem taken_eq (config : BulkUpdateConfig) (rows : List EntityRow) :
    taken (getEntity entity) config accountId now rows t =
      (execute config rows (t.affected accountId (toWrite config rows)),
        t.write (getEntity entity) (.update config) accountId now (toWrite config rows)) := by
  unfold taken
  dsimp only
  split_ifs with hempty
  · rw [List.isEmpty_iff] at hempty
    have hresult : ∀ affected, execute config rows affected =
        ⟨(rows.filter (holdsValues config)).map noChange⟩ := by
      intro affected
      simp [execute, hempty]
    have htable : t.write (getEntity entity) (.update config) accountId now [] = t := by
      obtain ⟨rows, sorted⟩ := t
      simp [EntityTable.write, EntityTable.rewrite, EntityTable.hits]
    rw [hempty, htable, hresult, hresult]
  · rfl

instance (config : BulkUpdateConfig) (r : EntityRecord) : Decidable (Holds config r) :=
  inferInstanceAs (Decidable (∀ u ∈ config.updates, r.get u.1 = u.2))

/-- What is logged for a row: that it holds the values already, or that it has been updated. -/
def logged (entity : EntityType) (config : BulkUpdateConfig) (r : EntityRecord) : EntityOutcome :=
  if Holds config r then noChange (r.toRow (getEntity entity))
  else .success r.id .updated (.updates config.updates)

/-- The effect of an update: the given rows hold the values and are else unchanged, and the
outcomes say which of them have been written. -/
structure Updates (entity : EntityType) (config : BulkUpdateConfig) (t : EntityTable)
    (rs : List EntityRecord) (result : BatchResult) (t' : EntityTable) : Prop where
  ids : t'.rows.map EntityRecord.id = t.rows.map EntityRecord.id
  given : ∀ r ∈ rs, ∃ r' ∈ t'.rows, r'.id = r.id ∧ Holds config r' ∧
    ∀ name, name ∉ config.updates.map Prod.fst → name ≠ "updated_at" → r'.get name = r.get name
  others : ∀ r, r.id ∉ rs.map EntityRecord.id → (r ∈ t'.rows ↔ r ∈ t.rows)
  outcomes : result.outcomes.Perm (rs.map (logged entity config))
  untouched : ∀ r ∈ rs, Holds config r → r ∈ t'.rows ∧
    r.id ∉ toWrite config (rs.map (EntityRecord.toRow (getEntity entity)))

theorem taken_rows (config : BulkUpdateConfig) (rows : List EntityRow) :
    (taken (getEntity entity) config accountId now rows t).2.rows =
      t.rows.map (fun r => if EntityTable.hits accountId (toWrite config rows) r then
        rewritten entity config now r else r) := by
  rw [taken_eq, EntityTable.write_rows]
  refine Eq.trans ?_ (congrFun List.filterMap_eq_map t.rows)
  refine List.filterMap_congr (fun r _ => ?_)
  simp only [Function.comp_apply]
  split_ifs <;> rfl

/-- The statement returns the id of every row it is to write. -/
theorem taken_outcomes (h : Writes entity config) (hrs : Given accountId t rs) :
    (taken (getEntity entity) config accountId now
        (rs.map (EntityRecord.toRow (getEntity entity))) t).1.outcomes.Perm
      (rs.map (logged entity config)) := by
  have hholds : ∀ r, holdsValues config (r.toRow (getEntity entity)) = decide (Holds config r) :=
    fun r => Bool.eq_iff_iff.mpr ((holdsValues_iff h r).trans decide_eq_true_iff.symm)
  have hkept : ((rs.map (EntityRecord.toRow (getEntity entity))).filter (holdsValues config)).map
      noChange = (rs.filter (fun r => Holds config r)).map (logged entity config) := by
    rw [List.filter_map, List.map_map]
    simp only [Function.comp_def, hholds]
    refine List.map_congr_left (fun r hr => ?_)
    have hr : Holds config r := of_decide_eq_true (List.mem_filter.mp hr).2
    exact (if_pos hr).symm
  have hwritten : (toWrite config (rs.map (EntityRecord.toRow (getEntity entity)))).map
      (written config (t.affected accountId
        (toWrite config (rs.map (EntityRecord.toRow (getEntity entity)))))) =
      (rs.filter (fun r => !decide (Holds config r))).map (logged entity config) := by
    nth_rewrite 2 [toWrite]
    rw [List.filter_map, List.map_map, List.map_map]
    simp only [Function.comp_def, hholds, EntityRecord.toRow_id]
    refine List.map_congr_left (fun r hr => ?_)
    obtain ⟨hmem, hr⟩ := List.mem_filter.mp hr
    have hr : ¬ Holds config r := by simpa using hr
    have hhits := (hits_iff h hrs (hrs r hmem).1).mpr ⟨hmem, hr⟩
    have haffected : r.id ∈ t.affected accountId
        (toWrite config (rs.map (EntityRecord.toRow (getEntity entity)))) :=
      List.mem_map_of_mem (EntityTable.mem_select.mpr ⟨(hrs r hmem).1, hhits⟩)
    rw [written, if_pos haffected, logged, if_neg hr]
  rw [taken_eq]
  dsimp only [execute]
  rw [hkept, hwritten, ← List.map_append]
  exact (List.filter_append_perm (fun r => Holds config r) rs).map _

/-- An update does to the given rows what its outcomes say, and nothing to the others. -/
theorem taken_updates (h : Writes entity config) (hrs : Given accountId t rs) :
    Updates entity config t rs
      (taken (getEntity entity) config accountId now
        (rs.map (EntityRecord.toRow (getEntity entity))) t).1
      (taken (getEntity entity) config accountId now
        (rs.map (EntityRecord.toRow (getEntity entity))) t).2 where
  ids := by
    rw [taken_rows, List.map_map]
    refine List.map_congr_left (fun r _ => ?_)
    simp only [Function.comp_apply]
    split_ifs
    · exact (r.assign_keys _).1
    · rfl
  given r hr := by
    by_cases hholds : Holds config r
    · have hmiss := mt (hits_iff h hrs (hrs r hr).1).mp (fun hwrite => hwrite.2 hholds)
      refine ⟨r, ?_, rfl, hholds, fun _ _ _ => rfl⟩
      rw [taken_rows]
      exact List.mem_map.mpr ⟨r, (hrs r hr).1, if_neg hmiss⟩
    · have hhits := (hits_iff h hrs (hrs r hr).1).mpr ⟨hr, hholds⟩
      refine ⟨rewritten entity config now r, ?_, (r.assign_keys _).1, rewritten_holds h r,
        fun name hname hstamp => rewritten_frame hname hstamp⟩
      rw [taken_rows]
      exact List.mem_map.mpr ⟨r, (hrs r hr).1, if_pos hhits⟩
  others r hr := by
    have hmiss : ∀ s ∈ t.rows, s.id = r.id → ¬ EntityTable.hits accountId
        (toWrite config (rs.map (EntityRecord.toRow (getEntity entity)))) s := by
      intro s hs hid hhits
      exact hr (hid ▸ List.mem_map_of_mem ((hits_iff h hrs hs).mp hhits).1)
    rw [taken_rows, List.mem_map]
    constructor
    · rintro ⟨s, hs, heq⟩
      have hid : s.id = r.id := by
        rw [← heq]
        split_ifs
        · exact (s.assign_keys _).1.symm
        · rfl
      rw [if_neg (hmiss s hs hid)] at heq
      exact heq ▸ hs
    · exact fun hr => ⟨r, hr, if_neg (hmiss r hr rfl)⟩
  outcomes := taken_outcomes h hrs
  untouched r hr hholds := by
    have hmiss := mt (hits_iff h hrs (hrs r hr).1).mp (fun hwrite => hwrite.2 hholds)
    constructor
    · rw [taken_rows]
      exact List.mem_map.mpr ⟨r, (hrs r hr).1, if_neg hmiss⟩
    · intro hid
      refine hmiss ?_
      rw [EntityTable.hits, decide_eq_true hid, decide_eq_true (hrs r hr).2]
      rfl

theorem holdsValues_of_holds (h : Writes entity config) (hholds : ∀ r ∈ rs, Holds config r) :
    ∀ row ∈ rs.map (EntityRecord.toRow (getEntity entity)), holdsValues config row := by
  intro row hrow
  obtain ⟨r, hr, rfl⟩ := List.mem_map.mp hrow
  exact (holdsValues_iff h r).mpr (hholds r hr)

theorem toWrite_of_holds (h : Writes entity config) (hholds : ∀ r ∈ rs, Holds config r) :
    toWrite config (rs.map (EntityRecord.toRow (getEntity entity))) = [] := by
  have hall := holdsValues_of_holds h hholds
  rw [toWrite, List.filter_eq_nil_iff.mpr (fun row hrow => by simp [hall row hrow])]
  rfl

/-- An update of rows that hold the values already sends no statement. -/
theorem taken_of_holds (h : Writes entity config) (hholds : ∀ r ∈ rs, Holds config r) :
    taken (getEntity entity) config accountId now
        (rs.map (EntityRecord.toRow (getEntity entity))) t =
      (⟨rs.map (fun r => noChange (r.toRow (getEntity entity)))⟩, t) := by
  have hnone := toWrite_of_holds h hholds
  simp only [taken, hnone, List.isEmpty_nil, if_true]
  rw [execute, hnone, List.filter_eq_self.mpr (holdsValues_of_holds h hholds), List.map_map]
  simp [Function.comp_def]

/-- The rows that a table has under the ids of some rows. -/
def reloaded (t' : EntityTable) (rs : List EntityRecord) : List EntityRecord :=
  t'.select (fun r => r.id ∈ rs.map EntityRecord.id)

theorem mem_reloaded {t' : EntityTable} {r : EntityRecord} :
    r ∈ reloaded t' rs ↔ r ∈ t'.rows ∧ ∃ s ∈ rs, s.id = r.id := by
  rw [reloaded, EntityTable.mem_select, decide_eq_true_eq, List.mem_map]

/-- The time of an update is one its column can hold. -/
theorem stamped_admits (entity : EntityType) (now : Timestamp) (values : List (String × Value)) :
    (getEntity entity).admits (Config.stamped (getEntity entity) now values) =
      (getEntity entity).admits values := by
  have hstamp : (getEntity entity).admits [("updated_at", .time now)] := by
    cases entity <;> rfl
  unfold EntityDescriptor.admits at hstamp ⊢
  unfold Config.stamped
  split_ifs
  · rw [List.all_append, hstamp, Bool.and_true]
  · rw [List.append_nil]

/-- An UPDATE is taken when its values are, and when it hits no row. -/
theorem run_of_admits (rows : List EntityRow)
    (h : toWrite config rows = [] ∨ (getEntity entity).admits config.updates) :
    run (getEntity entity) config accountId now rows t =
      some (taken (getEntity entity) config accountId now rows t) := by
  rw [run, stamped_admits]
  refine if_pos ?_
  rcases h with hnone | hadmits
  · have hmiss : t.affected accountId [] = [] := by
      simp [EntityTable.affected, EntityTable.select, EntityTable.hits]
    rw [hnone, hmiss]
    rfl
  · rw [hadmits, Bool.or_true]

/-- A value that its column cannot hold is not there yet, so that the first given row would be
written. -/
theorem run_refused (h : Writes entity config) (ht : t.Admitted (getEntity entity))
    (hrs : Given accountId t rs) (hne : rs ≠ [])
    (hbad : ¬ (getEntity entity).admits config.updates) :
    run (getEntity entity) config accountId now (rs.map (EntityRecord.toRow (getEntity entity)))
      t = none := by
  obtain ⟨r, rs', rfl⟩ := List.exists_cons_of_ne_nil hne
  have hrow := (hrs r List.mem_cons_self).1
  have hdiffers : ¬ Holds config r := by
    intro hholds
    refine hbad (List.all_eq_true.mpr (fun u hu => ?_))
    obtain ⟨c, hc⟩ := Option.isSome_iff_exists.mp (updatable_declared entity u.1 (h.fields u hu))
    rw [hc, Option.any_some, ← hholds u hu, ← (column_eq_some hc).2]
    exact ht r hrow c (column_eq_some hc).1
  have haffected : r.id ∈ t.affected accountId
      (toWrite config ((r :: rs').map (EntityRecord.toRow (getEntity entity)))) :=
    List.mem_map_of_mem (EntityTable.mem_select.mpr
      ⟨hrow, (hits_iff h hrs hrow).mpr ⟨List.mem_cons_self, hdiffers⟩⟩)
  rw [run, stamped_admits]
  refine if_neg ?_
  rw [Bool.or_eq_true, not_or, List.isEmpty_iff]
  exact ⟨List.ne_nil_of_mem haffected, hbad⟩

/-- `execute` writes what its outcomes say, to the given rows alone, and once more over the same
rows nothing at all. -/
def ExactIdempotent (entity : EntityType) (config : BulkUpdateConfig) (accountId : Uuid)
    (t : EntityTable) (rs : List EntityRecord) (now now' : Timestamp) : Prop :=
  let e := getEntity entity
  ∃ done, run e config accountId now (rs.map (EntityRecord.toRow e)) t = some done ∧
    Updates entity config t rs done.1 done.2 ∧
    (∀ r ∈ rs, ∃ r' ∈ reloaded done.2 rs, r'.id = r.id) ∧
    run e config accountId now' ((reloaded done.2 rs).map (EntityRecord.toRow e)) done.2 =
      some (⟨(reloaded done.2 rs).map (fun r => noChange (r.toRow e))⟩, done.2)

theorem taken_exact_idempotent (h : Writes entity config) (hrs : Given accountId t rs)
    (hadmits : rs = [] ∨ (getEntity entity).admits config.updates) (now now' : Timestamp) :
    ExactIdempotent entity config accountId t rs now now' := by
  have hdone := @taken_updates _ _ _ now _ _ h hrs
  have hholds : ∀ r ∈ reloaded (taken (getEntity entity) config accountId now
      (rs.map (EntityRecord.toRow (getEntity entity))) t).2 rs, Holds config r := by
    intro r hr
    obtain ⟨hrow, s, hs, hsid⟩ := mem_reloaded.mp hr
    obtain ⟨r', hr', hid', hholds, _⟩ := hdone.given s hs
    rw [EntityTable.eq_of_id hrow hr' (hsid.symm.trans hid'.symm)]
    exact hholds
  refine ⟨_, run_of_admits _ (hadmits.imp_left (fun hnil => by rw [hnil]; rfl)), hdone,
    fun r hr => ?_, ?_⟩
  · obtain ⟨r', hr', hid, _⟩ := hdone.given r hr
    exact ⟨r', mem_reloaded.mpr ⟨hr', r, hr, hid.symm⟩, hid⟩
  · rw [run_of_admits _ (Or.inl (toWrite_of_holds h hholds)), taken_of_holds h hholds]

/-- The update statement does what its outcomes say, to the given rows alone, and a second run
over the same rows changes nothing, exactly when no row is given or the columns can hold the
requested values: among accepted updates, when no null is requested of a field that is not
nullable. -/
theorem update_exact_idempotent_iff (h : Writes entity config) (ht : t.Admitted (getEntity entity))
    (hrs : Given accountId t rs) (now now' : Timestamp) :
    (ExactIdempotent entity config accountId t rs now now' ↔
        rs = [] ∨ (getEntity entity).admits config.updates) ∧
      ∀ (text : PyText) (py : Pydantic) (sent : List (String × Json)),
        (getEntity entity).validateUpdates text py sent = .ok config.updates →
          ((getEntity entity).admits config.updates ↔
            ∀ f ∈ (getEntity entity).updatableFields, sent.lookup f.1 = some .null →
              f.2.nullable) := by
  refine ⟨⟨?_, fun hadmits => taken_exact_idempotent h hrs hadmits now now'⟩,
    fun text py sent hsent => validateUpdates_admits_iff (getEntity_fieldsFit entity) hsent⟩
  rintro ⟨done, hdone, _⟩
  by_contra hbad
  rw [not_or] at hbad
  rw [run_refused h ht hrs hbad.1 hbad.2] at hdone
  cases hdone

end Run

/-- What `load_batch_rows` hands to a handler are such rows of its account. -/
theorem given_loadRows (a : EntityAction) (batch : BulkActionBatch) (t : EntityTable) :
    ∃ rs, a.loadRows batch t = rs.map (EntityRecord.toRow a.entity) ∧ Given a.accountId t rs := by
  refine ⟨_, rfl, fun r hr => ?_⟩
  obtain ⟨hrow, hwhere⟩ := EntityTable.mem_select.mp hr
  exact ⟨hrow, EntityAction.account_of_batchWhere hwhere⟩

/-- Contact 5, with all that its columns ask for. -/
def oneContact : EntityTable where
  rows := [{ id := 5, accountId := 1, cols := fun name =>
    if name = "age" ∨ name = "deleted_at" then .null
    else if name = "created_at" ∨ name = "updated_at" then .time 0
    else .str "active" }]
  sorted := List.pairwise_singleton _ _

theorem oneContact_admitted : oneContact.Admitted contactEntity := by
  intro r hr
  cases List.mem_singleton.mp hr
  decide

def deactivation : BulkUpdateConfig := ⟨[("status", .str "inactive")], none, some [5], none⟩

theorem deactivation_writes : Writes .contact deactivation where
  nonempty := by simp [deactivation]
  fields := by decide
  nodup := by simp [deactivation]

theorem update_exact_idempotent_loaded :
    ∃ rs, deactivateNamed.loadRows contactFive oneContact =
        rs.map (EntityRecord.toRow contactEntity) ∧ rs.length = 1 ∧
      ExactIdempotent .contact deactivation 1 oneContact rs 3 4 := by
  obtain ⟨rs, hload, hrs⟩ := given_loadRows deactivateNamed contactFive oneContact
  have hlength : rs.length = 1 := by
    have hmap := congrArg List.length hload
    rw [List.length_map] at hmap
    exact hmap.symm.trans (by decide)
  exact ⟨rs, hload, hlength, (update_exact_idempotent_iff deactivation_writes
    oneContact_admitted hrs 3 4).1.mpr (Or.inr (by decide))⟩

/-- A null for the name of a contact is accepted, and the UPDATE is refused. -/
theorem null_name_refused :
    ¬ ∀ (text : PyText) (py : Pydantic) (entity : EntityType) (sent : List (String × Json))
      (config : BulkUpdateConfig) (accountId : Uuid) (t : EntityTable) (rs : List EntityRecord)
      (now now' : Timestamp),
      (getEntity entity).validateUpdates text py sent = .ok config.updates →
      Writes entity config → t.Admitted (getEntity entity) → Given accountId t rs →
      ExactIdempotent entity config accountId t rs now now' := by
  intro always
  have hwrites : Writes .contact ⟨[("name", .null)], none, some [5], none⟩ :=
    ⟨by simp, by decide, by simp⟩
  have hgiven : Given 1 oneContact oneContact.rows := fun r hr => by
    cases List.mem_singleton.mp hr
    exact ⟨hr, rfl⟩
  obtain ⟨done, hdone, _⟩ := always asciiText plainPydantic .contact [("name", .null)] _ 1
    oneContact oneContact.rows 3 4 rfl hwrites oneContact_admitted hgiven
  have hrefused : run contactEntity ⟨[("name", .null)], none, some [5], none⟩ 1 3
      (oneContact.rows.map (EntityRecord.toRow contactEntity)) oneContact = none := by
    decide
  rw [show getEntity .contact = contactEntity from rfl, hrefused] at hdone
  cases hdone

end BulkUpdateAction

end BulkActions
