import BulkActions.OneShot
import BulkActions.UpdateStatement

namespace BulkActions

/-- The action is one of a registered entity, and an update gives some of its writable fields
values that their columns can hold, so that no statement of it is refused. -/
structure FilterAction.Registered (a : FilterAction) (entityType : EntityType) : Prop where
  entity : a.entity = getEntity entityType
  updates : ∀ c, a.config = .update c → BulkUpdateAction.Writes entityType c
  admitted : ∀ c, a.config = .update c → (getEntity entityType).admits c.updates

/-- The same action, submitted with another batch size. -/
def FilterAction.resized (a : FilterAction) (batchSize : Nat) (positive : 1 ≤ batchSize) :
    FilterAction :=
  { a with batchSize := batchSize, positive := positive }

section Settled

variable {a : FilterAction} {entityType : EntityType} {now : Timestamp} {r r' : EntityRecord}
  {t : EntityTable}

theorem selectionClause_notDeleted {text : PyText} {e : EntityDescriptor} {accountId : Uuid}
    {filters : Option Filter} {includeDeleted : Bool} {clause : SelectionClause}
    (h : selectionClause text e accountId filters includeDeleted = .ok clause) :
    clause.notDeleted = if includeDeleted then none else e.softDeleteColumn := by
  unfold selectionClause at h
  cases hp : buildPredicates text e filters with
  | error err =>
    rw [hp] at h
    cases h
  | ok predicates =>
    rw [hp] at h
    rw [← Except.ok.inj h]

/-- Both handlers select live rows. -/
theorem clause_notDeleted (a : FilterAction) : a.clause.notDeleted = a.entity.softDeleteColumn := by
  have hlive : a.config.includeDeleted = false := by cases a.config <;> rfl
  rw [selectionClause_notDeleted a.compiled, hlive]
  rfl

theorem softDeleteColumn_ne : ∀ (entityType : EntityType) (column : String),
    (getEntity entityType).softDeleteColumn = some column → column ≠ "updated_at"
  | .contact, _, h => by cases h; decide
  | .company, _, h => by cases h; decide

/-- A row that has been deleted softly has left the target set. -/
theorem deleted_misses (h : a.Registered entityType) {c : BulkDeleteConfig}
    (hconfig : a.config = .delete c) (hwrite : a.config.write a.entity now r = some r') :
    ¬ a.clause.holds a.sql r' := by
  rw [hconfig, Config.write] at hwrite
  cases hcolumn : a.entity.softDeleteColumn with
  | none => simp [hcolumn] at hwrite
  | some column =>
    simp only [hcolumn] at hwrite
    split_ifs at hwrite
    cases Option.some.inj hwrite
    have hname := softDeleteColumn_ne entityType column (h.entity ▸ hcolumn)
    have hnodup : ((Config.stamped a.entity now [(column, .time now)]).map Prod.fst).Nodup := by
      unfold Config.stamped
      split_ifs <;> simp [hname]
    have hset : (r.assign (Config.stamped a.entity now [(column, .time now)])).cols column =
        .time now :=
      EntityRecord.assign_cols hnodup (List.mem_append_left _ (List.mem_singleton.mpr rfl))
    simp [SelectionClause.holds, clause_notDeleted, hcolumn, hset]

/-- What the action has made of a row, it does not change again. -/
theorem written_settled (h : a.Registered entityType)
    (hwrite : a.config.write a.entity now r = some r') (hholds : a.clause.holds a.sql r') :
    a.config.changes a.entity r' = false := by
  cases hconfig : a.config with
  | update c =>
    rw [hconfig] at hwrite
    cases Option.some.inj hwrite
    have hwrites := h.updates c hconfig
    have hheld := (BulkUpdateAction.holdsValues_iff hwrites _).mpr
      (@BulkUpdateAction.rewritten_holds _ _ now hwrites r)
    rw [Config.changes, h.entity]
    exact congrArg (fun held => !held) hheld
  | delete c => exact absurd hholds (deleted_misses h hconfig hwrite)

/-- After the action, its target set holds rows only that it leaves alone. -/
theorem target_settled (h : a.Registered entityType) {stamp : Uuid → Timestamp} {t' : EntityTable}
    (happlied : t'.rows = a.applyOnce stamp t) :
    ∀ r' ∈ a.target t', a.config.changes a.entity r' = false := by
  intro r' hr'
  obtain ⟨hrow, hholds⟩ := FilterAction.mem_target.mp hr'
  rw [happlied, FilterAction.applyOnce, List.mem_filterMap] at hrow
  obtain ⟨r, _, hmade⟩ := hrow
  split_ifs at hmade with htarget
  · unfold Config.apply at hmade
    split_ifs at hmade with hchanges
    · exact written_settled h hmade hholds
    · cases Option.some.inj hmade
      simpa using hchanges
  · cases Option.some.inj hmade
    exact absurd hholds htarget

/-- A run over such a table writes nothing. -/
theorem settled_table (hsettled : ∀ r ∈ a.target t, a.config.changes a.entity r = false)
    {progress : Uuid → Option Timestamp} {w : Walk} (hf : w.Follows a t progress) :
    w.table.rows = t.rows := by
  rw [hf.table]
  refine (List.filterMap_congr (fun r hr => ?_)).trans List.filterMap_some
  cases hp : progress r.id with
  | none => rfl
  | some now =>
    have htarget := hf.within r hr (by simp [hp])
    simp [Config.apply, hsettled r htarget]

theorem settled_counts (hsettled : ∀ r ∈ a.target t, a.config.changes a.entity r = false)
    {progress : Uuid → Option Timestamp} {w : Walk} (hf : w.Follows a t progress)
    (fin : w.Finished) :
    w.count .success = 0 ∧ w.count .failed = 0 ∧ w.count .skipped = w.totalEntities := by
  have hnone : (a.target t).countP (a.config.changes a.entity) = 0 :=
    List.countP_eq_zero.mpr (fun r hr => by simp [hsettled r hr])
  have hall : (a.target t).countP (fun r => !a.config.changes a.entity r) =
      (a.target t).length :=
    List.countP_eq_length.mpr (fun r hr => by simp [hsettled r hr])
  rw [finished_count hf fin, finished_count hf fin, finished_count hf fin,
    finished_totalEntities hf fin]
  simp [hnone, hall]

/-- An action without a de-duplication key, none of whose statements is refused, that is submitted
again once it has run, in batches of whatever size, writes nothing to the table at any point of its
second run, and in the end it reports every entity it has selected as unchanged. -/
theorem rerun_changes_nothing {w w' : Walk} (h : a.Registered entityType)
    (noDedup : a.config.activeDedup = none) (hfirst : Walk.Reaches a (.start a t) w)
    (fin : w.Finished) {batchSize : Nat} (positive : 1 ≤ batchSize)
    (hsecond : Walk.Reaches (a.resized batchSize positive)
      (.start (a.resized batchSize positive) w.table) w') :
    w'.table.rows = w.table.rows ∧
      (w'.Finished → w'.count .success = 0 ∧ w'.count .failed = 0 ∧
        w'.count .skipped = w'.totalEntities) := by
  obtain ⟨progress, hf⟩ := follows_reaches noDedup hfirst
  have hsettled : ∀ r ∈ (a.resized batchSize positive).target w.table,
      a.config.changes a.entity r = false := target_settled h (finished_table hf fin)
  obtain ⟨progress', hf'⟩ := follows_reaches (a := a.resized batchSize positive) noDedup hsecond
  exact ⟨settled_table hsettled hf', settled_counts hsettled hf'⟩

end Settled

/-- The second run takes the two contacts the first one has deactivated for what they are, and
none is left to select. -/
theorem rerun_changes_nothing_contacts :
    ∃ w w', Walk.Reaches deactivateOneByOne (.start deactivateOneByOne threeContacts) w ∧
      w.Finished ∧ w.count .success = 2 ∧
      Walk.Reaches (deactivateOneByOne.resized 10 (by decide))
        (.start (deactivateOneByOne.resized 10 (by decide)) w.table) w' ∧
      w'.Finished ∧ w'.table.rows = w.table.rows ∧ w'.count .success = 0 := by
  let labels : List WalkLabel :=
    [.plan, .load 0, .write 0 3, .plan, .plan, .load 1, .write 1 4]
  obtain ⟨w, w', hs, hsource, hdone, hcount, hs', hsource', hdone'⟩ : ∃ w w',
      Runs.steps (Walk.step deactivateOneByOne) (.start deactivateOneByOne threeContacts) labels =
        some w ∧ w.source = none ∧ w.batches.map (fun b => b.phase.isDone) = [true, true] ∧
      w.count .success = 2 ∧
      Runs.steps (Walk.step (deactivateOneByOne.resized 10 (by decide)))
        (.start (deactivateOneByOne.resized 10 (by decide)) w.table) [.plan] = some w' ∧
      w'.source = none ∧ w'.batches = [] :=
    ⟨_, _, rfl, rfl, rfl, rfl, rfl, rfl, rfl⟩
  have fin : w.Finished := by
    refine ⟨hsource, fun b hb => ?_⟩
    have hmem : b.phase.isDone ∈ w.batches.map (fun b => b.phase.isDone) := List.mem_map_of_mem hb
    rw [hdone] at hmem
    simpa using hmem
  have fin' : w'.Finished := ⟨hsource', fun b hb => by simp [hdone'] at hb⟩
  have hregistered : deactivateOneByOne.Registered .contact := by
    refine ⟨rfl, fun c hc => ?_, fun c hc => ?_⟩
    · cases hc
      exact ⟨by simp, by decide, by decide⟩
    · cases hc
      decide
  have hr : Walk.Reaches deactivateOneByOne (.start deactivateOneByOne threeContacts) w :=
    Runs.reaches_of_steps hs
  have hr' : Walk.Reaches (deactivateOneByOne.resized 10 (by decide))
      (.start (deactivateOneByOne.resized 10 (by decide)) w.table) w' := Runs.reaches_of_steps hs'
  obtain ⟨htable, hcounts⟩ := rerun_changes_nothing hregistered rfl hr fin (by decide) hr'
  exact ⟨w, w', hr, fin, hcount, hr', fin', htable, (hcounts fin').1⟩

end BulkActions
