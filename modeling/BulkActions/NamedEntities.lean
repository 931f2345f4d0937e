import BulkActions.ExplicitIds
import BulkActions.TenantIsolation

namespace BulkActions

theorem logRows_bearing (seq index : Nat) (r : BatchResult) (id : Option Uuid) :
    (World.logRows seq index r.outcomes).countP (fun l => l.entityId = id) = r.bearing id := by
  have hids : (World.logRows seq index r.outcomes).map BulkActionLog.entityId =
      r.outcomes.map EntityOutcome.entityId := by
    apply List.ext_getElem
    · simp [World.logRows]
    · intro k h h'
      simp [World.logRows, outcomeLog]
  rw [bearing_eq_count, ← hids, List.count, List.countP_map]
  exact List.countP_congr (fun l _ => by simp)

/-- The logs of a batch name each of its ids once, an id that loads no row as not found. -/
structure Traces (ids : List Uuid) (rows : List EntityRow) (logs : List BulkActionLog) : Prop where
  once : ∀ id ∈ ids, logs.countP (fun l => l.entityId = some id) = 1
  missing : ∀ id ∈ ids, (∀ row ∈ rows, row.id ≠ id) → ∃ l ∈ logs, l.entityId = some id ∧
    l.status = .failed ∧ l.reasonCode = some LogReason.entityNotFound.value

namespace EntityAction

variable {a : EntityAction} {batch : BulkActionBatch} {ids : List Uuid} {t : EntityTable}

/-- The log rows that `run_batch` writes when its INSERT and its UPDATE return these. -/
def logRows (a : EntityAction) (seq : Nat) (batch : BulkActionBatch) (claimed : List String)
    (affected : List Uuid) (t : EntityTable) : List BulkActionLog :=
  World.logRows seq batch.batchIndex (BulkActions.runBatch a.text a.config batch.entityCount
    (a.loadRows batch t) claimed affected).outcomes

/-- The ids of a list that load a row are those of live rows of the account. -/
theorem mem_loadRows_named (hids : batch.entityIds = some ids) {id : Uuid} (hid : id ∈ ids) :
    id ∈ (a.loadRows batch t).map EntityRow.id ↔
      ∃ r ∈ t.rows, r.id = id ∧ r.accountId = a.accountId ∧ a.entity.live r := by
  have hlive : a.config.includeDeleted = false := by cases a.config <;> rfl
  rw [loadRows, EntityTable.loadBatchRows, batchWhere_named hids (List.ne_nil_of_mem hid),
    List.map_map, List.mem_map]
  simp only [EntityTable.mem_select, EntityTable.namedWhere, hlive, Bool.false_or,
    Bool.and_eq_true, decide_eq_true_eq, Function.comp_apply, EntityRecord.toRow_id]
  constructor
  · rintro ⟨r, ⟨hr, ⟨_, haccount⟩, hlive⟩, rfl⟩
    exact ⟨r, hr, rfl, haccount, hlive⟩
  · rintro ⟨r, hr, rfl, haccount, hlive⟩
    exact ⟨r, ⟨hr, ⟨hid, haccount⟩, hlive⟩, rfl⟩

/-- An id is named as often as it is loaded. -/
theorem logRows_naming (seq : Nat) (claimed : List String) (affected : List Uuid) (id : Uuid) :
    (a.logRows seq batch claimed affected t).countP (fun l => l.entityId = some id) =
      ((a.loadRows batch t).map EntityRow.id).count id := by
  rw [logRows, logRows_bearing, runBatch_bearing]

end EntityAction

/-- A batch of an explicit selection can be traced by its ids exactly when each of them names a
live row of the account. -/
theorem named_entities_traced_iff {a : EntityAction} {entityIds : List Uuid} {batchSize : Nat}
    {b : PlannedBatch} {batch : BulkActionBatch} (hb : 1 ≤ batchSize)
    (hplan : b ∈ planFromIds entityIds batchSize) (hids : batch.entityIds = b.entityIds)
    (seq : Nat) (claimed : List String) (affected : List Uuid) (t : EntityTable) :
    Traces b.ids (a.loadRows batch t) (a.logRows seq batch claimed affected t) ↔
      ∀ id ∈ b.ids, ∃ r ∈ t.rows, r.id = id ∧ r.accountId = a.accountId ∧ a.entity.live r := by
  have hsome : batch.entityIds = some b.ids :=
    hids.trans ((planFromIds_partitions entityIds hb).named b hplan).1
  have hnodup : ((a.loadRows batch t).map EntityRow.id).Nodup := nodup_loadBatchRows ..
  constructor
  · intro htraces id hid
    have honce := htraces.once id hid
    rw [EntityAction.logRows_naming] at honce
    have hloaded : id ∈ (a.loadRows batch t).map EntityRow.id :=
      List.count_pos_iff.mp (by omega)
    exact (EntityAction.mem_loadRows_named hsome hid).mp hloaded
  · intro hall
    have hloaded : ∀ id ∈ b.ids, id ∈ (a.loadRows batch t).map EntityRow.id :=
      fun id hid => (EntityAction.mem_loadRows_named hsome hid).mpr (hall id hid)
    refine ⟨fun id hid => ?_, fun id hid hmissing => ?_⟩
    · rw [EntityAction.logRows_naming]
      exact List.count_eq_one_of_mem hnodup (hloaded id hid)
    · obtain ⟨row, hrow, rfl⟩ := List.mem_map.mp (hloaded id hid)
      exact absurd rfl (hmissing row hrow)

/-- The batch of a selection that fits into one. -/
theorem planFromIds_one {x y : Uuid} (h : x < y) :
    plannedChunk 0 [x, y] ∈ planFromIds [x, y] 10 := by
  have hdistinct : [x, y].eraseDups = [x, y] := by
    simp [List.eraseDups_cons, (Nat.ne_of_lt h).symm]
  rw [planFromIds_eq, chunkCount, hdistinct]
  exact List.mem_map.mpr ⟨0, by simp, rfl⟩

theorem named_entities_traced_two :
    Traces (plannedChunk 0 [5, 7]).ids
        (deleteNamed.loadRows (plannedRow (plannedChunk 0 [5, 7])) threeContacts)
        (deleteNamed.logRows 1 (plannedRow (plannedChunk 0 [5, 7])) [] [5, 7] threeContacts) ↔
      ∀ id ∈ (plannedChunk 0 [5, 7]).ids,
        ∃ r ∈ threeContacts.rows, r.id = id ∧ r.accountId = 1 ∧ contactEntity.live r :=
  @named_entities_traced_iff deleteNamed [5, 7] 10 (plannedChunk 0 [5, 7])
    (plannedRow (plannedChunk 0 [5, 7])) (by decide) (planFromIds_one (by decide)) rfl 1 [] [5, 7]
    threeContacts

/-- Contact 8 of another account is named by no log row. -/
theorem named_entity_untraced :
    ¬ ∀ (a : EntityAction) (entityIds : List Uuid) (batchSize : Nat) (b : PlannedBatch)
      (seq : Nat) (claimed : List String) (affected : List Uuid) (t : EntityTable),
      a.config.explicitIds = some entityIds → 1 ≤ batchSize →
      b ∈ planFromIds entityIds batchSize →
      Traces b.ids (a.loadRows (plannedRow b) t)
        (a.logRows seq (plannedRow b) claimed affected t) := by
  intro always
  have htraces := always deleteNamed [5, 8] 10 (plannedChunk 0 [5, 8]) 1 [] [5] twoAccounts rfl
    (by decide) (planFromIds_one (by decide))
  have hmem : 8 ∈ (plannedChunk 0 [5, 8]).ids := (plannedChunk_ids_perm 0 _).mem_iff.mpr (by simp)
  have honce := htraces.once 8 hmem
  rw [EntityAction.logRows_naming] at honce
  have hloaded : 8 ∈ (deleteNamed.loadRows (plannedRow (plannedChunk 0 [5, 8])) twoAccounts).map
      EntityRow.id := List.count_pos_iff.mp (by omega)
  obtain ⟨r, hr, hid, haccount, _⟩ := (EntityAction.mem_loadRows_named rfl hmem).mp hloaded
  have hothers : ∀ r ∈ twoAccounts.rows, r.id = 8 → r.accountId = 2 := by decide
  rw [hothers r hr hid] at haccount
  cases haccount

end BulkActions
