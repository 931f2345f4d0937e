import BulkActions.KeysetWalk
import BulkActions.System

namespace BulkActions

open Keyset

/-- Where the execution of an emitted batch stands. -/
inductive BatchPhase where
  | planned
  | loaded (rows : List EntityRow)
  | done (rows : List EntityRow) (result : BatchResult)

structure BatchRun where
  row : BulkActionBatch
  phase : BatchPhase

/-- The planner's walk next to the execution of the batches it has emitted; `source` is
`none` once the generator has returned. -/
structure Walk where
  table : EntityTable
  source : Option PlanSource
  batches : List BatchRun

inductive WalkLabel where
  /-- the planner resumes the generator -/
  | plan
  /-- batch `i` loads its rows -/
  | load (i : Nat)
  /-- batch `i` executes the handler and commits -/
  | write (i : Nat) (now : Timestamp)

namespace Walk

def start (a : FilterAction) (t : EntityTable) : Walk :=
  ⟨t, some (.start a.config a.batchSize), []⟩

def step (a : FilterAction) (w : Walk) : WalkLabel → Option Walk
  | .plan =>
    match w.source with
    | none => none
    | some source =>
      match source.next a.batchSize (a.readPage w.table source) with
      | none => some { w with source := none }
      | some (planned, next) =>
        some { w with
          source := some next
          batches := w.batches ++ [⟨plannedRow planned, .planned⟩] }
  | .load i =>
    match w.batches[i]? with
    | some ⟨row, .planned⟩ =>
      some { w with batches := w.batches.set i ⟨row, .loaded (a.load w.table row)⟩ }
    | _ => none
  | .write i now =>
    match w.batches[i]? with
    | some ⟨row, .loaded rows⟩ =>
      let ids := a.config.targets (executedRows a.text a.config rows [])
      some { w with
        table := w.table.write a.entity a.config a.accountId now ids
        batches := w.batches.set i ⟨row, .done rows (runBatch a.text a.config row.entityCount
          rows [] (w.table.affected a.accountId ids))⟩ }
    | _ => none

def Reaches (a : FilterAction) : Walk → Walk → Prop :=
  Runs.Reaches (step a) Runs.anyStep

end Walk

def BatchPhase.rows : BatchPhase → List EntityRow
  | planned => []
  | loaded rows => rows
  | done rows _ => rows

def BatchPhase.count (s : EntityLogStatus) : BatchPhase → Nat
  | done _ result => result.count s
  | _ => 0

def BatchPhase.isDone : BatchPhase → Bool
  | done _ _ => true
  | _ => false

namespace Walk

/-- The generator has returned and every batch has committed. -/
def Finished (w : Walk) : Prop :=
  w.source = none ∧ ∀ b ∈ w.batches, b.phase.isDone

/-- Batch `i` has loaded the entity. -/
def Loads (w : Walk) (i : Nat) (id : Uuid) : Prop :=
  ∃ b : BatchRun, w.batches[i]? = some b ∧ ∃ row ∈ b.phase.rows, row.id = id

def totalEntities (w : Walk) : Nat :=
  (w.batches.map (fun b => b.row.entityCount)).sum

def count (s : EntityLogStatus) (w : Walk) : Nat :=
  (w.batches.map (fun b => b.phase.count s)).sum

end Walk

/-- The action applied once to every row of the target set, `stamp` giving the time that is
written to each. -/
def FilterAction.applyOnce (a : FilterAction) (stamp : Uuid → Timestamp) (t : EntityTable) :
    List EntityRecord :=
  t.rows.filterMap (fun r =>
    if a.clause.holds a.sql r then a.config.apply a.entity (stamp r.id) r else some r)

/-- What `execute` leaves of the table when one call gets the whole target set. -/
theorem applyOnce_eq_write (a : FilterAction) (t : EntityTable) (now : Timestamp) :
    a.applyOnce (fun _ => now) t = (t.write a.entity a.config a.accountId now
      (a.config.targets ((a.target t).map (EntityRecord.toRow a.entity)))).rows := by
  rw [FilterAction.applyOnce, EntityTable.write_rows, Config.targets_toRow]
  refine List.filterMap_congr (fun r hr => ?_)
  have hmem : r.id ∈ ((a.target t).filter (a.config.changes a.entity)).map EntityRecord.id ↔
      r ∈ (a.target t).filter (a.config.changes a.entity) :=
    EntityTable.mem_ids (fun s hs => (FilterAction.mem_target.mp (List.mem_filter.mp hs).1).1) hr
  simp only [EntityTable.hits, hmem, List.mem_filter, FilterAction.mem_target, hr, true_and]
  by_cases hholds : a.clause.holds a.sql r
  · simp [hholds, FilterAction.account_of_holds hholds, Config.apply]
  · simp [hholds]

/-- What a batch of the page `i` has to show for itself. -/
def BatchPhase.Expected (a : FilterAction) (t : EntityTable) (i : Nat) : BatchPhase → Prop
  | planned => True
  | loaded rows => rows = (a.page t i).map (EntityRecord.toRow a.entity)
  | done rows result => rows = (a.page t i).map (EntityRecord.toRow a.entity) ∧
    ∀ s, result.count s =
      (if .skipped = s then (a.page t i).countP (fun r => !a.config.changes a.entity r) else 0) +
        if .success = s then (a.page t i).countP (a.config.changes a.entity) else 0

/-- The walk has emitted the first pages of the initial target set, and the table is the
initial one with the pages of the committed batches processed. -/
structure Walk.Follows (a : FilterAction) (t : EntityTable) (progress : Uuid → Option Timestamp)
    (w : Walk) : Prop where
  table : a.Progressed progress t w.table
  progress : ∀ r ∈ t.rows, progress r.id ≠ none ↔
    ∃ (i : Nat) (b : BatchRun), w.batches[i]? = some b ∧ b.phase.isDone ∧ r ∈ a.page t i
  source : ∀ s, w.source = some s → s = a.sourceAt t w.batches.length
  covered : w.source = none → (a.target t).length ≤ w.batches.length * a.batchSize
  batches : ∀ (i : Nat) (b : BatchRun), w.batches[i]? = some b →
    b.row = a.pageRow t i ∧ b.phase.Expected a t i

theorem runBatch_noDedup {text : PyText} {config : Config} (noDedup : config.activeDedup = none)
    (rows : List EntityRow) (affected : List Uuid) :
    runBatch text config rows.length rows [] affected = config.execute rows affected := by
  simp [runBatch, duplicateOutcomes, executedRows, noDedup]

theorem getElem?_set_cases {α : Type} {xs : List α} {i j : Nat} {x y : α}
    (h : (xs.set i x)[j]? = some y) : (j = i ∧ y = x) ∨ (j ≠ i ∧ xs[j]? = some y) := by
  rw [List.getElem?_set] at h
  split_ifs at h with hij hlt
  · exact Or.inl ⟨hij.symm, (Option.some.inj h).symm⟩
  · exact Or.inr ⟨fun hji => hij hji.symm, h⟩

theorem getElem?_concat_cases {α : Type} {xs : List α} {j : Nat} {x y : α}
    (h : (xs ++ [x])[j]? = some y) : (j = xs.length ∧ y = x) ∨ xs[j]? = some y := by
  rw [List.getElem?_append] at h
  split_ifs at h with hlt
  · exact Or.inr h
  · obtain ⟨hj, hy⟩ := List.getElem?_eq_some_iff.mp h
    simp only [List.length_singleton] at hj
    refine Or.inl ⟨by omega, ?_⟩
    simpa using hy.symm

namespace Walk.Follows

variable {a : FilterAction} {t : EntityTable} {progress : Uuid → Option Timestamp} {w : Walk}

theorem behind (h : w.Follows a t progress) :
    ∀ r ∈ t.rows, progress r.id ≠ none → ∃ j < w.batches.length, r ∈ a.page t j := by
  intro r hr hne
  obtain ⟨j, b, hb, _, hmem⟩ := (h.progress r hr).mp hne
  exact ⟨j, (List.getElem?_eq_some_iff.mp hb).1, hmem⟩

theorem within (h : w.Follows a t progress) :
    ∀ r ∈ t.rows, progress r.id ≠ none → r ∈ a.target t := by
  intro r hr hne
  obtain ⟨j, _, hmem⟩ := h.behind r hr hne
  exact FilterAction.mem_target_of_page hmem

/-- The page of a batch that has not committed is untouched. -/
theorem untouched (h : w.Follows a t progress) {i : Nat} {b : BatchRun}
    (hb : w.batches[i]? = some b) (hdone : b.phase.isDone = false) :
    ∀ r ∈ a.page t i, progress r.id = none := by
  intro r hr
  have hrow := (FilterAction.mem_target.mp (FilterAction.mem_target_of_page hr)).1
  by_contra hne
  obtain ⟨j, b', hb', hdone', hmem⟩ := (h.progress r hrow).mp hne
  cases FilterAction.page_unique hmem hr
  cases Option.some.inj (hb.symm.trans hb')
  exact absurd hdone' (by simp [hdone])

theorem plan (h : w.Follows a t progress) {w' : Walk} (hw : w.step a .plan = some w') :
    w'.Follows a t progress := by
  simp only [step] at hw
  cases hs : w.source with
  | none => simp [hs] at hw
  | some source =>
    simp only [hs] at hw
    rw [h.source source hs, FilterAction.next_sourceAt h.table h.behind] at hw
    split_ifs at hw with hmore
    · cases Option.some.inj hw
      refine ⟨h.table, ?_, ?_, by simp, ?_⟩
      · intro r hr
        rw [h.progress r hr]
        constructor
        · rintro ⟨i, b, hb, hdone, hmem⟩
          have hlt := (List.getElem?_eq_some_iff.mp hb).1
          exact ⟨i, b, (List.getElem?_append_left hlt).trans hb, hdone, hmem⟩
        · rintro ⟨i, b, hb, hdone, hmem⟩
          rcases getElem?_concat_cases hb with ⟨_, rfl⟩ | hb
          · cases hdone
          · exact ⟨i, b, hb, hdone, hmem⟩
      · intro s hs'
        rw [← Option.some.inj hs', List.length_append, List.length_singleton]
      · intro i b hb
        rcases getElem?_concat_cases hb with ⟨rfl, rfl⟩ | hb
        · exact ⟨rfl, trivial⟩
        · exact h.batches i b hb
    · cases Option.some.inj hw
      exact ⟨h.table, h.progress, by simp, fun _ => not_lt.mp hmore, h.batches⟩

/-- Batch `i` moves on within its execution. -/
theorem setPhase (h : w.Follows a t progress) {i : Nat} {row : BulkActionBatch}
    {phase phase' : BatchPhase} (hb : w.batches[i]? = some ⟨row, phase⟩)
    (hexp : phase'.Expected a t i) {progress' : Uuid → Option Timestamp} {table : EntityTable}
    (htable : a.Progressed progress' t table)
    (hprogress : ∀ r ∈ t.rows, progress' r.id ≠ none ↔
      (phase'.isDone ∧ r ∈ a.page t i) ∨ progress r.id ≠ none)
    (hold : phase.isDone = false) :
    Follows a t progress' ⟨table, w.source, w.batches.set i ⟨row, phase'⟩⟩ where
  table := htable
  progress := by
    intro r hr
    rw [hprogress r hr, h.progress r hr]
    have hlt := (List.getElem?_eq_some_iff.mp hb).1
    constructor
    · rintro (⟨hdone, hmem⟩ | ⟨j, b, hj, hdone, hmem⟩)
      · exact ⟨i, _, List.getElem?_set_self hlt, hdone, hmem⟩
      · refine ⟨j, b, ?_, hdone, hmem⟩
        rw [List.getElem?_set_ne, hj]
        rintro rfl
        cases Option.some.inj (hb.symm.trans hj)
        exact absurd hdone (by simp [hold])
    · rintro ⟨j, b, hj, hdone, hmem⟩
      rcases getElem?_set_cases hj with ⟨rfl, rfl⟩ | ⟨_, hj⟩
      · exact Or.inl ⟨hdone, hmem⟩
      · exact Or.inr ⟨j, b, hj, hdone, hmem⟩
  source := by simpa using h.source
  covered := by simpa using h.covered
  batches := by
    intro j b hj
    rcases getElem?_set_cases hj with ⟨rfl, rfl⟩ | ⟨_, hj⟩
    · exact ⟨(h.batches j _ hb).1, hexp⟩
    · exact h.batches j b hj

theorem load (h : w.Follows a t progress) {w' : Walk} {i : Nat}
    (hw : w.step a (.load i) = some w') : w'.Follows a t progress := by
  simp only [step] at hw
  split at hw
  next row hb =>
    cases Option.some.inj hw
    refine h.setPhase hb ?_ h.table (fun r _ => by simp [BatchPhase.isDone]) rfl
    have hrow : row = a.pageRow t i := (h.batches i _ hb).1
    rw [BatchPhase.Expected, hrow]
    exact FilterAction.load_pageRow h.table h.within (h.untouched hb rfl)
  next => simp at hw

theorem write (h : w.Follows a t progress) (noDedup : a.config.activeDedup = none) {w' : Walk}
    {i : Nat} {now : Timestamp} (hw : w.step a (.write i now) = some w') :
    ∃ progress', w'.Follows a t progress' := by
  simp only [step] at hw
  split at hw
  next row rows hb =>
    cases Option.some.inj hw
    obtain ⟨hrow, hrows⟩ : row = a.pageRow t i ∧
        rows = (a.page t i).map (EntityRecord.toRow a.entity) := h.batches i _ hb
    have hids : a.config.targets (executedRows a.text a.config rows []) =
        a.statementIds (a.page t i) := by
      rw [executedRows, noDedup, hrows]
      rfl
    have hfresh : a.Fresh t progress (a.page t i) := fun r hr =>
      ⟨FilterAction.mem_target_of_page hr, h.untouched hb rfl r hr⟩
    have hcount : row.entityCount = rows.length := by
      simp [hrow, hrows, FilterAction.pageRow, plannedRow, plannedPage]
    rw [hids, hcount, runBatch_noDedup noDedup]
    have hexp : (BatchPhase.done rows (a.config.execute rows
        (w.table.affected a.accountId (a.statementIds (a.page t i))))).Expected a t i := by
      rw [hrows]
      exact ⟨rfl, execute_count (fun id => FilterAction.statementIds_affected h.table hfresh)⟩
    refine ⟨_, h.setPhase hb hexp (FilterAction.write_progressed h.table hfresh now) ?_ rfl⟩
    · intro r hr
      by_cases hpage : r ∈ a.page t i
      · simp [(FilterAction.mem_pageIds hr).mpr hpage, hpage, BatchPhase.isDone]
      · simp [mt (FilterAction.mem_pageIds hr).mp hpage, hpage]
  next => simp at hw

end Walk.Follows

theorem follows_start (a : FilterAction) (t : EntityTable) :
    (Walk.start a t).Follows a t (fun _ => none) where
  table := by simp [FilterAction.Progressed, Walk.start]
  progress := by simp [Walk.start]
  source := by
    intro s hs
    rw [← Option.some.inj hs, PlanSource.start, a.selected]
    rfl
  covered := by simp [Walk.start]
  batches := by simp [Walk.start]

theorem follows_reaches {a : FilterAction} {t : EntityTable} {w : Walk}
    (noDedup : a.config.activeDedup = none) (h : Walk.Reaches a (.start a t) w) :
    ∃ progress, w.Follows a t progress := by
  refine Runs.Reaches.invariant (P := fun w => ∃ progress, w.Follows a t progress) ?_ h
    ⟨_, follows_start a t⟩
  rintro w w' l ⟨progress, hf⟩ _ hstep
  cases l with
  | plan => exact ⟨progress, hf.plan hstep⟩
  | load i => exact ⟨progress, hf.load hstep⟩
  | write i now => exact hf.write noDedup hstep

theorem map_eq_map_range {α β : Type} {xs : List α} {f : α → β} {g : Nat → β}
    (h : ∀ (i : Nat) (x : α), xs[i]? = some x → f x = g i) :
    xs.map f = (List.range xs.length).map g := by
  refine List.ext_getElem? (fun i => ?_)
  rw [List.getElem?_map, List.getElem?_map]
  cases hx : xs[i]? with
  | none =>
    have hlen := List.getElem?_eq_none_iff.mp hx
    simp [List.getElem?_eq_none_iff.mpr
      (show (List.range xs.length).length ≤ i by simpa using hlen)]
  | some x =>
    have hlt := (List.getElem?_eq_some_iff.mp hx).1
    simp [hlt, h i x hx]

theorem sum_countP_pageAt {α : Type} (p : α → Bool) (n m : Nat) (xs : List α) :
    ((List.range m).map (fun i => (pageAt n i xs).countP p)).sum =
      (xs.take (m * n)).countP p := by
  rw [← flatMap_pageAt, List.countP_flatMap]
  rfl

section Finished

variable {a : FilterAction} {t : EntityTable} {progress : Uuid → Option Timestamp} {w : Walk}

theorem finished_take (h : w.Follows a t progress) (fin : w.Finished) :
    (a.target t).take (w.batches.length * a.batchSize) = a.target t :=
  List.take_of_length_le (h.covered fin.1)

theorem finished_done (h : w.Follows a t progress) (fin : w.Finished) {i : Nat} {r : EntityRecord}
    (hr : r ∈ a.page t i) :
    ∃ b, w.batches[i]? = some b ∧ b.phase.isDone ∧
      b.phase.rows = (a.page t i).map (EntityRecord.toRow a.entity) := by
  have hlt : i < w.batches.length := by
    by_contra hge
    have hlen := lt_of_lt_of_le (lt_of_mem_pageAt hr) (h.covered fin.1)
    exact absurd (lt_of_mul_lt_mul_right hlen (Nat.zero_le _)) hge
  have hb : w.batches[i]? = some w.batches[i] := List.getElem?_eq_getElem hlt
  have hdone := fin.2 _ (List.getElem_mem hlt)
  refine ⟨_, hb, hdone, ?_⟩
  have hexp := (h.batches i _ hb).2
  revert hexp hdone
  cases w.batches[i].phase with
  | done rows result => exact fun _ hexp => hexp.1
  | _ => simp [BatchPhase.isDone]

theorem finished_table (h : w.Follows a t progress) (fin : w.Finished) :
    w.table.rows = a.applyOnce (fun id => (progress id).getD 0) t := by
  rw [h.table, FilterAction.applyOnce]
  refine List.filterMap_congr (fun r hr => ?_)
  have hiff := h.progress r hr
  by_cases hholds : a.clause.holds a.sql r
  · obtain ⟨i, hpage⟩ := FilterAction.exists_page (FilterAction.mem_target.mpr ⟨hr, hholds⟩)
    obtain ⟨b, hb, hdone, _⟩ := finished_done h fin hpage
    obtain ⟨now, hnow⟩ := Option.ne_none_iff_exists'.mp (hiff.mpr ⟨i, b, hb, hdone, hpage⟩)
    simp [hholds, hnow]
  · have hnone : progress r.id = none := by
      by_contra hne
      exact hholds (FilterAction.mem_target.mp (h.within r hr hne)).2
    simp [hholds, hnone]

theorem finished_loaded (h : w.Follows a t progress) (fin : w.Finished) {r : EntityRecord}
    (hr : r ∈ a.target t) :
    ∃! i, w.Loads i r.id := by
  obtain ⟨i, hpage⟩ := FilterAction.exists_page hr
  obtain ⟨b, hb, _, hrows⟩ := finished_done h fin hpage
  refine ⟨i, ⟨b, hb, r.toRow a.entity, ?_, rfl⟩, ?_⟩
  · rw [hrows]
    exact List.mem_map_of_mem hpage
  · rintro j ⟨b', hb', row, hrow, hid⟩
    have hexp : row ∈ (a.page t j).map (EntityRecord.toRow a.entity) := by
      have := (h.batches j b' hb').2
      cases hphase : b'.phase with
      | planned => simp [hphase, BatchPhase.rows] at hrow
      | loaded rows => rw [hphase] at hrow this; exact this ▸ hrow
      | done rows result => rw [hphase] at hrow this; exact this.1 ▸ hrow
    obtain ⟨s, hs, rfl⟩ := List.mem_map.mp hexp
    have hsr : s = r := EntityTable.eq_of_id
      (FilterAction.mem_target.mp (FilterAction.mem_target_of_page hs)).1
      (FilterAction.mem_target.mp hr).1 hid
    exact FilterAction.page_unique (hsr ▸ hs) hpage

/-- The batches have loaded the target set, one page after the other. -/
theorem finished_rows (h : w.Follows a t progress) (fin : w.Finished) :
    w.batches.flatMap (fun b => b.phase.rows) =
      (a.target t).map (EntityRecord.toRow a.entity) := by
  have hrows : ∀ (i : Nat) (b : BatchRun), w.batches[i]? = some b →
      b.phase.rows = pageAt a.batchSize i ((a.target t).map (EntityRecord.toRow a.entity)) := by
    intro i b hb
    have hdone := fin.2 b (List.mem_of_getElem? hb)
    have hexp := (h.batches i b hb).2
    rw [pageAt_map]
    cases hphase : b.phase with
    | done rows result =>
      rw [hphase] at hexp
      exact hexp.1
    | _ => simp [hphase, BatchPhase.isDone] at hdone
  rw [List.flatMap_def, map_eq_map_range hrows, ← List.flatMap_def, flatMap_pageAt,
    ← List.map_take, finished_take h fin]

theorem finished_totalEntities (h : w.Follows a t progress) (fin : w.Finished) :
    w.totalEntities = (a.target t).length := by
  have hcount : ∀ (i : Nat) (b : BatchRun), w.batches[i]? = some b →
      b.row.entityCount = (pageAt a.batchSize i (a.target t)).countP (fun _ => true) := by
    intro i b hb
    rw [(h.batches i b hb).1]
    simp [FilterAction.pageRow, plannedRow, plannedPage, FilterAction.page]
  rw [Walk.totalEntities, map_eq_map_range hcount, sum_countP_pageAt, finished_take h fin]
  simp

/-- The outcomes of a status, summed over the batches. -/
theorem finished_count (h : w.Follows a t progress) (fin : w.Finished) (s : EntityLogStatus) :
    w.count s =
      (if .skipped = s then (a.target t).countP (fun r => !a.config.changes a.entity r) else 0) +
        if .success = s then (a.target t).countP (a.config.changes a.entity) else 0 := by
  have hcount : ∀ (i : Nat) (b : BatchRun), w.batches[i]? = some b → b.phase.count s =
      (pageAt a.batchSize i (a.target t)).countP (fun r =>
        (EntityLogStatus.skipped = s && !a.config.changes a.entity r) ||
          (EntityLogStatus.success = s && a.config.changes a.entity r)) := by
    intro i b hb
    have hdone := fin.2 b (List.mem_of_getElem? hb)
    have hexp := (h.batches i b hb).2
    cases hphase : b.phase with
    | done rows result =>
      rw [hphase] at hexp
      rw [BatchPhase.count, hexp.2 s]
      cases s <;> simp [FilterAction.page]
    | _ => simp [hphase, BatchPhase.isDone] at hdone
  rw [Walk.count, map_eq_map_range hcount, sum_countP_pageAt, finished_take h fin]
  cases s <;> simp

end Finished

/-- Whatever the order of pages and batches, the table ends as if the action had been applied
once to the initial target set, each of whose rows is loaded by one batch, and the counters
are those of the target set, whatever the batch size. -/
theorem batches_refine_one_shot {a : FilterAction} {t : EntityTable} {w : Walk}
    (noDedup : a.config.activeDedup = none) (h : Walk.Reaches a (.start a t) w)
    (fin : w.Finished) :
    (∃ stamp, w.table.rows = a.applyOnce stamp t) ∧
    (∀ r ∈ a.target t, ∃! i, w.Loads i r.id) ∧
    w.totalEntities = (a.target t).length ∧
    w.count .success = (a.target t).countP (a.config.changes a.entity) ∧
    w.count .skipped = (a.target t).countP (fun r => !a.config.changes a.entity r) ∧
    w.count .failed = 0 := by
  obtain ⟨progress, hf⟩ := follows_reaches noDedup h
  exact ⟨⟨_, finished_table hf fin⟩, fun r hr => finished_loaded hf fin hr,
    finished_totalEntities hf fin, by simpa using finished_count hf fin .success,
    by simpa using finished_count hf fin .skipped, by simpa using finished_count hf fin .failed⟩

/-- PostgreSQL on the tests that the samples use. -/
def sampleSql : Sql where
  accepts
    | .string _, .compare .eq (.str _) => true
    | _, _ => false
  holds
    | .compare .eq (.str s), v => v = .str s
    | .isNull, v => v = .null
    | _, _ => false

/-- The deactivation of account 1's active contacts, in batches of one. -/
def deactivateOneByOne : FilterAction where
  sql := sampleSql
  text := asciiText
  entity := contactEntity
  accountId := 1
  config := deactivateContacts
  clause := ⟨1, some "deleted_at", [⟨"status", .compare .eq (.str "active")⟩]⟩
  batchSize := 1
  selected := rfl
  compiled := rfl
  accepted := rfl
  positive := Nat.le_refl 1

def contactRecord (id : Uuid) (status : String) : EntityRecord where
  id := id
  accountId := 1
  cols name := if name = "status" then .str status else .null

/-- Contacts 5 and 6 are active, 7 is not. -/
def threeContacts : EntityTable where
  rows := [contactRecord 5 "active", contactRecord 6 "active", contactRecord 7 "inactive"]
  sorted := by simp [Increasing, contactRecord]

/-- The first batch commits before the planner reads the second page. -/
theorem contacts_walk : ∃ w, Walk.Reaches deactivateOneByOne
    (.start deactivateOneByOne threeContacts) w ∧ w.Finished := by
  let labels : List WalkLabel :=
    [.plan, .load 0, .write 0 3, .plan, .plan, .load 1, .write 1 4]
  obtain ⟨w, hs, hsource, hdone⟩ : ∃ w,
      Runs.steps (Walk.step deactivateOneByOne) (.start deactivateOneByOne threeContacts) labels =
        some w ∧ w.source = none ∧ w.batches.map (fun b => b.phase.isDone) = [true, true] :=
    ⟨_, rfl, rfl, rfl⟩
  refine ⟨w, Runs.reaches_of_steps hs, hsource, fun b hb => ?_⟩
  have hmem : b.phase.isDone ∈ w.batches.map (fun b => b.phase.isDone) :=
    List.mem_map_of_mem hb
  rw [hdone] at hmem
  simpa using hmem

theorem batches_refine_one_shot_contacts :
    ∃ w, Walk.Reaches deactivateOneByOne (.start deactivateOneByOne threeContacts) w ∧
      w.Finished ∧ w.count .success = 2 ∧
      ∃ stamp, w.table.rows = deactivateOneByOne.applyOnce stamp threeContacts := by
  obtain ⟨w, hr, fin⟩ := contacts_walk
  obtain ⟨htable, _, _, hsuccess, _⟩ := batches_refine_one_shot rfl hr fin
  exact ⟨w, hr, fin, hsuccess.trans rfl, htable⟩

end BulkActions
