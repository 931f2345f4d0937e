import BulkActions.OneShot
import BulkActions.DedupFacts

namespace BulkActions

open Keyset

/-- A planning pass that dies, and the one that follows when its job is redelivered. -/
inductive PlanPass where
  | first (pc : PlanPc)
  | dead
  | second (pc : PlanPc)

/-- An action while it is planned: the entity table, the action's row and batch rows, the
indices of the enqueued batches, and the ids that executed batches have loaded. -/
structure Replan where
  table : EntityTable
  action : BulkAction
  batches : Nat → Option BulkActionBatch
  queue : List Nat
  processed : List Uuid
  pass : PlanPass

inductive ReplanLabel where
  | plan (now : Timestamp)
  /-- batch `i` runs to completion; `claimed` are the ledger keys it gets, if it
  de-duplicates -/
  | batch (i : Nat) (claimed : List String) (now : Timestamp)
  | die
  | redeliver (now : Timestamp)

/-- `INSERT ... ON CONFLICT DO NOTHING` on the batch index. -/
def insertBatches (batches : Nat → Option BulkActionBatch) (rows : List BulkActionBatch) :
    Nat → Option BulkActionBatch :=
  rows.foldl (fun batches row =>
    if (batches row.batchIndex).isNone then Function.update batches row.batchIndex (some row)
    else batches) batches

def ActionUpdate.run (u : ActionUpdate) (now : Timestamp) (action : BulkAction) : BulkAction :=
  if u.applies action then u.set now action else action

namespace PlanPc

/-- The page that the planner reads next, if it reads one. -/
def reads (a : FilterAction) (t : EntityTable) : PlanPc → List Uuid
  | nextBatch loop => a.readPage t loop.source
  | _ => []

/-- The batch rows once the next statement is executed; a pass writes them at its commits. -/
def flushes (batches : Nat → Option BulkActionBatch) : PlanPc → Nat → Option BulkActionBatch
  | rowsCommit loop _ => insertBatches batches loop.pending
  | _ => batches

def enqueues : PlanPc → List Nat
  | enqueueJobs _ (row :: _) _ => [row.batchIndex]
  | _ => []

def writesTotals (now : Timestamp) (action : BulkAction) : PlanPc → BulkAction
  | totalsCommit entities batches =>
    (if batches = 0 then .closeEmpty else .markStarted : ActionUpdate).run now
      ((ActionUpdate.setTotals entities batches).run now action)
  | _ => action

end PlanPc

namespace Replan

/-- One statement of a planning pass. -/
def planStep (a : FilterAction) (now : Timestamp) (s : Replan) (pc : PlanPc)
    (pass : PlanPc → PlanPass) : Option Replan :=
  match pc.resume { page := pc.reads a s.table } {} with
  | .error _ => none
  | .ok next => some { s with
    action := pc.writesTotals now s.action
    batches := pc.flushes s.batches
    queue := s.queue ++ pc.enqueues
    pass := pass next }

/-- `process_batch` of an enqueued batch, up to its commit. -/
def runBatch (a : FilterAction) (s : Replan) (i : Nat) (claimed : List String)
    (now : Timestamp) : Option Replan :=
  match s.batches i with
  | none => none
  | some row =>
    if i ∈ s.queue ∧ row.status ≠ .completed then
      let rows := a.load s.table row
      let ids := a.config.targets (executedRows a.text a.config rows claimed)
      let result := BulkActions.runBatch a.text a.config row.entityCount rows claimed
        (s.table.affected a.accountId ids)
      some { s with
        table := s.table.write a.entity a.config a.accountId now ids
        action := (ActionUpdate.recordBatchCompletion result.processedCount result.successCount
          result.failureCount result.skippedCount true).run now s.action
        batches := Function.update s.batches i (some ((BatchUpdate.complete result.successCount
          result.failureCount result.skippedCount).set now row))
        processed := s.processed ++ rows.map EntityRow.id }
    else none

def step (a : FilterAction) (s : Replan) : ReplanLabel → Option Replan
  | .plan now =>
    match s.pass with
    | .first (.done _) => none
    | .first pc => s.planStep a now pc .first
    | .dead => none
    | .second (.done _) => none
    | .second pc => s.planStep a now pc .second
  | .batch i claimed now =>
    match s.pass with
    | .second _ => none
    | _ => s.runBatch a i claimed now
  | .die =>
    match s.pass with
    | .first (.done _) => none
    | .first _ => some { s with pass := .dead }
    | _ => none
  | .redeliver now =>
    match s.pass with
    | .dead =>
      if s.action.status.isTerminal then none
      else
        let action := ActionUpdate.setPlanning.run now s.action
        some { s with action := action, pass := .second (.nextBatch (.start action)) }
    | _ => none

/-- The first pass begins, its planning status committed. -/
def start (a : FilterAction) (t : EntityTable) (action : BulkAction) : Replan where
  table := t
  action := { action with configuration := a.config, batchSize := a.batchSize, status := .planning }
  batches _ := none
  queue := []
  processed := []
  pass := .first (.nextBatch (.start
    { action with configuration := a.config, batchSize := a.batchSize, status := .planning }))

def Reaches (a : FilterAction) : Replan → Replan → Prop :=
  Runs.Reaches (step a) Runs.anyStep

/-- The second pass has returned. -/
def Replanned (s : Replan) : Prop :=
  ∃ entities batches, s.pass = .second (.done (.planned entities batches))

end Replan

theorem insertBatches_apply (batches : Nat → Option BulkActionBatch)
    (rows : List BulkActionBatch) (i : Nat) :
    insertBatches batches rows i =
      (batches i).or (rows.find? (fun row => row.batchIndex = i)) := by
  induction rows generalizing batches with
  | nil => simp [insertBatches]
  | cons row rows ih =>
    have hcons : insertBatches batches (row :: rows) = insertBatches
        (if (batches row.batchIndex).isNone then
          Function.update batches row.batchIndex (some row) else batches) rows := rfl
    rw [hcons, ih, List.find?_cons]
    by_cases hi : row.batchIndex = i
    · subst hi
      cases hb : batches row.batchIndex <;> simp [hb]
    · have hne : i ≠ row.batchIndex := fun h => hi h.symm
      split_ifs <;> simp [hi, Function.update_of_ne hne]

/-- The rows of the pages from `m` on, numbered by their pages. -/
theorem find_pageRow (a : FilterAction) (t : EntityTable) (m len i : Nat) :
    ((List.range' m len).map (a.pageRow t)).find? (fun row => row.batchIndex = i) =
      if m ≤ i ∧ i < m + len then some (a.pageRow t i) else none := by
  induction len generalizing m with
  | zero => rw [if_neg (by omega)]; rfl
  | succ len ih =>
    rw [List.range'_succ, List.map_cons, List.find?_cons, ih]
    by_cases hi : m = i
    · subst hi
      simp [FilterAction.pageRow, plannedRow, plannedPage]
    · have hne : ((a.pageRow t m).batchIndex = i) = False := eq_false hi
      simp only [hne, decide_false]
      exact if_congr (by omega) rfl rfl

/-- The planning loop over table `t`, when `m` of its rows have been committed. -/
structure PlanLoop.At (a : FilterAction) (t : EntityTable) (m : Nat) (loop : PlanLoop) : Prop where
  size : loop.action.batchSize = a.batchSize
  pending : loop.pending = (List.range' m loop.pending.length).map (a.pageRow t)
  batches : loop.totalBatches = m + loop.pending.length
  entities : loop.totalEntities = ((a.target t).take (loop.totalBatches * a.batchSize)).length
  source : loop.source = a.sourceAt t loop.totalBatches
  filled : ∀ i < loop.totalBatches, i * a.batchSize < (a.target t).length

/-- The pages of the target set are numbered below `m`. -/
structure FilterAction.Paged (a : FilterAction) (t : EntityTable) (m : Nat) : Prop where
  covered : (a.target t).length ≤ m * a.batchSize
  filled : ∀ i < m, i * a.batchSize < (a.target t).length

/-- Where a planning pass over table `t` stands, when `m` of its rows have been committed. -/
def PlanPc.At (a : FilterAction) (t : EntityTable) (m : Nat) : PlanPc → Prop
  | .nextBatch loop => loop.At a t m
  | .insertRows loop last => loop.At a t m ∧ (last → a.Paged t loop.totalBatches)
  | .rowsCommit loop last => loop.At a t m ∧ (last → a.Paged t loop.totalBatches)
  | .enqueueJobs loop _ last =>
    loop.At a t m ∧ loop.pending = [] ∧ (last → a.Paged t loop.totalBatches)
  | .writeTotals entities batches =>
    entities = (a.target t).length ∧ batches = m ∧ a.Paged t m
  | .closeOrStart entities batches =>
    entities = (a.target t).length ∧ batches = m ∧ a.Paged t m
  | .totalsCommit entities batches =>
    entities = (a.target t).length ∧ batches = m ∧ a.Paged t m
  | .done (.planned entities batches) =>
    entities = (a.target t).length ∧ batches = m ∧ a.Paged t m
  | _ => False

section Pass

variable {a : FilterAction} {t t' : EntityTable} {progress : Uuid → Option Timestamp} {m : Nat}

theorem loop_start (action : BulkAction) (hc : action.configuration = a.config)
    (hn : action.batchSize = a.batchSize) : (PlanLoop.start action).At a t 0 where
  size := hn
  pending := rfl
  batches := rfl
  entities := by simp [PlanLoop.start]
  source := by
    rw [PlanLoop.start, hc, PlanSource.start, a.selected]
    rfl
  filled := by simp [PlanLoop.start]

theorem loop_append {loop : PlanLoop} (h : loop.At a t m)
    (more : loop.totalBatches * a.batchSize < (a.target t).length) :
    (loop.append (plannedPage loop.totalBatches ((a.page t loop.totalBatches).map EntityRecord.id))
      (a.sourceAt t (loop.totalBatches + 1))).At a t m where
  size := h.size
  pending := by
    have hlast : plannedRow (plannedPage loop.totalBatches
        ((a.page t loop.totalBatches).map EntityRecord.id)) =
        a.pageRow t (m + loop.pending.length) := by
      rw [h.batches]
      rfl
    simp only [PlanLoop.append, List.length_append, List.length_singleton, hlast]
    rw [List.range'_concat, List.map_append, ← h.pending, Nat.one_mul]
    rfl
  batches := by simp [PlanLoop.append, h.batches, Nat.add_assoc]
  entities := by
    simp only [PlanLoop.append, plannedPage, List.length_map, h.entities]
    rw [take_succ_mul, List.length_append]
    rfl
  source := rfl
  filled := by
    intro i hi
    rcases Nat.lt_succ_iff_lt_or_eq.mp hi with hi | rfl
    · exact h.filled i hi
    · exact more

theorem afterFlush_at {loop : PlanLoop} {last : Bool} (h : loop.At a t m) (hp : loop.pending = [])
    (hlast : last → a.Paged t loop.totalBatches) : (PlanPc.afterFlush loop last).At a t m := by
  have hm : loop.totalBatches = m := by rw [h.batches, hp]; rfl
  unfold PlanPc.afterFlush
  split_ifs with hl
  · have hpaged := hlast hl
    rw [hm] at hpaged
    refine ⟨?_, hm, hpaged⟩
    rw [h.entities, hm, List.take_of_length_le hpaged.covered]
  · exact h

theorem afterPage_at {loop : PlanLoop} (h : a.Progressed progress t t') (hl : loop.At a t m)
    (behind : ∀ r ∈ t.rows, progress r.id ≠ none → ∃ j < m, r ∈ a.page t j) :
    (PlanPc.afterPage loop (a.readPage t' loop.source)).At a t m := by
  have hnext := FilterAction.next_sourceAt h (i := loop.totalBatches) (by
    intro r hr hne
    obtain ⟨j, hj, hmem⟩ := behind r hr hne
    exact ⟨j, by rw [hl.batches]; omega, hmem⟩)
  rw [← hl.source] at hnext
  rw [PlanPc.afterPage, hl.size, hnext]
  by_cases hmore : loop.totalBatches * a.batchSize < (a.target t).length
  · have happ := loop_append hl hmore
    rw [if_pos hmore]
    dsimp only
    split_ifs
    · exact ⟨happ, by simp⟩
    · exact happ
  · have hpaged : a.Paged t loop.totalBatches := ⟨not_lt.mp hmore, hl.filled⟩
    rw [if_neg hmore]
    dsimp only
    split_ifs with he
    · exact afterFlush_at hl (List.isEmpty_iff.mp he) (fun _ => hpaged)
    · exact ⟨hl, fun _ => hpaged⟩

/-- The rows that a pass has committed after the step. -/
def PlanPc.committed (m : Nat) : PlanPc → Nat
  | .rowsCommit loop _ => m + loop.pending.length
  | _ => m

/-- A pass stays on its walk while only rows of committed pages are processed. -/
theorem resume_at {pc next : PlanPc} (h : a.Progressed progress t t') (hp : pc.At a t m)
    (behind : ∀ r ∈ t.rows, progress r.id ≠ none → ∃ j < m, r ∈ a.page t j)
    (hn : pc.resume { page := pc.reads a t' } {} = .ok next) : next.At a t (pc.committed m) := by
  cases pc with
  | nextBatch loop => cases Except.ok.inj hn; exact afterPage_at h hp behind
  | insertRows loop last => cases Except.ok.inj hn; exact hp
  | rowsCommit loop last =>
    cases Except.ok.inj hn
    exact ⟨⟨hp.1.size, rfl, hp.1.batches, hp.1.entities, hp.1.source, hp.1.filled⟩, rfl, hp.2⟩
  | enqueueJobs loop rows last =>
    cases rows with
    | nil => cases Except.ok.inj hn; exact afterFlush_at hp.1 hp.2.1 hp.2.2
    | cons row rows => cases Except.ok.inj hn; exact hp
  | writeTotals e b => cases Except.ok.inj hn; exact hp
  | closeOrStart e b => cases Except.ok.inj hn; exact hp
  | totalsCommit e b => cases Except.ok.inj hn; exact hp
  | done ret => cases Except.ok.inj hn; exact hp
  | _ => exact False.elim hp

/-- What a pass makes of the batch rows. -/
theorem flushes_at {pc : PlanPc} (hp : pc.At a t m) (batches : Nat → Option BulkActionBatch)
    (i : Nat) :
    pc.flushes batches i =
      (batches i).or (if m ≤ i ∧ i < pc.committed m then some (a.pageRow t i) else none) := by
  cases pc with
  | rowsCommit loop last =>
    have hfind := find_pageRow a t m loop.pending.length i
    rw [← hp.1.pending] at hfind
    rw [PlanPc.flushes, insertBatches_apply, hfind]
    rfl
  | _ =>
    have hempty : ¬ (m ≤ i ∧ i < m) := by omega
    simp [PlanPc.flushes, PlanPc.committed, hempty]

theorem committed_filled {pc : PlanPc} (hp : pc.At a t m)
    (hfilled : ∀ i < m, i * a.batchSize < (a.target t).length) :
    ∀ i < pc.committed m, i * a.batchSize < (a.target t).length := by
  cases pc with
  | rowsCommit loop last =>
    intro i hi
    exact hp.1.filled i (by rwa [hp.1.batches])
  | _ => exact hfilled

theorem le_committed (pc : PlanPc) (m : Nat) : m ≤ pc.committed m := by
  cases pc <;> simp [PlanPc.committed]

end Pass

/-- The columns of a batch row that say what it covers. -/
structure BulkActionBatch.SameSpan (b b' : BulkActionBatch) : Prop where
  entityIds : b.entityIds = b'.entityIds
  cursorStart : b.cursorStart = b'.cursorStart
  cursorEnd : b.cursorEnd = b'.cursorEnd
  entityCount : b.entityCount = b'.entityCount

theorem load_sameSpan {b b' : BulkActionBatch} (h : b.SameSpan b') (a : FilterAction)
    (t : EntityTable) : a.load t b = a.load t b' := by
  have hwhere : EntityTable.batchWhere a.sql a.entity a.accountId a.clause
      a.config.includeDeleted b =
      EntityTable.batchWhere a.sql a.entity a.accountId a.clause a.config.includeDeleted b' := by
    funext r
    simp only [EntityTable.batchWhere, h.entityIds, h.cursorStart, h.cursorEnd]
  rw [FilterAction.load, EntityTable.loadBatchRows, hwhere]
  rfl

theorem inRange_sameSpan {b b' : BulkActionBatch} (h : b.SameSpan b') (id : Uuid) :
    FilterAction.inRange b id = FilterAction.inRange b' id := by
  simp only [FilterAction.inRange, h.cursorStart, h.cursorEnd]

/-- The rows a batch executes are some of the records it has loaded. -/
theorem executedRows_map (e : EntityDescriptor) (rs : List EntityRecord) (text : PyText)
    (config : Config) (claimed : List String) :
    ∃ executed : List EntityRecord, (∀ r ∈ executed, r ∈ rs) ∧
      executedRows text config (rs.map (EntityRecord.toRow e)) claimed =
        executed.map (EntityRecord.toRow e) := by
  have hsub : ∀ row ∈ executedRows text config (rs.map (EntityRecord.toRow e)) claimed,
      ∃ r ∈ rs, r.toRow e = row :=
    fun row hrow => List.mem_map.mp (mem_of_mem_executedRows hrow)
  generalize executedRows text config (rs.map (EntityRecord.toRow e)) claimed = rows at hsub
  induction rows with
  | nil => exact ⟨[], by simp, rfl⟩
  | cons row rows ih =>
    obtain ⟨r, hr, rfl⟩ := hsub row List.mem_cons_self
    obtain ⟨executed, hmem, rfl⟩ := ih (fun row hrow => hsub row (List.mem_cons_of_mem _ hrow))
    refine ⟨r :: executed, ?_, rfl⟩
    intro s hs
    rcases List.mem_cons.mp hs with rfl | hs
    · exact hr
    · exact hmem s hs

theorem run_keeps (u : ActionUpdate) (now : Timestamp) (action : BulkAction) :
    (u.run now action).configuration = action.configuration ∧
      (u.run now action).batchSize = action.batchSize := by
  unfold ActionUpdate.run
  split_ifs
  · cases u <;> exact ⟨rfl, rfl⟩
  · exact ⟨rfl, rfl⟩

/-- What the run of batch `i` makes of the state, `row` becoming `row'`. -/
structure Replan.Ran (a : FilterAction) (s : Replan) (i : Nat) (claimed : List String)
    (now : Timestamp) (row row' : BulkActionBatch) (s' : Replan) : Prop where
  completed : row'.status = .completed
  span : row'.SameSpan row
  table : s'.table = s.table.write a.entity a.config a.accountId now
    (a.config.targets (executedRows a.text a.config (a.load s.table row) claimed))
  batches : s'.batches = Function.update s.batches i (some row')
  processed : s'.processed = s.processed ++ (a.load s.table row).map EntityRow.id
  action : s'.action.configuration = s.action.configuration ∧
    s'.action.batchSize = s.action.batchSize
  pass : s'.pass = s.pass

theorem runBatch_cases {a : FilterAction} {s s' : Replan} {i : Nat} {claimed : List String}
    {now : Timestamp} (h : s.runBatch a i claimed now = some s') :
    ∃ row row', s.batches i = some row ∧ row.status ≠ .completed ∧
      s.Ran a i claimed now row row' s' := by
  simp only [Replan.runBatch] at h
  split at h
  next => simp at h
  next row hb =>
    split_ifs at h with hcond
    cases Option.some.inj h
    exact ⟨row, (BatchUpdate.complete _ _ _).set now row, hb, hcond.2, rfl, ⟨rfl, rfl, rfl, rfl⟩,
      rfl, rfl, rfl, run_keeps _ _ _, rfl⟩

/-- The row is on the page of a completed batch. -/
def Replan.Covers (a : FilterAction) (t : EntityTable) (s : Replan) (r : EntityRecord) : Prop :=
  ∃ (i : Nat) (b : BulkActionBatch),
    s.batches i = some b ∧ b.status = .completed ∧ r ∈ a.page t i

/-- Until the job is redelivered, the batch rows are those of the first `m` pages of the
initial target set, and only completed ones have changed the table. -/
structure Replan.FirstPass (a : FilterAction) (t : EntityTable)
    (progress : Uuid → Option Timestamp) (m : Nat) (s : Replan) : Prop where
  table : a.Progressed progress t s.table
  progress : ∀ r ∈ t.rows, progress r.id ≠ none → s.Covers a t r
  rows : ∀ i b, s.batches i = some b → i < m ∧ b.SameSpan (a.pageRow t i)
  present : ∀ i < m, (s.batches i).isSome
  filled : ∀ i < m, i * a.batchSize < (a.target t).length
  processed : ∀ r ∈ a.target t, r.id ∈ s.processed ↔ s.Covers a t r
  action : s.action.configuration = a.config ∧ s.action.batchSize = a.batchSize

theorem writesTotals_keeps (now : Timestamp) (action : BulkAction) (pc : PlanPc) :
    (pc.writesTotals now action).configuration = action.configuration ∧
      (pc.writesTotals now action).batchSize = action.batchSize := by
  cases pc with
  | totalsCommit e b =>
    obtain ⟨hc, hn⟩ := run_keeps (ActionUpdate.setTotals e b) now action
    obtain ⟨hc', hn'⟩ := run_keeps (if b = 0 then .closeEmpty else .markStarted) now
      ((ActionUpdate.setTotals e b).run now action)
    exact ⟨hc'.trans hc, hn'.trans hn⟩
  | _ => exact ⟨rfl, rfl⟩

namespace Replan.FirstPass

variable {a : FilterAction} {t : EntityTable} {progress : Uuid → Option Timestamp} {m : Nat}
  {s : Replan}

theorem behind (h : s.FirstPass a t progress m) :
    ∀ r ∈ t.rows, progress r.id ≠ none → ∃ j < m, r ∈ a.page t j := by
  intro r hr hne
  obtain ⟨i, b, hb, _, hmem⟩ := h.progress r hr hne
  exact ⟨i, (h.rows i b hb).1, hmem⟩

/-- The new rows of a flush are pending. -/
theorem plan (h : s.FirstPass a t progress m) {pc : PlanPc} (now : Timestamp) {s' : Replan}
    (hp : pc.At a t m) (htable : s'.table = s.table) (hprocessed : s'.processed = s.processed)
    (haction : s'.action = pc.writesTotals now s.action)
    (hbatches : s'.batches = pc.flushes s.batches) :
    s'.FirstPass a t progress (pc.committed m) := by
  have hflush := flushes_at hp s.batches
  have hcovers : ∀ r, s'.Covers a t r ↔ s.Covers a t r := by
    intro r
    constructor
    · rintro ⟨i, b, hb, hst, hmem⟩
      rw [hbatches, hflush i] at hb
      cases hold : s.batches i with
      | some b' =>
        simp only [hold, Option.some_or] at hb
        exact ⟨i, b, hold.trans hb, hst, hmem⟩
      | none =>
        simp only [hold, Option.none_or] at hb
        split_ifs at hb
        rw [← Option.some.inj hb] at hst
        cases hst
    · rintro ⟨i, b, hb, hst, hmem⟩
      refine ⟨i, b, ?_, hst, hmem⟩
      rw [hbatches, hflush i, hb, Option.some_or]
  refine ⟨htable ▸ h.table, fun r hr hne => (hcovers r).mpr (h.progress r hr hne), ?_, ?_,
    committed_filled hp h.filled, fun r hr => ?_, ?_⟩
  · intro i b hb
    rw [hbatches, hflush i] at hb
    cases hold : s.batches i with
    | some b' =>
      simp only [hold, Option.some_or] at hb
      obtain ⟨hlt, hspan⟩ := h.rows i b' hold
      exact ⟨lt_of_lt_of_le hlt (le_committed pc m), Option.some.inj hb ▸ hspan⟩
    | none =>
      simp only [hold, Option.none_or] at hb
      split_ifs at hb with hi
      exact ⟨hi.2, Option.some.inj hb ▸ ⟨rfl, rfl, rfl, rfl⟩⟩
  · intro i hi
    rw [hbatches, hflush i]
    by_cases hm : i < m
    · obtain ⟨b, hb⟩ := Option.isSome_iff_exists.mp (h.present i hm)
      simp [hb]
    · simp [show m ≤ i ∧ i < pc.committed m from ⟨not_lt.mp hm, hi⟩]
  · rw [hprocessed, h.processed r hr, hcovers r]
  · obtain ⟨hc, hn⟩ := writesTotals_keeps now s.action pc
    rw [haction]
    exact ⟨hc.trans h.action.1, hn.trans h.action.2⟩

/-- The page of a batch that is not completed is untouched. -/
theorem fresh (h : s.FirstPass a t progress m) {i : Nat} {b : BulkActionBatch}
    (hb : s.batches i = some b) (hst : b.status ≠ .completed) :
    a.Fresh t progress (a.page t i) := by
  intro r hr
  refine ⟨FilterAction.mem_target_of_page hr, ?_⟩
  by_contra hne
  have hrow := (FilterAction.mem_target.mp (FilterAction.mem_target_of_page hr)).1
  obtain ⟨j, b', hb', hdone, hmem⟩ := h.progress r hrow hne
  cases FilterAction.page_unique hmem hr
  cases Option.some.inj (hb.symm.trans hb')
  exact hst hdone

theorem load (h : s.FirstPass a t progress m) {i : Nat} {b : BulkActionBatch}
    (hb : s.batches i = some b) (hst : b.status ≠ .completed) :
    a.load s.table b = (a.page t i).map (EntityRecord.toRow a.entity) := by
  rw [load_sameSpan (h.rows i b hb).2]
  refine FilterAction.load_pageRow h.table ?_ (fun r hr => (h.fresh hb hst r hr).2)
  intro r hr hne
  obtain ⟨j, _, hmem⟩ := h.behind r hr hne
  exact FilterAction.mem_target_of_page hmem

theorem batch (h : s.FirstPass a t progress m) {i : Nat} {claimed : List String}
    {now : Timestamp} {s' : Replan} (hs : s.runBatch a i claimed now = some s') :
    ∃ progress', s'.FirstPass a t progress' m := by
  obtain ⟨row, row', hb, hst, hrun⟩ := runBatch_cases hs
  have hload := h.load hb hst
  obtain ⟨rs, hrs, hexec⟩ := executedRows_map a.entity (a.page t i) a.text a.config claimed
  have hfresh : a.Fresh t progress rs := fun r hr => h.fresh hb hst r (hrs r hr)
  have hids : a.config.targets (executedRows a.text a.config (a.load s.table row) claimed) =
      a.statementIds rs := by
    rw [hload, hexec]
    rfl
  have hcovers : ∀ r, s'.Covers a t r ↔ r ∈ a.page t i ∨ s.Covers a t r := by
    intro r
    rw [Covers, hrun.batches]
    constructor
    · rintro ⟨j, b, hj, hdone, hmem⟩
      by_cases hji : j = i
      · exact Or.inl (hji ▸ hmem)
      · rw [Function.update_of_ne hji] at hj
        exact Or.inr ⟨j, b, hj, hdone, hmem⟩
    · rintro (hmem | ⟨j, b, hj, hdone, hmem⟩)
      · exact ⟨i, row', Function.update_self .., hrun.completed, hmem⟩
      · refine ⟨j, b, ?_, hdone, hmem⟩
        rw [Function.update_of_ne, hj]
        rintro rfl
        cases Option.some.inj (hb.symm.trans hj)
        exact hst hdone
  refine ⟨fun id => if id ∈ rs.map EntityRecord.id then some now else progress id,
    ⟨?_, ?_, ?_, ?_, h.filled, ?_, ?_⟩⟩
  · rw [hrun.table, hids]
    exact FilterAction.write_progressed h.table hfresh now
  · intro r hr hne
    rw [hcovers]
    have hmem := EntityTable.mem_ids (fun s hs => (FilterAction.mem_target.mp (hfresh s hs).1).1) hr
    by_cases hpage : r ∈ rs
    · exact Or.inl (hrs r hpage)
    · rw [if_neg (mt hmem.mp hpage)] at hne
      exact Or.inr (h.progress r hr hne)
  · intro j b hj
    rw [hrun.batches] at hj
    by_cases hji : j = i
    · subst hji
      rw [Function.update_self] at hj
      rw [← Option.some.inj hj]
      obtain ⟨hlt, hspan⟩ := h.rows j row hb
      exact ⟨hlt, ⟨hrun.span.entityIds.trans hspan.entityIds,
        hrun.span.cursorStart.trans hspan.cursorStart,
        hrun.span.cursorEnd.trans hspan.cursorEnd,
        hrun.span.entityCount.trans hspan.entityCount⟩⟩
    · rw [Function.update_of_ne hji] at hj
      exact h.rows j b hj
  · intro j hj
    rw [hrun.batches]
    by_cases hji : j = i
    · subst hji
      rw [Function.update_self]
      rfl
    · rw [Function.update_of_ne hji]
      exact h.present j hj
  · intro r hr
    have hrow := (FilterAction.mem_target.mp hr).1
    rw [hrun.processed, hload, List.mem_append, h.processed r hr, hcovers, or_comm, List.map_map]
    exact or_congr (FilterAction.mem_pageIds hrow) Iff.rfl
  · exact ⟨hrun.action.1.trans h.action.1, hrun.action.2.trans h.action.2⟩

end Replan.FirstPass

end BulkActions
