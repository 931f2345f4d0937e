import BulkActions.PendingRows
import BulkActions.PlannerRace

namespace BulkActions

/-- The batch that a row was planned as: its index, ids, range and count. -/
def BulkActionBatch.planned (row : BulkActionBatch) : PlannedBatch where
  index := row.batchIndex
  entityCount := row.entityCount
  entityIds := row.entityIds
  cursorStart := row.cursorStart
  cursorEnd := row.cursorEnd

/-- The job that the planner enqueues for a batch. -/
def PlannedBatch.job (planned : PlannedBatch) : BatchJob := ⟨planned.index, 0, 1⟩

/-- The batch that `plan_batches` yields when the planning loop resumes it. -/
def PlanPc.yields (ext : External) : PlanPc → Option PlannedBatch
  | nextBatch loop => (loop.source.next loop.action.batchSize ext.page).map Prod.fst
  | _ => none

/-- The job that the planner calls `enqueue_job` for. -/
def PlanPc.calls : PlanPc → Option BatchJob
  | enqueueJobs _ (row :: _) _ => some row.planned.job
  | _ => none

/-- The batch that is yielded to worker `p` in a step. -/
def Sys.yields (p : Pid) (s : Sys) : Label → Option PlannedBatch
  | .run q ext =>
    match s.procs q with
    | .plan pc => if q = p then pc.yields ext else none
    | _ => none
  | _ => none

/-- The platform, the batches yielded to worker `p` and the jobs it has enqueued, and the jobs of
all calls of `enqueue_job` for a batch. -/
structure Planning where
  sys : Sys
  yielded : List PlannedBatch
  enqueued : List BatchJob
  called : List BatchJob

namespace Planning

def step (env : Env) (p : Pid) (x : Planning) (l : Label) : Option Planning :=
  (x.sys.step env l).map (fun s =>
    { sys := s
      yielded := x.yielded ++ (x.sys.yields p l).toList
      enqueued := if l.pid = p then x.enqueued ++ (x.sys.enqueues env l).toList else x.enqueued
      called := x.called ++ (x.sys.enqueues env l).toList })

/-- Worker `p` takes the plan job and nothing else, and no other planning pass begins. -/
def FirstPass (p : Pid) (x : Planning) : Label → Prop
  | .deliver q job => job = .plan ↔ q = p
  | .duplicate q job => job = .plan ↔ q = p
  | .redeliver q => ∀ job, x.sys.procs q = .lost job → job ≠ .plan
  | .cancel q => q ≠ p
  | _ => True

/-- An action that has no batches yet. -/
structure Begins (x : Planning) : Prop where
  rest : x.sys.AtRest
  rows : ∀ i, x.sys.world.committed.batches i = none
  queue : ∀ job, .batch job ∉ x.sys.world.queue
  yielded : x.yielded = []
  enqueued : x.enqueued = []
  called : x.called = []

/-- The pass has inserted one row and enqueued one job for each batch of its plan, and nothing
else, and has written the totals of the plan. -/
structure Published (x : Planning) (totalEntities totalBatches : Nat) : Prop where
  distinct : (x.yielded.map PlannedBatch.index).Nodup
  inserted : ∀ planned ∈ x.yielded,
    (x.sys.world.committed.batches planned.index).map BulkActionBatch.planned = some planned
  only : ∀ i row, x.sys.world.committed.batches i = some row →
    row.batchIndex = i ∧ row.planned ∈ x.yielded
  jobs : x.enqueued = x.yielded.map PlannedBatch.job
  entities : totalEntities = (x.yielded.map PlannedBatch.entityCount).sum
  batches : totalBatches = x.yielded.length
  totals : ∃ a, x.sys.world.committed.action = some a ∧ a.totalEntities = totalEntities ∧
    a.totalBatches = totalBatches

end Planning

/-- The rows of the action are those of a plan. -/
def Tables.HoldsPlan (c : Tables) (plan : List PlannedBatch) : Prop :=
  ∀ i, (c.batches i).map BulkActionBatch.planned = plan[i]?

def BulkAction.totals (a : BulkAction) : Nat × Nat := (a.totalEntities, a.totalBatches)

/-- The yielded batches are those of the committed rows and then those of the buffer; `jobs` are
the jobs that have been enqueued or are owed. -/
structure PlanLoop.Buffers (c : Tables) (yielded : List PlannedBatch) (jobs : List BatchJob)
    (flushed : List PlannedBatch) (loop : PlanLoop) : Prop where
  split : yielded = flushed ++ loop.pending.map BulkActionBatch.planned
  rows : c.HoldsPlan flushed
  jobs : jobs = flushed.map PlannedBatch.job
  entities : loop.totalEntities = (yielded.map PlannedBatch.entityCount).sum
  batches : loop.totalBatches = yielded.length
  numbered : yielded.map PlannedBatch.index = List.range yielded.length
  source : loop.source.YieldsFrom yielded.length

/-- Everything has been flushed. -/
structure Tables.Flushed (c : Tables) (yielded : List PlannedBatch) (jobs : List BatchJob)
    (totalEntities totalBatches : Nat) : Prop where
  rows : c.HoldsPlan yielded
  jobs : jobs = yielded.map PlannedBatch.job
  entities : totalEntities = (yielded.map PlannedBatch.entityCount).sum
  batches : totalBatches = yielded.length
  numbered : yielded.map PlannedBatch.index = List.range yielded.length

/-- What a planning pass has published when it stands at a point, with `ws` its open writes. -/
def PlanPc.Publishes (c : Tables) (ws : List Write) (yielded : List PlannedBatch)
    (jobs : List BatchJob) : PlanPc → Prop
  | .loadAction => c.HoldsPlan [] ∧ yielded = [] ∧ jobs = []
  | .setPlanning _ => c.HoldsPlan [] ∧ yielded = [] ∧ jobs = []
  | .planningCommit _ => c.HoldsPlan [] ∧ yielded = [] ∧ jobs = []
  | .nextBatch loop => ∃ flushed, loop.Buffers c yielded jobs flushed
  | .insertRows loop _ => ∃ flushed, loop.Buffers c yielded jobs flushed
  | .rowsCommit loop _ =>
    (∃ flushed, loop.Buffers c yielded jobs flushed) ∧ ws = loop.pending.map .insertBatch
  | .enqueueJobs loop rows _ => loop.pending = [] ∧
    loop.Buffers c yielded (jobs ++ rows.map (fun row => row.planned.job)) yielded
  | .writeTotals e b => c.Flushed yielded jobs e b
  | .closeOrStart e b => c.Flushed yielded jobs e b
  | .totalsCommit e b => c.Flushed yielded jobs e b
  | .done (.planned e b) =>
    c.Flushed yielded jobs e b ∧ c.action.map BulkAction.totals = some (e, b)
  | _ => True

/-- The same for the worker of the pass. -/
def Proc.Publishes (c : Tables) (ws : List Write) (yielded : List PlannedBatch)
    (jobs : List BatchJob) : Proc → Prop
  | .idle => c.HoldsPlan [] ∧ yielded = [] ∧ jobs = []
  | .plan pc => pc.Publishes c ws yielded jobs
  | .lost job => job = .plan
  | _ => False

section Rows

variable {c c' : Tables} {ws : List Write} {yielded : List PlannedBatch} {jobs : List BatchJob}

@[simp] theorem planned_plannedRow (planned : PlannedBatch) :
    (plannedRow planned).planned = planned := rfl

theorem Tables.HoldsPlan.mono {plan : List PlannedBatch} (h : c.HoldsPlan plan)
    (hrows : ∀ i, (c'.batches i).map BulkActionBatch.planned =
      (c.batches i).map BulkActionBatch.planned) : c'.HoldsPlan plan :=
  fun i => (hrows i).trans (h i)

theorem PlanLoop.Buffers.mono {flushed : List PlannedBatch} {loop : PlanLoop}
    (h : loop.Buffers c yielded jobs flushed)
    (hrows : ∀ i, (c'.batches i).map BulkActionBatch.planned =
      (c.batches i).map BulkActionBatch.planned) : loop.Buffers c' yielded jobs flushed :=
  { h with rows := h.rows.mono hrows }

theorem Tables.Flushed.mono {e b : Nat} (h : c.Flushed yielded jobs e b)
    (hrows : ∀ i, (c'.batches i).map BulkActionBatch.planned =
      (c.batches i).map BulkActionBatch.planned) : c'.Flushed yielded jobs e b :=
  { h with rows := h.rows.mono hrows }

/-- What a pass has published stays so while the rows keep their plans and the action its
totals. -/
theorem publishes_mono {proc : Proc} (h : proc.Publishes c ws yielded jobs)
    (hrows : ∀ i, (c'.batches i).map BulkActionBatch.planned =
      (c.batches i).map BulkActionBatch.planned)
    (htotals : c'.action.map BulkAction.totals = c.action.map BulkAction.totals) :
    proc.Publishes c' ws yielded jobs := by
  cases proc with
  | idle => exact ⟨h.1.mono hrows, h.2⟩
  | plan pc =>
    cases pc with
    | loadAction | setPlanning _ | planningCommit _ => exact ⟨h.1.mono hrows, h.2⟩
    | nextBatch loop | insertRows loop last =>
      obtain ⟨flushed, hbuffers⟩ := h
      exact ⟨flushed, hbuffers.mono hrows⟩
    | rowsCommit loop last =>
      obtain ⟨⟨flushed, hbuffers⟩, hws⟩ := h
      exact ⟨⟨flushed, hbuffers.mono hrows⟩, hws⟩
    | enqueueJobs loop rows last => exact ⟨h.1, h.2.mono hrows⟩
    | writeTotals e b | closeOrStart e b | totalsCommit e b => exact Tables.Flushed.mono h hrows
    | done ret =>
      cases ret with
      | planned e b => exact ⟨h.1.mono hrows, htotals.trans h.2⟩
      | _ => trivial
    | _ => trivial
  | lost job => exact h
  | _ => exact h.elim

/-- A commit of anything but a planning pass keeps the plans of the rows and the totals. -/
theorem effect_keeps_plan {settings : Settings} {proc : Proc} (h : Effect settings c proc c')
    (hproc : ∀ pc, proc ≠ .plan pc) :
    (∀ i, (c'.batches i).map BulkActionBatch.planned =
      (c.batches i).map BulkActionBatch.planned) ∧
      c'.action.map BulkAction.totals = c.action.map BulkAction.totals := by
  constructor
  · intro i
    rcases effect_row h i with hsame | ⟨_, _, _, rfl, _⟩ | ⟨_, _, u, now, _, _, _, hnew⟩
    · rw [hsame]
    · exact absurd rfl (hproc _)
    · rw [hnew, Option.map_map]
      refine congrArg (fun f => Option.map f _) (funext fun row => ?_)
      cases u <;> rfl
  · cases h with
    | planning | rows _ _ | totals | started _ _ | planFailed _ _ | planFailedLate =>
      exact absurd rfl (hproc _)
    | batchCancelled | attempt _ | attemptLate | notFinalized => rfl
    | work | finalized _ | batchFailed | cancelled _ =>
      simp only [Tables.updateAction_action, Tables.updateBatch_action, Tables.addLogs_action,
        Option.map_map]
      rfl

end Rows

section Pass

variable {c : Tables} {ws : List Write} {yielded flushed : List PlannedBatch}
  {jobs : List BatchJob} {loop : PlanLoop}

theorem start_buffers (hrows : c.HoldsPlan []) (action : BulkAction) :
    (PlanLoop.start action).Buffers c [] [] [] where
  split := rfl
  rows := hrows
  jobs := rfl
  entities := rfl
  batches := rfl
  numbered := rfl
  source := start_yieldsFrom _ _

/-- A yielded batch goes to the end of the buffer. -/
theorem append_buffers (h : loop.Buffers c yielded jobs flushed) {planned : PlannedBatch}
    {source : PlanSource} (hindex : planned.index = yielded.length)
    (hsource : source.YieldsFrom (yielded.length + 1)) :
    (loop.append planned source).Buffers c (yielded ++ [planned]) jobs flushed where
  split := by simp [PlanLoop.append, h.split]
  rows := h.rows
  jobs := h.jobs
  entities := by simp [PlanLoop.append, h.entities]
  batches := by simp [PlanLoop.append, h.batches]
  numbered := by simp [h.numbered, hindex, List.range_succ]
  source := by simpa [PlanLoop.append] using hsource

/-- The rows of a buffer are those of the next indices. -/
theorem pending_index (h : loop.Buffers c yielded jobs flushed) :
    loop.pending.map BulkActionBatch.batchIndex =
      List.range' flushed.length loop.pending.length := by
  have hnumbered := congrArg (List.drop flushed.length) h.numbered
  rw [h.split, List.map_append, List.drop_left' (by simp), List.map_map] at hnumbered
  rw [show BulkActionBatch.batchIndex = PlannedBatch.index ∘ BulkActionBatch.planned from rfl,
    hnumbered]
  simp [List.range_eq_range', List.drop_range']

/-- A row of the buffer is not in the table yet. -/
theorem pending_fresh (h : loop.Buffers c yielded jobs flushed) {row : BulkActionBatch}
    (hrow : row ∈ loop.pending) : c.batches row.batchIndex = none := by
  have hindex : row.batchIndex ∈ loop.pending.map BulkActionBatch.batchIndex :=
    List.mem_map_of_mem hrow
  rw [pending_index h, List.mem_range'_1] at hindex
  have hnone := h.rows row.batchIndex
  rw [List.getElem?_eq_none hindex.1, Option.map_eq_none_iff] at hnone
  exact hnone

/-- A flush commits the rows of the buffer and owes their jobs. -/
theorem flush_buffers (h : loop.Buffers c yielded jobs flushed) :
    PlanLoop.Buffers (c.addBatches loop.pending) yielded
      (jobs ++ loop.pending.map (fun row => row.planned.job)) yielded
      { loop with pending := [] } where
  split := (List.append_nil _).symm
  rows := by
    intro i
    have hindex := pending_index h
    rw [h.split]
    by_cases hi : i ∈ loop.pending.map BulkActionBatch.batchIndex
    · obtain ⟨k, hk⟩ := List.mem_iff_getElem?.mp hi
      rw [List.getElem?_map, Option.map_eq_some_iff] at hk
      obtain ⟨row, hrow, rfl⟩ := hk
      have hplace : row.batchIndex = flushed.length + k := by
        have hat := congrArg (fun xs => xs[k]?) hindex
        obtain ⟨hlt, rfl⟩ := List.getElem?_eq_some_iff.mp hrow
        simpa [hlt] using hat
      rw [addBatches_mem (hindex ▸ List.nodup_range') (List.mem_of_getElem? hrow), hplace,
        List.getElem?_append_right (Nat.le_add_right _ _), Nat.add_sub_cancel_left,
        List.getElem?_map, hrow]
    · rw [addBatches_notMem hi, h.rows i]
      rw [hindex, List.mem_range'_1] at hi
      by_cases hlt : i < flushed.length
      · rw [List.getElem?_append_left hlt]
      · rw [List.getElem?_eq_none (by omega), List.getElem?_eq_none]
        rw [List.length_append, List.length_map]
        omega
  jobs := by simp [h.jobs, h.split]
  entities := h.entities
  batches := h.batches
  numbered := h.numbered
  source := h.source

theorem flushed_of_buffers (h : loop.Buffers c yielded jobs yielded) :
    c.Flushed yielded jobs loop.totalEntities loop.totalBatches :=
  ⟨h.rows, h.jobs, h.entities, h.batches, h.numbered⟩

theorem afterFlush_publishes (h : loop.Buffers c yielded jobs yielded) (last : Bool) :
    (PlanPc.afterFlush loop last).Publishes c ws yielded jobs := by
  unfold PlanPc.afterFlush
  split_ifs
  · exact flushed_of_buffers h
  · exact ⟨yielded, h⟩

theorem afterPage_publishes (h : loop.Buffers c yielded jobs flushed) (ext : External) :
    (PlanPc.afterPage loop ext.page).Publishes c ws
      (yielded ++ ((PlanPc.nextBatch loop).yields ext).toList) jobs := by
  have hyields : (PlanPc.nextBatch loop).yields ext =
      (loop.source.next loop.action.batchSize ext.page).map Prod.fst := rfl
  rw [hyields]
  unfold PlanPc.afterPage
  cases hnext : loop.source.next loop.action.batchSize ext.page with
  | none =>
    simp only [Option.map_none, Option.toList_none, List.append_nil]
    split_ifs with hempty
    · have hall : yielded = flushed := by simp [h.split, List.isEmpty_iff.mp hempty]
      exact afterFlush_publishes (hall ▸ h) true
    · exact ⟨flushed, h⟩
  | some yield =>
    obtain ⟨planned, source⟩ := yield
    obtain ⟨hindex, hsource⟩ := next_yieldsFrom h.source hnext
    have happend := append_buffers h hindex hsource
    simp only [Option.map_some, Option.toList_some]
    split_ifs
    · exact ⟨flushed, happend⟩
    · exact ⟨flushed, happend⟩

theorem publishes_silent {pc next : PlanPc} {ext : External} (hyields : pc.yields ext = none)
    (hcalls : pc.calls = none) (h : next.Publishes c ws yielded jobs) :
    next.Publishes c ws (yielded ++ (pc.yields ext).toList) (jobs ++ pc.calls.toList) := by
  simpa [hyields, hcalls] using h

/-- The commit of the totals leaves the rows alone. -/
theorem totalsCommit_publishes {e b : Nat} (h : c.Flushed yielded jobs e b)
    (hw : (PlanPc.totalsCommit e b).Wrote ws) (haction : c.action.isSome) :
    (PlanPc.done (.planned e b)).Publishes (ReadCommitted.replay Write.apply ws c) [] yielded
      jobs := by
  obtain ⟨a, ha⟩ := Option.isSome_iff_exists.mp haction
  obtain ⟨now, rfl | ⟨now', rfl⟩⟩ := hw
  · refine ⟨h.mono (fun _ => rfl), ?_⟩
    simp [Write.apply, ha, ActionUpdate.set, BulkAction.totals]
  · refine ⟨h.mono (fun _ => rfl), ?_⟩
    split_ifs
    · simp [Write.apply, ha, ActionUpdate.set, BulkAction.totals]
    · simp [Write.apply, ha, ActionUpdate.set, BulkAction.totals]

/-- The step lemma: a planning pass that goes on has published what its next point says. -/
theorem plan_publishes {w w' : World} {p : Pid} {ext : External} {reply : Reply}
    {pc next : PlanPc} (hw : pc.Wrote (w.db.writes p)) (hpresent : pc.Present w.committed)
    (h : pc.Publishes w.committed (w.db.writes p) yielded jobs)
    (he : w.exec p ext.now pc.stmt = some (w', reply)) (hn : pc.resume ext reply = .ok next) :
    next.Publishes w'.committed (w'.db.writes p) (yielded ++ (pc.yields ext).toList)
      (jobs ++ pc.calls.toList) := by
  have unseen : pc.stmt ≠ .commit → w'.committed = w.committed := by
    intro hst
    rcases exec_committed he with ⟨hc, _⟩ | ⟨hcommit, _⟩
    · exact hc
    · exact absurd hcommit hst
  cases pc with
  | loadAction =>
    rw [unseen (by simp [PlanPc.stmt])]
    refine publishes_silent rfl rfl ?_
    simp only [PlanPc.resume] at hn
    split at hn
    next =>
      cases Except.ok.inj hn
      trivial
    next a _ =>
      cases Except.ok.inj hn
      split_ifs
      · trivial
      · exact h
  | setPlanning a =>
    rw [unseen (by simp [PlanPc.stmt])]
    cases Except.ok.inj hn
    exact publishes_silent rfl rfl h
  | planningCommit a =>
    cases Except.ok.inj hn
    refine publishes_silent rfl rfl ?_
    obtain ⟨now, hws⟩ := hw
    obtain ⟨hrows, rfl, rfl⟩ := h
    rw [commit_eq he, hws]
    exact ⟨[], start_buffers (by exact hrows) a⟩
  | nextBatch loop =>
    rw [unseen (by simp [PlanPc.stmt])]
    cases Except.ok.inj hn
    obtain ⟨flushed, hbuffers⟩ := h
    simpa only [PlanPc.calls, Option.toList_none, List.append_nil] using
      afterPage_publishes hbuffers ext
  | insertRows loop last =>
    rw [unseen (by simp [PlanPc.stmt])]
    cases Except.ok.inj hn
    refine publishes_silent rfl rfl ?_
    have hws : w.db.writes p = [] := hw
    obtain ⟨fresh, hfresh, _, rfl⟩ := exec_insertBatches he
    obtain ⟨flushed, hbuffers⟩ := h
    have hall : fresh = loop.pending := by
      rw [hfresh, view_eq_committed hws]
      exact List.filter_eq_self.mpr (fun row hrow => by rw [pending_fresh hbuffers hrow]; rfl)
    rw [insertAll_writes_self, hws, hall]
    exact ⟨⟨flushed, hbuffers⟩, rfl⟩
  | rowsCommit loop last =>
    cases Except.ok.inj hn
    refine publishes_silent rfl rfl ?_
    obtain ⟨⟨flushed, hbuffers⟩, hws⟩ := h
    rw [commit_eq he, hws]
    exact ⟨rfl, flush_buffers hbuffers⟩
  | enqueueJobs loop rows last =>
    obtain ⟨hpending, hbuffers⟩ := h
    cases rows with
    | nil =>
      rw [unseen (by simp [PlanPc.stmt])]
      cases Except.ok.inj hn
      rw [List.map_nil, List.append_nil] at hbuffers
      exact publishes_silent rfl rfl (afterFlush_publishes hbuffers last)
    | cons row rows =>
      rw [unseen (by simp [PlanPc.stmt])]
      cases Except.ok.inj hn
      refine ⟨hpending, ?_⟩
      simpa [PlanPc.yields, PlanPc.calls] using hbuffers
  | writeTotals e b =>
    rw [unseen (by simp [PlanPc.stmt])]
    cases Except.ok.inj hn
    exact publishes_silent rfl rfl h
  | closeOrStart e b =>
    rw [unseen (by simp [PlanPc.stmt])]
    cases Except.ok.inj hn
    exact publishes_silent rfl rfl h
  | totalsCommit e b =>
    cases Except.ok.inj hn
    refine publishes_silent rfl rfl ?_
    rw [commit_eq he, exec_commit_writes he]
    exact totalsCommit_publishes h hw hpresent
  | failUpdate error =>
    cases Except.ok.inj hn
    trivial
  | failCommit error => cases hn
  | done ret =>
    rw [unseen (by simp [PlanPc.stmt])]
    cases Except.ok.inj hn
    refine publishes_silent rfl rfl ?_
    cases ret with
    | planned e b => exact h
    | _ => trivial

end Pass

section Labels

variable {env : Env} {s : Sys} {p : Pid} {l : Label} {ext : External} {pc : PlanPc}

theorem yields_ne (h : l.pid ≠ p) : s.yields p l = none := by
  cases l with
  | run q ext =>
    simp only [Sys.yields]
    split
    · exact if_neg h
    · rfl
  | _ => rfl

theorem yields_self (hp : s.procs p = .plan pc) : s.yields p (.run p ext) = pc.yields ext := by
  simp [Sys.yields, hp]

theorem enqueues_self (hp : s.procs p = .plan pc) : s.enqueues env (.run p ext) = pc.calls := by
  simp only [Sys.enqueues, hp]
  cases pc with
  | enqueueJobs loop rows last => cases rows <;> rfl
  | _ => rfl

/-- An exception does not turn another task into a planning pass. -/
theorem handler_plan {proc : Proc} {error : String} (h : proc.handler env error = .plan pc) :
    (∃ pc', proc = .plan pc') ∧ pc = .failUpdate error := by
  cases proc with
  | plan pc' =>
    cases pc' <;> cases h <;> exact ⟨⟨_, rfl⟩, rfl⟩
  | batch job pc' =>
    rcases handler_batch env error job pc' with ⟨hlost, _⟩ | ⟨n, _, _, hmark⟩
    · rw [hlost] at h
      cases h
    · rw [hmark] at h
      cases h
  | _ => cases h

/-- How a worker comes to a point of a planning pass. -/
inductive PlansBy (env : Env) (s s' : Sys) : Label → PlanPc → Prop where
  | delivered {q} : PlansBy env s s' (.deliver q .plan) .loadAction
  | duplicated {q} : PlansBy env s s' (.duplicate q .plan) .loadAction
  | redelivered {q} : s.procs q = .lost .plan → PlansBy env s s' (.redeliver q) .loadAction
  | goesOn {q ext pc next reply} : s.procs q = .plan pc →
      s.world.exec q ext.now pc.stmt = some (s'.world, reply) → pc.resume ext reply = .ok next →
      PlansBy env s s' (.run q ext) next
  | fails {q pc error} : s.procs q = .plan pc →
      PlansBy env s s' (.raise q error) (.failUpdate error)

theorem plansBy {s' : Sys} (hs : Consistent env s) (h : s.step env l = some s')
    (hq : s'.procs l.pid = .plan pc) : PlansBy env s s' l pc := by
  cases step_moves hs h with
  | @deliver q job _ _ =>
    rw [Label.pid, set_procs_self] at hq
    cases job <;> cases hq
    exact .delivered
  | @duplicate q job _ =>
    rw [Label.pid, set_procs_self] at hq
    cases job <;> cases hq
    exact .duplicated
  | @redeliver q job hlost =>
    rw [Label.pid, set_procs_self] at hq
    cases job <;> cases hq
    exact .redelivered hlost
  | @plan q ext pc' next w reply hplan _ he hn _ =>
    rw [Label.pid, set_procs_self] at hq
    cases hq
    exact .goesOn hplan he hn
  | @raise q error _ _ =>
    rw [Label.pid, set_procs_self] at hq
    obtain ⟨⟨pc', hplan⟩, rfl⟩ := handler_plan hq
    exact .fails hplan
  | @crash q _ =>
    rw [Label.pid, set_procs_self] at hq
    cases hproc : s.procs q with
    | _ => rw [hproc] at hq; cases hq
  | _ =>
    rw [Label.pid, set_procs_self] at hq
    cases hq

end Labels

namespace Planning

variable {env : Env} {p : Pid} {x x' : Planning} {l : Label}

theorem step_eq (h : x.step env p l = some x') :
    ∃ s, x.sys.step env l = some s ∧ x' =
      { sys := s
        yielded := x.yielded ++ (x.sys.yields p l).toList
        enqueued := if l.pid = p then x.enqueued ++ (x.sys.enqueues env l).toList else x.enqueued
        called := x.called ++ (x.sys.enqueues env l).toList } := by
  obtain ⟨s, hs, rfl⟩ := Option.map_eq_some_iff.mp h
  exact ⟨s, hs, rfl⟩

/-- Worker `p` is the only one that plans, and has published what it says. -/
structure FirstSafe (env : Env) (p : Pid) (x : Planning) : Prop where
  consistent : Consistent env x.sys
  single : ∀ q pc, x.sys.procs q = .plan pc → q = p
  publishes : (x.sys.procs p).Publishes x.sys.world.committed (x.sys.world.db.writes p) x.yielded
    x.enqueued

theorem firstSafe_begins (h : x.Begins) : FirstSafe env p x where
  consistent := consistent_atRest h.rest
  single := by
    intro q pc hq
    rw [h.rest.idle q] at hq
    cases hq
  publishes := by
    rw [h.rest.idle p]
    exact ⟨fun i => by rw [h.rows i]; rfl, h.yielded, h.enqueued⟩

/-- No second worker begins to plan. -/
theorem single_step {s' : Sys} (hx : FirstSafe env p x) (hfirst : FirstPass p x l)
    (h : x.sys.step env l = some s') : ∀ q pc, s'.procs q = .plan pc → q = p := by
  intro q pc hq
  by_cases hpid : q = l.pid
  · subst hpid
    cases plansBy hx.consistent h hq with
    | delivered | duplicated => exact hfirst.mp rfl
    | redelivered hlost => exact absurd rfl (hfirst _ hlost)
    | goesOn hplan _ _ => exact hx.single _ _ hplan
    | fails hplan => exact hx.single _ _ hplan
  · rw [step_procs_ne h hpid] at hq
    exact hx.single q pc hq

/-- What the others do leaves the pass what it has published. -/
theorem publishes_other {s' : Sys} (hx : FirstSafe env p x) (hpid : p ≠ l.pid)
    (h : x.sys.step env l = some s') :
    (s'.procs p).Publishes s'.world.committed (s'.world.db.writes p) x.yielded x.enqueued := by
  rw [step_procs_ne h hpid, step_writes_ne h hpid]
  rcases step_effect hx.consistent h with hsame | ⟨q, ext, rfl, _, heffect⟩
  · rw [hsame]
    exact hx.publishes
  · obtain ⟨hrows, htotals⟩ := effect_keeps_plan heffect
      (fun pc hplan => hpid (hx.single q pc hplan).symm)
    exact publishes_mono hx.publishes hrows htotals

/-- A step of the pass itself. -/
theorem publishes_own {s' : Sys} (hx : FirstSafe env p x) (hfirst : FirstPass p x l)
    (hpid : p = l.pid) (h : x.sys.step env l = some s') :
    (s'.procs p).Publishes s'.world.committed (s'.world.db.writes p)
      (x.yielded ++ (x.sys.yields p l).toList)
      (x.enqueued ++ (x.sys.enqueues env l).toList) := by
  subst hpid
  have hpub := hx.publishes
  cases step_moves hx.consistent h with
  | @deliver q job hidle _ | @duplicate q job hidle =>
    cases hfirst.mpr rfl
    simp only [Label.pid, hidle] at hpub ⊢
    rw [set_procs_self]
    simp only [Sys.yields, Sys.enqueues, Option.toList_none, List.append_nil]
    exact hpub
  | @redeliver q job hlost =>
    simp only [Label.pid, hlost] at hpub
    exact absurd hpub (hfirst job hlost)
  | cancel _ => exact absurd rfl hfirst
  | @plan q ext pc next w reply hplan _ he hn _ =>
    have hw := hx.consistent.wrote q
    have hpresent := hx.consistent.present q
    simp only [Label.pid, hplan] at hpub hw hpresent ⊢
    rw [set_procs_self, yields_self hplan, enqueues_self hplan]
    exact plan_publishes hw hpresent hpub he hn
  | planFailed _ _ _ =>
    rw [Label.pid, set_procs_self]
    rfl
  | @raise q error hrunning _ =>
    rw [Label.pid, set_procs_self]
    cases hproc : x.sys.procs q with
    | plan pc => cases pc <;> first | rfl | trivial
    | idle => simp [hproc, Proc.running] at hrunning
    | lost job => simp [hproc, Proc.running] at hrunning
    | batch job pc => simp [Label.pid, hproc, Proc.Publishes] at hpub
    | cancel pc => simp [Label.pid, hproc, Proc.Publishes] at hpub
  | @crash q hrunning =>
    rw [Label.pid, set_procs_self]
    cases hproc : x.sys.procs q with
    | plan pc => rfl
    | idle => simp [hproc, Proc.running] at hrunning
    | lost job => simp [hproc, Proc.running] at hrunning
    | batch job pc => simp [Label.pid, hproc, Proc.Publishes] at hpub
    | cancel pc => simp [Label.pid, hproc, Proc.Publishes] at hpub
  | batch hproc _ _ _ | refused hproc | cancelling hproc _ _ _ | swallow hproc =>
    simp [Label.pid, hproc, Proc.Publishes] at hpub

theorem firstSafe_step (hx : FirstSafe env p x) (hfirst : FirstPass p x l)
    (h : x.step env p l = some x') : FirstSafe env p x' := by
  obtain ⟨s, hs, rfl⟩ := step_eq h
  refine ⟨consistent_step hx.consistent hs, single_step hx hfirst hs, ?_⟩
  by_cases hpid : p = l.pid
  · rw [if_pos hpid.symm]
    exact publishes_own hx hfirst hpid hs
  · rw [if_neg (Ne.symm hpid), yields_ne (Ne.symm hpid), Option.toList_none, List.append_nil]
    exact publishes_other (x := x) hx hpid hs

/-- A pass that has returned has published its plan. -/
theorem published_of_done (hx : FirstSafe env p x) {e b : Nat}
    (hdone : x.sys.procs p = .plan (.done (.planned e b))) : x.Published e b := by
  have hpub := hx.publishes
  rw [hdone] at hpub
  obtain ⟨hflushed, htotals⟩ := hpub
  obtain ⟨a, ha, haction⟩ := Option.map_eq_some_iff.mp htotals
  have hindex : ∀ (k : Nat) (planned : PlannedBatch), x.yielded[k]? = some planned →
      planned.index = k := by
    intro k planned hk
    have hat := congrArg (fun xs => xs[k]?) hflushed.numbered
    obtain ⟨hlt, rfl⟩ := List.getElem?_eq_some_iff.mp hk
    simpa [hlt] using hat
  refine ⟨hflushed.numbered ▸ List.nodup_range, fun planned hplanned => ?_, fun i row hrow => ?_,
    hflushed.jobs, hflushed.entities, hflushed.batches,
    ⟨a, ha, congrArg Prod.fst haction, congrArg Prod.snd haction⟩⟩
  · obtain ⟨k, hk⟩ := List.mem_iff_getElem?.mp hplanned
    rw [hflushed.rows, hindex k planned hk, hk]
  · have hat := hflushed.rows i
    rw [hrow, Option.map_some] at hat
    exact ⟨hindex i _ hat.symm, List.mem_of_getElem? hat.symm⟩

/-- The rows of all jobs are committed, and so are those of the jobs the planners are about to
enqueue. -/
structure Covered (env : Env) (x : Planning) : Prop where
  consistent : Consistent env x.sys
  sound : ∀ q pc, x.sys.procs q = .plan pc →
    (Proc.plan pc).Sound x.sys.world.committed (x.sys.world.db.writes q)
  rows : ∀ job ∈ x.called, (x.sys.world.committed.batches job.index).isSome

theorem covered_begins (h : x.Begins) : Covered env x where
  consistent := consistent_atRest h.rest
  sound := by
    intro q pc hq
    rw [h.rest.idle q] at hq
    cases hq
  rows := by simp [h.called]

/-- Whoever calls `enqueue_job`, the row of the batch is committed. -/
theorem row_of_enqueues (hx : Covered env x) {job : BatchJob}
    (h : x.sys.enqueues env l = some job) :
    (x.sys.world.committed.batches job.index).isSome := by
  obtain ⟨q, ext, rfl, hst⟩ := enqueues_eq_some h
  rcases enqueue_cases hst with ⟨loop, row, rows, last, hplan, hjob⟩ | ⟨job', ms, hbatch, hjob⟩
  · cases hjob
    exact hx.sound q _ hplan row List.mem_cons_self
  · cases hjob
    have hpresent := hx.consistent.present q
    rw [hbatch] at hpresent
    exact hpresent.2

theorem sound_planners {s' : Sys} (hx : Covered env x) (h : x.sys.step env l = some s') :
    ∀ q pc, s'.procs q = .plan pc →
      (Proc.plan pc).Sound s'.world.committed (s'.world.db.writes q) := by
  intro q pc hq
  by_cases hpid : q = l.pid
  · subst hpid
    cases plansBy hx.consistent h hq with
    | delivered | duplicated | redelivered _ => trivial
    | @goesOn q ext pc' next reply hplan he hn =>
      have hw := hx.consistent.wrote q
      rw [hplan] at hw
      exact planMove_sound hw he hn (hx.sound q pc' hplan)
    | fails _ => trivial
  · have hplan : x.sys.procs q = .plan pc := (step_procs_ne h hpid).symm.trans hq
    have hpresent := hx.consistent.present q
    rw [hplan] at hpresent
    rw [step_writes_ne h hpid]
    exact sound_mono (hx.sound q pc hplan) hpresent (fun _ => step_batch_isSome hx.consistent h)
      (fun _ => pending_step hx.consistent h)

theorem covered_step (hx : Covered env x) (h : x.step env p l = some x') : Covered env x' := by
  obtain ⟨s, hs, rfl⟩ := step_eq h
  refine ⟨consistent_step hx.consistent hs, sound_planners hx hs, fun job hjob => ?_⟩
  apply step_batch_isSome hx.consistent hs
  rcases List.mem_append.mp hjob with hjob | hjob
  · exact hx.rows job hjob
  · exact row_of_enqueues hx (Option.mem_toList.mp hjob)

/-- The first planning pass that completes publishes exactly its plan, and no run of the platform
enqueues a job whose row is not committed. -/
theorem plan_published {x₀ : Planning} (hx₀ : x₀.Begins) (env : Env) (p : Pid) :
    (∀ x, Runs.Reaches (step env p) (FirstPass p) x₀ x → ∀ e b,
      x.sys.procs p = .plan (.done (.planned e b)) → x.Published e b) ∧
    ∀ x, Runs.Reaches (step env p) Runs.anyStep x₀ x → ∀ job ∈ x.called,
      (x.sys.world.committed.batches job.index).isSome := by
  constructor
  · intro x hx e b hdone
    exact published_of_done (hx.invariant firstSafe_step (firstSafe_begins hx₀)) hdone
  · intro x hx
    have hcovered : Covered env x :=
      hx.invariant (fun hy _ hstep => covered_step hy hstep) (covered_begins hx₀)
    exact hcovered.rows

/-- A submitted action whose planning pass is to be followed. -/
def submitted : Planning := ⟨queuedContacts, [], [], []⟩

theorem submitted_begins : submitted.Begins where
  rest := Tables.sys_atRest _ _
  rows := fun _ => rfl
  queue := by
    intro job hjob
    cases List.mem_singleton.mp hjob
  yielded := rfl
  enqueued := rfl
  called := rfl

/-- The pass flushes the batches of a hundred contacts and then that of the last one. -/
def planLabels : List Label :=
  .deliver 0 .plan :: List.replicate 3 (.run 0 {}) ++
    (List.range 100).map (fun i => .run 0 { page := [i] }) ++ List.replicate 103 (.run 0 {}) ++
    .run 0 { page := [100] } :: List.replicate 8 (.run 0 {})

def firstPassCheck (_ : Planning) : Label → Bool
  | .deliver q job => decide (job = .plan ∧ q = 0)
  | .run _ _ => true
  | _ => false

/-- What the pass has returned. -/
def returned (x : Planning) : Option PlanReturn :=
  match x.sys.procs 0 with
  | .plan (.done ret) => some ret
  | _ => none

theorem returned_eq_some {x : Planning} {ret : PlanReturn} (h : x.returned = some ret) :
    x.sys.procs 0 = .plan (.done ret) := by
  unfold returned at h
  split at h
  next hdone =>
    cases h
    exact hdone
  next => cases h

theorem plan_published_contact :
    ∃ x, Runs.Reaches (step defaultEnv 0) (FirstPass 0) submitted x ∧ x.Published 101 101 ∧
      x.enqueued = (List.range 101).map (fun i => ⟨i, 0, 1⟩) ∧
      ∀ job ∈ x.called, (x.sys.world.committed.batches job.index).isSome := by
  have hrun : (Runs.checkedSteps (step defaultEnv 0) firstPassCheck submitted planLabels).map
      (fun x => (x.returned, x.enqueued)) =
        some (some (.planned 101 101), (List.range 101).map (fun i => ⟨i, 0, 1⟩)) := by
    decide +kernel
  obtain ⟨x, hx, hend⟩ := Option.map_eq_some_iff.mp hrun
  obtain ⟨hreturned, henqueued⟩ := Prod.mk.inj hend
  have hdone := returned_eq_some hreturned
  have hfirst : Runs.Reaches (step defaultEnv 0) (FirstPass 0) submitted x := by
    refine Runs.reaches_checked ?_ hx
    intro y l hl
    cases l with
    | deliver q job =>
      obtain ⟨hjob, hq⟩ := of_decide_eq_true hl
      exact ⟨fun _ => hq, fun _ => hjob⟩
    | run q ext => trivial
    | _ => cases hl
  have hany : Runs.Reaches (step defaultEnv 0) Runs.anyStep submitted x :=
    Relation.ReflTransGen.mono (fun _ _ ⟨l, _, hl⟩ => ⟨l, trivial, hl⟩) _ _ hfirst
  obtain ⟨hpublished, hcovered⟩ := plan_published submitted_begins defaultEnv 0
  exact ⟨x, hfirst, hpublished x hfirst 101 101 hdone, henqueued, hcovered x hany⟩

end Planning

end BulkActions
