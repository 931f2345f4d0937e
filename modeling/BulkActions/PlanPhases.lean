import BulkActions.Finalisers

namespace BulkActions

/-- The rows of an action are those with an index below `k`. -/
def Tables.RowsBelow (c : Tables) (k : Nat) : Prop := ∀ i, (c.batches i).isSome ↔ i < k

def Tables.HasStatus (c : Tables) (status : BulkActionStatus) : Prop :=
  ∀ a, c.action = some a → a.status = status

/-- Not planned yet. -/
def Tables.Unplanned (c : Tables) : Prop :=
  c.RowsBelow 0 ∧ ∀ a, c.action = some a → a.status = .queued ∨ a.status = .scheduled

/-- The generator yields batch `k` next. -/
def PlanSource.YieldsFrom (k : Nat) : PlanSource → Prop
  | .filter _ index => index = k
  | .ids rest => rest.map PlannedBatch.index = List.range' k rest.length
  | .exhausted => True

/-- The committed rows, then the pending ones, then what the generator yields, are numbered
consecutively. -/
structure PlanLoop.Numbered (c : Tables) (loop : PlanLoop) (k : Nat) : Prop where
  rows : c.RowsBelow k
  pending : loop.pending.map BulkActionBatch.batchIndex = List.range' k loop.pending.length
  total : loop.totalBatches = k + loop.pending.length
  source : loop.source.YieldsFrom loop.totalBatches
  fresh : ∀ row ∈ loop.pending, row.status = .pending

/-- Where the single planning pass of an action stands, with `ws` its open writes. -/
def PlanPc.Phase (c : Tables) (ws : List Write) : PlanPc → Prop
  | .loadAction => c.Unplanned
  | .setPlanning _ => c.Unplanned
  | .planningCommit _ => c.Unplanned
  | .nextBatch loop => c.HasStatus .planning ∧ ∃ k, loop.Numbered c k
  | .insertRows loop _ => c.HasStatus .planning ∧ ∃ k, loop.Numbered c k
  | .rowsCommit loop _ =>
    c.HasStatus .planning ∧ (∃ k, loop.Numbered c k) ∧ ws = loop.pending.map .insertBatch
  | .enqueueJobs loop _ _ =>
    c.HasStatus .planning ∧ (∃ k, loop.Numbered c k) ∧ loop.pending = []
  | .writeTotals _ b => c.HasStatus .planning ∧ c.RowsBelow b
  | .closeOrStart _ b => c.HasStatus .planning ∧ c.RowsBelow b
  | .totalsCommit e b => c.HasStatus .planning ∧ c.RowsBelow b ∧
    ∃ now now', ws = [.action (.setTotals e b) now,
      .action (if b = 0 then .closeEmpty else .markStarted) now']
  | .done (.planned _ _) => ∀ a, c.action = some a →
    a.status = .processing ∨ a.status = .completed ∨ a.status = .completedWithErrors
  | _ => False

theorem planFromIds_numbered (entityIds : List Uuid) (batchSize : Nat) :
    (planFromIds entityIds batchSize).map PlannedBatch.index =
      List.range' 0 (planFromIds entityIds batchSize).length := by
  apply List.ext_getElem
  · simp
  · intro i h h'
    simp [planFromIds, plannedChunk]

theorem start_yieldsFrom (config : Config) (batchSize : Nat) :
    (PlanSource.start config batchSize).YieldsFrom 0 := by
  unfold PlanSource.start
  split
  · exact planFromIds_numbered _ _
  · rfl

theorem next_yieldsFrom {source source' : PlanSource} {k batchSize : Nat} {page : List Uuid}
    {planned : PlannedBatch} (hs : source.YieldsFrom k)
    (h : source.next batchSize page = some (planned, source')) :
    planned.index = k ∧ source'.YieldsFrom (k + 1) := by
  cases source with
  | filter lastId index =>
    simp only [PlanSource.next] at h
    split at h
    next => simp at h
    next =>
      cases Option.some.inj h
      cases hs
      refine ⟨rfl, ?_⟩
      split
      · trivial
      · rfl
  | ids rest =>
    cases rest with
    | nil => simp [PlanSource.next] at h
    | cons b rest =>
      cases Option.some.inj h
      simp only [PlanSource.YieldsFrom, List.map_cons, List.length_cons, List.range'_succ,
        List.cons.injEq] at hs
      exact hs
  | exhausted => simp [PlanSource.next] at h

theorem start_numbered {c : Tables} (hc : c.RowsBelow 0) (action : BulkAction) :
    (PlanLoop.start action).Numbered c 0 :=
  ⟨hc, rfl, rfl, start_yieldsFrom _ _, by simp [PlanLoop.start]⟩

theorem append_numbered {c : Tables} {loop : PlanLoop} {k : Nat} (hl : loop.Numbered c k)
    {planned : PlannedBatch} {source : PlanSource} (hp : planned.index = loop.totalBatches)
    (hs : source.YieldsFrom (loop.totalBatches + 1)) :
    (loop.append planned source).Numbered c k where
  rows := hl.rows
  pending := by
    simp [PlanLoop.append, plannedRow, hl.pending, hp, hl.total, List.range'_concat]
  total := by
    simp [PlanLoop.append, hl.total, Nat.add_assoc]
  source := hs
  fresh := by
    intro row hrow
    rcases List.mem_append.mp hrow with hrow | hrow
    · exact hl.fresh row hrow
    · simp at hrow
      rw [hrow]
      rfl

theorem addBatches_cons (c : Tables) (row : BulkActionBatch) (rows : List BulkActionBatch) :
    c.addBatches (row :: rows) =
      { c with
        batches := Function.update c.batches row.batchIndex (some row) }.addBatches rows := rfl

theorem addBatches_notMem {c : Tables} {rows : List BulkActionBatch} {i : Nat}
    (h : i ∉ rows.map BulkActionBatch.batchIndex) :
    (c.addBatches rows).batches i = c.batches i := by
  induction rows generalizing c with
  | nil => rfl
  | cons row rows ih =>
    simp only [List.map_cons, List.mem_cons, not_or] at h
    rw [addBatches_cons, ih h.2]
    exact Function.update_of_ne h.1 _ _

theorem addBatches_mem {c : Tables} {rows : List BulkActionBatch}
    (hnd : (rows.map BulkActionBatch.batchIndex).Nodup) {row : BulkActionBatch} (h : row ∈ rows) :
    (c.addBatches rows).batches row.batchIndex = some row := by
  induction rows generalizing c with
  | nil => simp at h
  | cons r rows ih =>
    obtain ⟨hr, hnd⟩ := List.nodup_cons.mp hnd
    rw [addBatches_cons]
    rcases List.mem_cons.mp h with rfl | h
    · rw [addBatches_notMem hr]
      exact Function.update_self _ _ _
    · exact ih hnd h

/-- The rows a flush commits are the next ones. -/
theorem addBatches_numbered {c : Tables} {loop : PlanLoop} {k : Nat} (hl : loop.Numbered c k) :
    PlanLoop.Numbered (c.addBatches loop.pending) { loop with pending := [] }
      (k + loop.pending.length) where
  rows := by
    intro i
    by_cases hi : i ∈ loop.pending.map BulkActionBatch.batchIndex
    · obtain ⟨row, hrow, rfl⟩ := List.mem_map.mp hi
      have hnd : (loop.pending.map BulkActionBatch.batchIndex).Nodup :=
        hl.pending ▸ List.nodup_range'
      rw [addBatches_mem hnd hrow]
      rw [hl.pending, List.mem_range'_1] at hi
      simpa using hi.2
    · rw [addBatches_notMem hi, hl.rows i]
      rw [hl.pending, List.mem_range'_1] at hi
      omega
  pending := rfl
  total := hl.total
  source := hl.source
  fresh := by simp

theorem afterFlush_phase {c : Tables} {ws : List Write} {loop : PlanLoop} {k : Nat} (last : Bool)
    (hst : c.HasStatus .planning) (hl : loop.Numbered c k) (hp : loop.pending = []) :
    (PlanPc.afterFlush loop last).Phase c ws := by
  unfold PlanPc.afterFlush
  split
  · have htot : loop.totalBatches = k := by rw [hl.total, hp]; rfl
    exact ⟨hst, htot ▸ hl.rows⟩
  · exact ⟨hst, k, hl⟩

theorem afterPage_phase {c : Tables} {ws : List Write} {loop : PlanLoop} {k : Nat}
    (page : List Uuid) (hst : c.HasStatus .planning) (hl : loop.Numbered c k) :
    (PlanPc.afterPage loop page).Phase c ws := by
  unfold PlanPc.afterPage
  split
  next =>
    split
    next he => exact afterFlush_phase true hst hl (List.isEmpty_iff.mp he)
    next => exact ⟨hst, k, hl⟩
  next planned source hn =>
    obtain ⟨hi, hs⟩ := next_yieldsFrom hl.source hn
    have happ := append_numbered hl hi hs
    dsimp only
    split
    · exact ⟨hst, k, happ⟩
    · exact ⟨hst, k, happ⟩

theorem hasStatus_updateAction {c : Tables} {u : ActionUpdate} {now : Timestamp}
    {status : BulkActionStatus} (hu : ∀ a, (u.set now a).status = status) :
    (c.updateAction u now).HasStatus status := by
  intro a ha
  obtain ⟨a₀, _, rfl⟩ := Option.map_eq_some_iff.mp ha
  exact hu a₀

/-- A step of the planning pass leads to the next phase. -/
theorem plan_phase {w w' : World} {p : Pid} {ext : External} {reply : Reply} {pc next : PlanPc}
    (hw : pc.Wrote (w.db.writes p)) (ha : w.committed.action.isSome)
    (hph : pc.Phase w.committed (w.db.writes p))
    (he : w.exec p ext.now pc.stmt = some (w', reply)) (hn : pc.resume ext reply = .ok next) :
    next.Phase w'.committed (w'.db.writes p) := by
  cases pc with
  | loadAction =>
    obtain ⟨rfl, hr⟩ := exec_selectAction he
    rw [view_eq_committed hw] at hr
    obtain ⟨a, haction⟩ := Option.isSome_iff_exists.mp ha
    have hlive : ¬ a.status.isTerminal := by
      rcases hph.2 a haction with hst | hst <;> simp [hst, BulkActionStatus.isTerminal]
    simp only [PlanPc.resume, hr, haction, hlive, Except.ok.injEq] at hn
    cases hn
    exact hph
  | setPlanning a =>
    cases exec_updateAction_present (fun _ => rfl) ha he
    cases Except.ok.inj hn
    exact hph
  | planningCommit a =>
    cases Except.ok.inj hn
    obtain ⟨now, hws⟩ := hw
    rw [exec_commit he]
    simp only [World.committed, ReadCommitted.Store.commit_committed, hws]
    exact ⟨hasStatus_updateAction fun _ => rfl, 0, start_numbered (by exact hph.1) a⟩
  | nextBatch loop =>
    cases exec_skip he
    cases Except.ok.inj hn
    obtain ⟨hst, k, hl⟩ := hph
    exact afterPage_phase ext.page hst hl
  | insertRows loop last =>
    cases Except.ok.inj hn
    have hws : w.db.writes p = [] := hw
    obtain ⟨fresh, hfresh, _, rfl⟩ := exec_insertBatches he
    obtain ⟨hst, k, hl⟩ := hph
    have hall : fresh = loop.pending := by
      rw [hfresh, view_eq_committed hws]
      apply List.filter_eq_self.mpr
      intro row hrow
      have hi : row.batchIndex ∈ loop.pending.map BulkActionBatch.batchIndex :=
        List.mem_map_of_mem hrow
      rw [hl.pending, List.mem_range'_1] at hi
      have hnone := (hl.rows row.batchIndex).not.mpr (by omega)
      simpa using hnone
    subst hall
    have hsame : (w.insertAll p loop.pending).committed = w.committed :=
      insertAll_committed w p loop.pending
    rw [hsame, insertAll_writes_self, hws]
    exact ⟨hst, ⟨k, hl⟩, rfl⟩
  | rowsCommit loop last =>
    cases Except.ok.inj hn
    obtain ⟨hst, ⟨k, hl⟩, hws⟩ := hph
    rw [exec_commit he]
    simp only [World.committed, ReadCommitted.Store.commit_committed, hws]
    refine ⟨?_, ⟨_, addBatches_numbered hl⟩, rfl⟩
    intro a ha
    exact hst a (by rwa [← Tables.addBatches_action w.committed loop.pending])
  | enqueueJobs loop rows last =>
    obtain ⟨hst, ⟨k, hl⟩, hpend⟩ := hph
    cases rows with
    | nil =>
      cases exec_skip he
      cases Except.ok.inj hn
      exact afterFlush_phase last hst hl hpend
    | cons row rows =>
      cases exec_enqueue he
      cases Except.ok.inj hn
      exact ⟨hst, ⟨k, hl⟩, hpend⟩
  | writeTotals e b =>
    cases exec_updateAction_present (fun _ => rfl) ha he
    cases Except.ok.inj hn
    exact hph
  | closeOrStart e b =>
    cases Except.ok.inj hn
    obtain ⟨now, hws⟩ := hw
    obtain ⟨a, haction⟩ := Option.isSome_iff_exists.mp ha
    have hst := hph.1 a haction
    have hview : (w.view p).action = some ((ActionUpdate.setTotals e b).set now a) := by
      simp only [World.view, ReadCommitted.Store.view, hws]
      exact congrArg (Option.map _) haction
    rcases exec_updateAction he with ⟨hnone, _, _⟩ | ⟨a', _, _, _, rfl, _⟩
    · rw [hview] at hnone
      split at hnone <;> simp [ActionUpdate.applies, ActionUpdate.set, hst] at hnone
    · exact ⟨hph.1, hph.2, now, ext.now, by simp [hws]⟩
  | totalsCommit e b =>
    cases Except.ok.inj hn
    obtain ⟨_, _, now, now', hws⟩ := hph
    rw [exec_commit he]
    simp only [World.committed, ReadCommitted.Store.commit_committed, hws]
    intro a ha
    obtain ⟨a₀, _, rfl⟩ := Option.map_eq_some_iff.mp ha
    split <;> simp [ActionUpdate.set]
  | failUpdate error => exact hph.elim
  | failCommit error => exact hph.elim
  | done ret =>
    cases exec_skip he
    cases Except.ok.inj hn
    exact hph

end BulkActions
