import BulkActions.PendingRows
import BulkActions.PlanPhases

namespace BulkActions

/-- A planning pass goes on from the rows it has flushed: they are in the table, the buffered
ones are the next, and after them comes what the generator yields. -/
structure PlanLoop.Continues (c : Tables) (loop : PlanLoop) (k : Nat) : Prop where
  flushed : ∀ i < k, (c.batches i).isSome
  pending : loop.pending.map BulkActionBatch.batchIndex = List.range' k loop.pending.length
  total : loop.totalBatches = k + loop.pending.length
  source : loop.source.YieldsFrom loop.totalBatches
  planned : ∀ row ∈ loop.pending, ∃ planned, row = plannedRow planned

/-- Where any planning pass stands, with `ws` its open writes; other passes may have inserted
some of its rows before. -/
def PlanPc.Continues (c : Tables) (ws : List Write) : PlanPc → Prop
  | .nextBatch loop => ∃ k, loop.Continues c k
  | .insertRows loop _ => ∃ k, loop.Continues c k
  | .rowsCommit loop _ => (∃ k, loop.Continues c k) ∧
    ∃ rows : List BulkActionBatch, rows.Sublist loop.pending ∧ ws = rows.map .insertBatch ∧
      ∀ row ∈ loop.pending, row ∈ rows ∨ (c.batches row.batchIndex).isSome
  | .enqueueJobs loop _ _ => (∃ k, loop.Continues c k) ∧ loop.pending = []
  | .writeTotals _ b => ∀ i < b, (c.batches i).isSome
  | .closeOrStart _ b => ∀ i < b, (c.batches i).isSome
  | .totalsCommit _ b => ∀ i < b, (c.batches i).isSome
  | _ => True

def Proc.Continues (c : Tables) (ws : List Write) : Proc → Prop
  | .plan pc => pc.Continues c ws
  | _ => True

/-- The batch rows of an action are numbered from zero without a gap, and the totals count none
that is not there. -/
structure Tables.Numbered (c : Tables) : Prop where
  below : ∃ n, c.RowsBelow n
  index : ∀ i row, c.batches i = some row → row.batchIndex = i
  totals : ∀ a, c.action = some a → ∀ i < a.totalBatches, (c.batches i).isSome

/-- The invariant for any number of planning passes. -/
structure PassSafe (env : Env) (s : Sys) : Prop where
  consistent : Consistent env s
  procs : ∀ p, (s.procs p).Continues s.world.committed (s.world.db.writes p)

section Mono

variable {c c' : Tables} {ws : List Write}

theorem PlanLoop.Continues.mono {loop : PlanLoop} {k : Nat} (h : loop.Continues c k)
    (rows : ∀ i, (c.batches i).isSome → (c'.batches i).isSome) : loop.Continues c' k :=
  { h with flushed := fun i hi => rows i (h.flushed i hi) }

theorem continues_mono {proc : Proc} (h : proc.Continues c ws)
    (rows : ∀ i, (c.batches i).isSome → (c'.batches i).isSome) : proc.Continues c' ws := by
  cases proc with
  | plan pc =>
    cases pc with
    | nextBatch loop =>
      obtain ⟨k, hk⟩ := h
      exact ⟨k, hk.mono rows⟩
    | insertRows loop last =>
      obtain ⟨k, hk⟩ := h
      exact ⟨k, hk.mono rows⟩
    | rowsCommit loop last =>
      obtain ⟨⟨k, hk⟩, inserted, hsub, hws, hall⟩ := h
      exact ⟨⟨k, hk.mono rows⟩, inserted, hsub, hws,
        fun row hrow => (hall row hrow).imp_right (rows _)⟩
    | enqueueJobs loop rest last =>
      obtain ⟨⟨k, hk⟩, hpending⟩ := h
      exact ⟨⟨k, hk.mono rows⟩, hpending⟩
    | writeTotals e b => exact fun i hi => rows i (h i hi)
    | closeOrStart e b => exact fun i hi => rows i (h i hi)
    | totalsCommit e b => exact fun i hi => rows i (h i hi)
    | _ => trivial
  | _ => trivial

end Mono

section Pass

variable {c : Tables} {ws : List Write} {loop : PlanLoop} {k : Nat}

theorem start_continues (c : Tables) (action : BulkAction) :
    (PlanLoop.start action).Continues c 0 :=
  ⟨by simp, rfl, rfl, start_yieldsFrom _ _, by simp [PlanLoop.start]⟩

theorem append_continues (h : loop.Continues c k) {planned : PlannedBatch} {source : PlanSource}
    (hindex : planned.index = loop.totalBatches)
    (hsource : source.YieldsFrom (loop.totalBatches + 1)) :
    (loop.append planned source).Continues c k where
  flushed := h.flushed
  pending := by
    simp [PlanLoop.append, plannedRow, h.pending, hindex, h.total, List.range'_concat]
  total := by
    simp [PlanLoop.append, h.total, Nat.add_assoc]
  source := hsource
  planned := by
    intro row hrow
    rcases List.mem_append.mp hrow with hrow | hrow
    · exact h.planned row hrow
    · exact ⟨planned, List.mem_singleton.mp hrow⟩

theorem pending_nodup (h : loop.Continues c k) :
    (loop.pending.map BulkActionBatch.batchIndex).Nodup :=
  h.pending ▸ List.nodup_range'

theorem afterFlush_continues (h : loop.Continues c k) (hempty : loop.pending = []) (last : Bool) :
    (PlanPc.afterFlush loop last).Continues c ws := by
  unfold PlanPc.afterFlush
  split_ifs
  · have htotal : loop.totalBatches = k := by simp [h.total, hempty]
    exact htotal ▸ h.flushed
  · exact ⟨k, h⟩

theorem afterPage_continues (h : loop.Continues c k) (page : List Uuid) :
    (PlanPc.afterPage loop page).Continues c ws := by
  unfold PlanPc.afterPage
  cases hnext : loop.source.next loop.action.batchSize page with
  | none =>
    dsimp only
    split_ifs with hempty
    · exact afterFlush_continues h (List.isEmpty_iff.mp hempty) true
    · exact ⟨k, h⟩
  | some yield =>
    obtain ⟨planned, source⟩ := yield
    obtain ⟨hindex, hsource⟩ := next_yieldsFrom h.source hnext
    have happend := append_continues h hindex hsource
    dsimp only
    split_ifs
    · exact ⟨k, happend⟩
    · exact ⟨k, happend⟩

/-- After the commit of a flush all the buffered rows are in the table. -/
theorem flush_continues (h : loop.Continues c k) {rows : List BulkActionBatch}
    (hsub : rows.Sublist loop.pending)
    (hall : ∀ row ∈ loop.pending, row ∈ rows ∨ (c.batches row.batchIndex).isSome) :
    PlanLoop.Continues (c.addBatches rows) { loop with pending := [] }
      (k + loop.pending.length) where
  flushed := by
    intro i hi
    by_cases hk : i < k
    · exact replay_batch_isSome _ (h.flushed i hk)
    · have hmem : i ∈ loop.pending.map BulkActionBatch.batchIndex := by
        rw [h.pending, List.mem_range'_1]
        omega
      obtain ⟨row, hrow, rfl⟩ := List.mem_map.mp hmem
      rcases hall row hrow with hins | hthere
      · have hnodup := (pending_nodup h).sublist (hsub.map BulkActionBatch.batchIndex)
        rw [addBatches_mem hnodup hins]
        rfl
      · exact replay_batch_isSome _ hthere
  pending := rfl
  total := h.total
  source := h.source
  planned := by simp

/-- The step lemma: a planning pass that goes on continues from what is committed. -/
theorem plan_continues {w w' : World} {p : Pid} {ext : External} {reply : Reply}
    {pc next : PlanPc} (hpc : pc.Continues w.committed (w.db.writes p))
    (hw : pc.Wrote (w.db.writes p)) (he : w.exec p ext.now pc.stmt = some (w', reply))
    (hn : pc.resume ext reply = .ok next) :
    next.Continues w'.committed (w'.db.writes p) := by
  cases pc with
  | loadAction =>
    simp only [PlanPc.resume] at hn
    split at hn <;> cases Except.ok.inj hn
    · trivial
    · split_ifs <;> trivial
  | planningCommit a =>
    cases Except.ok.inj hn
    exact ⟨0, start_continues _ a⟩
  | nextBatch loop =>
    cases Except.ok.inj hn
    cases exec_skip he
    obtain ⟨k, hk⟩ := hpc
    exact afterPage_continues hk ext.page
  | insertRows loop last =>
    cases Except.ok.inj hn
    obtain ⟨fresh, hfresh, _, rfl⟩ := exec_insertBatches he
    obtain ⟨k, hk⟩ := hpc
    have hnone : w.db.writes p = [] := hw
    have hsame : (w.insertAll p fresh).committed = w.committed := insertAll_committed w p fresh
    rw [view_eq_committed hnone] at hfresh
    rw [hsame]
    refine ⟨⟨k, hk⟩, fresh, hfresh ▸ List.filter_sublist, ?_, ?_⟩
    · rw [insertAll_writes_self, hnone, List.nil_append]
    · intro row hrow
      cases hrow' : w.committed.batches row.batchIndex with
      | none => exact Or.inl (hfresh ▸ List.mem_filter.mpr ⟨hrow, by simp [hrow']⟩)
      | some b => exact Or.inr rfl
  | rowsCommit loop last =>
    cases Except.ok.inj hn
    obtain ⟨⟨k, hk⟩, rows, hsub, hws, hall⟩ := hpc
    cases exec_commit he
    have hcommitted : World.committed { w with db := w.db.commit Write.apply p } =
        w.committed.addBatches rows := by
      rw [World.committed, ReadCommitted.Store.commit_committed, hws]
      rfl
    rw [hcommitted]
    exact ⟨⟨_, flush_continues hk hsub hall⟩, rfl⟩
  | enqueueJobs loop rest last =>
    obtain ⟨⟨k, hk⟩, hempty⟩ := hpc
    cases rest with
    | cons row rest =>
      cases Except.ok.inj hn
      cases exec_enqueue he
      exact ⟨⟨k, hk⟩, hempty⟩
    | nil =>
      cases Except.ok.inj hn
      cases exec_skip he
      exact afterFlush_continues hk hempty last
  | writeTotals e b =>
    cases Except.ok.inj hn
    exact fun i hi => exec_batch_isSome he (hpc i hi)
  | closeOrStart e b =>
    cases Except.ok.inj hn
    exact fun i hi => exec_batch_isSome he (hpc i hi)
  | failCommit error => simp [PlanPc.resume] at hn
  | _ => cases Except.ok.inj hn; trivial

end Pass

section Steps

variable {env : Env} {s s' : Sys} {l : Label}

/-- A commit of another task than a flush inserts no row. -/
theorem effect_same_rows {settings : Settings} {c c' : Tables} {proc : Proc}
    (h : Effect settings c proc c') :
    (∀ i, (c'.batches i).isSome = (c.batches i).isSome) ∨
      ∃ loop last rows, proc = .plan (.rowsCommit loop last) ∧ c' = c.addBatches rows := by
  cases proc with
  | batch job pc => exact Or.inl (batch_effect_isSome h)
  | plan pc =>
    cases h with
    | rows _ _ => exact Or.inr ⟨_, _, _, rfl, rfl⟩
    | _ => exact Or.inl (fun _ => rfl)
  | cancel pc =>
    cases h
    exact Or.inl (fun _ => rfl)
  | idle => cases h
  | lost job => cases h

/-- Only the last commit of a planning pass writes the totals. -/
theorem effect_totals {settings : Settings} {c c' : Tables} {proc : Proc}
    (h : Effect settings c proc c') {a' : BulkAction} (ha' : c'.action = some a') :
    (∃ a, c.action = some a ∧ a'.totalBatches = a.totalBatches) ∨
      ∃ e, proc = .plan (.totalsCommit e a'.totalBatches) := by
  cases h with
  | rows _ _ => exact Or.inl ⟨a', (Tables.addBatches_action ..).symm.trans ha', rfl⟩
  | totals =>
    obtain ⟨a, _, rfl⟩ := Option.map_eq_some_iff.mp ha'
    exact Or.inr ⟨_, rfl⟩
  | @started e b now now' u hu _ =>
    obtain ⟨a, ha, rfl⟩ := Option.map_eq_some_iff.mp ha'
    obtain ⟨a, _, rfl⟩ := Option.map_eq_some_iff.mp ha
    subst hu
    refine Or.inr ⟨e, ?_⟩
    split_ifs <;> rfl
  | planFailedLate => exact Or.inl ⟨a', ha', rfl⟩
  | batchCancelled => exact Or.inl ⟨a', ha', rfl⟩
  | attempt _ => exact Or.inl ⟨a', ha', rfl⟩
  | attemptLate => exact Or.inl ⟨a', ha', rfl⟩
  | notFinalized => exact Or.inl ⟨a', ha', rfl⟩
  | planFailed hu _ =>
    obtain ⟨a, ha, rfl⟩ := Option.map_eq_some_iff.mp ha'
    subst hu
    exact Or.inl ⟨a, ha, rfl⟩
  | _ =>
    obtain ⟨a, ha, rfl⟩ := Option.map_eq_some_iff.mp ha'
    exact Or.inl ⟨a, ha, rfl⟩

theorem numbered_effect {settings : Settings} {c c' : Tables} {proc : Proc} {ws : List Write}
    (h : c.Numbered) (heff : Effect settings c proc c') (hproc : proc.Continues c ws)
    (hrows : ∀ i, (c'.batches i).isSome = (c.batches i).isSome) : c'.Numbered where
  below := by
    obtain ⟨n, hn⟩ := h.below
    exact ⟨n, fun i => by rw [hrows, hn i]⟩
  index := by
    intro i row hrow
    rcases effect_row heff i with
      hsame | ⟨_, _, new, _, _, hnew, _, hc'⟩ | ⟨_, _, u, now, _, _, _, hu⟩
    · exact h.index i row (hsame ▸ hrow)
    · cases Option.some.inj (hrow.symm.trans hc')
      exact hnew
    · obtain ⟨old, hold, rfl⟩ := Option.map_eq_some_iff.mp (hu.symm.trans hrow)
      have hindex := h.index i old hold
      cases u <;> exact hindex
  totals := by
    intro a' ha' i hi
    rw [hrows]
    rcases effect_totals heff ha' with ⟨a, ha, htotal⟩ | ⟨e, rfl⟩
    · exact h.totals a ha i (htotal ▸ hi)
    · exact hproc i hi

theorem numbered_flush {c : Tables} {loop : PlanLoop} {k : Nat} (h : c.Numbered)
    (hk : loop.Continues c k) {rows : List BulkActionBatch} (hsub : rows.Sublist loop.pending)
    (hall : ∀ row ∈ loop.pending, row ∈ rows ∨ (c.batches row.batchIndex).isSome) :
    (c.addBatches rows).Numbered where
  below := by
    obtain ⟨n, hn⟩ := h.below
    have hflushed := (flush_continues hk hsub hall).flushed
    refine ⟨max n (k + loop.pending.length), fun i => ⟨fun hi => ?_, fun hi => ?_⟩⟩
    · rcases addBatches_cases c rows i with hsame | ⟨row, hrow, rfl, _⟩
      · exact lt_max_of_lt_left ((hn i).mp (hsame ▸ hi))
      · have hmem : row.batchIndex ∈ loop.pending.map BulkActionBatch.batchIndex :=
          List.mem_map_of_mem (hsub.subset hrow)
        rw [hk.pending, List.mem_range'_1] at hmem
        exact lt_max_of_lt_right hmem.2
    · rcases lt_max_iff.mp hi with hlt | hlt
      · exact replay_batch_isSome _ ((hn i).mpr hlt)
      · exact hflushed i hlt
  index := by
    intro i row hrow
    rcases addBatches_cases c rows i with hsame | ⟨new, _, hnew, hc'⟩
    · exact h.index i row (hsame ▸ hrow)
    · cases Option.some.inj (hrow.symm.trans hc')
      exact hnew
  totals := by
    intro a ha i hi
    rw [Tables.addBatches_action] at ha
    exact replay_batch_isSome _ (h.totals a ha i hi)

/-- A commit other than that of a flush. -/
theorem publishes_numbered {c c' : Tables} {proc : Proc} (ws : List Write)
    (hpub : Publishes env c proc c') (h : c.Numbered) (hproc : proc.Continues c ws)
    (hflush : ∀ loop last, proc ≠ .plan (.rowsCommit loop last)) : c'.Numbered := by
  rcases hpub with ⟨hsame, _⟩ | ⟨_, heff⟩
  · rwa [hsame]
  · refine numbered_effect h heff hproc ?_
    rcases effect_same_rows heff with hrows | ⟨loop, last, _, hp, _⟩
    · exact hrows
    · exact absurd hp (hflush loop last)

/-- The tables after a statement of a planning pass. -/
theorem plan_numbered {p : Pid} {pc : PlanPc} {w w' : World} {now : Timestamp} {reply : Reply}
    (h : w.committed.Numbered) (hpc : (Proc.plan pc).Continues w.committed (w.db.writes p))
    (he : w.exec p now pc.stmt = some (w', reply))
    (hpub : Publishes env w.committed (.plan pc) w'.committed) : w'.committed.Numbered := by
  cases pc with
  | rowsCommit loop last =>
    obtain ⟨⟨k, hk⟩, rows, hsub, hws, hall⟩ := hpc
    cases exec_commit he
    have hcommitted : World.committed { w with db := w.db.commit Write.apply p } =
        w.committed.addBatches rows := by
      rw [World.committed, ReadCommitted.Store.commit_committed, hws]
      rfl
    rw [hcommitted]
    exact numbered_flush h hk hsub hall
  | _ => exact publishes_numbered _ hpub h hpc (by simp)

theorem job_continues (job : Job) (c : Tables) (ws : List Write) : job.proc.Continues c ws := by
  cases job <;> trivial

/-- The process that takes the step. -/
theorem continues_self (hs : PassSafe env s) (h : s.step env l = some s') :
    (s'.procs l.pid).Continues s'.world.committed (s'.world.db.writes l.pid) := by
  cases step_moves hs.consistent h with
  | deliver => rw [Label.pid, set_procs_self]; exact job_continues _ _ _
  | duplicate => rw [Label.pid, set_procs_self]; exact job_continues _ _ _
  | redeliver => rw [Label.pid, set_procs_self]; exact job_continues _ _ _
  | @plan p ext pc next w reply hp _ he hn _ =>
    have hpc := hs.procs p
    have hw := hs.consistent.wrote p
    rw [hp] at hpc hw
    rw [Label.pid, set_procs_self]
    exact plan_continues hpc hw he hn
  | @raise p error _ _ =>
    rw [Label.pid, set_procs_self]
    cases s.procs p with
    | plan pc => cases pc <;> trivial
    | batch job pc =>
      rcases handler_batch env error job pc with ⟨hlost, _⟩ | ⟨n, _, _, hmark⟩
      · rw [hlost]; trivial
      · rw [hmark]; trivial
    | _ => trivial
  | @crash p _ =>
    rw [Label.pid, set_procs_self]
    cases s.procs p <;> trivial
  | _ => rw [Label.pid, set_procs_self]; trivial

theorem numbered_step (hs : PassSafe env s) (hnumbered : s.world.committed.Numbered)
    (h : s.step env l = some s') : s'.world.committed.Numbered := by
  cases step_moves hs.consistent h with
  | @batch p ext job pc next w reply hp _ _ hpub =>
    exact publishes_numbered [] hpub hnumbered trivial (by simp)
  | @plan p ext pc next w reply hp _ he _ hpub =>
    have hpc := hs.procs p
    rw [hp] at hpc
    exact plan_numbered hnumbered hpc he hpub
  | planFailed _ _ hpub => exact publishes_numbered [] hpub hnumbered trivial (by simp)
  | cancelling _ _ _ hpub => exact publishes_numbered [] hpub hnumbered trivial (by simp)
  | _ => exact hnumbered

theorem passSafe_step (hs : PassSafe env s) (h : s.step env l = some s') : PassSafe env s' where
  consistent := consistent_step hs.consistent h
  procs := by
    intro q
    by_cases hq : q = l.pid
    · rw [hq]
      exact continues_self hs h
    · rw [step_procs_ne h hq, step_writes_ne h hq]
      exact continues_mono (hs.procs q) (fun i hi => step_batch_isSome hs.consistent h hi)

theorem passSafe_atRest (hrest : s.AtRest) : PassSafe env s where
  consistent := consistent_atRest hrest
  procs := fun p => by rw [hrest.idle p]; trivial

theorem passSafe_reaches {ok : Sys → Label → Prop} (hs : PassSafe env s)
    (h : Sys.Reaches env ok s s') : PassSafe env s' :=
  h.invariant (fun hs _ hstep => passSafe_step hs hstep) hs

/-- Whatever passes, deliveries, exceptions and crashes there are, the rows stay numbered. -/
theorem numbered_reaches {ok : Sys → Label → Prop} (hs : PassSafe env s)
    (hnumbered : s.world.committed.Numbered) (h : Sys.Reaches env ok s s') :
    s'.world.committed.Numbered := by
  have both := h.invariant (P := fun s => PassSafe env s ∧ s.world.committed.Numbered)
    (fun hs _ hstep => ⟨passSafe_step hs.1 hstep, numbered_step hs.1 hs.2 hstep⟩) ⟨hs, hnumbered⟩
  exact both.2

end Steps

end BulkActions
