import BulkActions.Consistency

namespace BulkActions

open ReadCommitted

namespace Tables

def updateAction (c : Tables) (u : ActionUpdate) (now : Timestamp) : Tables :=
  { c with action := c.action.map (u.set now) }

def updateBatch (c : Tables) (i : Nat) (u : BatchUpdate) (now : Timestamp) : Tables :=
  { c with batches := Function.update c.batches i ((c.batches i).map (u.set now)) }

def addLogs (c : Tables) (rows : List BulkActionLog) : Tables := { c with logs := c.logs ++ rows }

def addBatches (c : Tables) (rows : List BulkActionBatch) : Tables :=
  replay Write.apply (rows.map .insertBatch) c

variable (c : Tables) (u : ActionUpdate) (v : BatchUpdate) (now : Timestamp) (i : Nat)
  (ls : List BulkActionLog) (rows : List BulkActionBatch)

@[simp] theorem updateAction_action :
    (c.updateAction u now).action = c.action.map (u.set now) := rfl

@[simp] theorem updateAction_batches : (c.updateAction u now).batches = c.batches := rfl

@[simp] theorem updateAction_logs : (c.updateAction u now).logs = c.logs := rfl

@[simp] theorem updateBatch_action : (c.updateBatch i v now).action = c.action := rfl

@[simp] theorem updateBatch_batches :
    (c.updateBatch i v now).batches =
      Function.update c.batches i ((c.batches i).map (v.set now)) := rfl

@[simp] theorem updateBatch_logs : (c.updateBatch i v now).logs = c.logs := rfl

@[simp] theorem addLogs_action : (c.addLogs ls).action = c.action := rfl

@[simp] theorem addLogs_batches : (c.addLogs ls).batches = c.batches := rfl

@[simp] theorem addLogs_logs : (c.addLogs ls).logs = c.logs ++ ls := rfl

@[simp] theorem addBatches_action : (c.addBatches rows).action = c.action :=
  replay_action_of_none (by simp [Write.row])

@[simp] theorem addBatches_logs : (c.addBatches rows).logs = c.logs := by
  apply replay_proj (f := Tables.logs)
  intro w hw d
  obtain ⟨row, _, rfl⟩ := List.mem_map.mp hw
  rfl

end Tables

/-- `_mark_batch_failed` writes one failed outcome per entity of the batch. -/
def failedResult (settings : Settings) (n : Nat) (error : String) : BatchResult :=
  ⟨List.replicate n (batchErrorOutcome settings error)⟩

theorem failedResult_recordUpdate (settings : Settings) (n : Nat) (error : String) :
    (failedResult settings n error).recordUpdate = .recordBatchCompletion n 0 n 0 true := by
  simp [failedResult, BatchResult.recordUpdate, BatchResult.processedCount,
    BatchResult.successCount, BatchResult.failureCount, BatchResult.skippedCount,
    BatchResult.count, batchErrorOutcome, EntityOutcome.failed, List.countP_replicate]

/-- What the commit at a point of a task or request publishes. -/
inductive Effect (settings : Settings) (c : Tables) : Proc → Tables → Prop where
  | planning {a : BulkAction} {now : Timestamp} :
      Effect settings c (.plan (.planningCommit a)) (c.updateAction .setPlanning now)
  | rows {loop : PlanLoop} {last : Bool} {rows : List BulkActionBatch} :
      rows.Sublist loop.pending → (∀ row ∈ rows, c.batches row.batchIndex = none) →
      Effect settings c (.plan (.rowsCommit loop last)) (c.addBatches rows)
  | totals {e b : Nat} {now : Timestamp} :
      Effect settings c (.plan (.totalsCommit e b)) (c.updateAction (.setTotals e b) now)
  | started {e b : Nat} {now now' : Timestamp} {u : ActionUpdate} :
      u = (if b = 0 then .closeEmpty else .markStarted) →
      (∀ a, c.action = some a → u.applies a) →
      Effect settings c (.plan (.totalsCommit e b))
        ((c.updateAction (.setTotals e b) now).updateAction u now')
  | planFailed {error : String} {now : Timestamp} {u : ActionUpdate} :
      u = .failAction ("Planning failed: " ++ error) → (∀ a, c.action = some a → u.applies a) →
      Effect settings c (.plan (.failCommit error)) (c.updateAction u now)
  | planFailedLate {error : String} : Effect settings c (.plan (.failCommit error)) c
  | batchCancelled {job : BatchJob} {now : Timestamp} :
      Effect settings c (.batch job .cancelCommit) (c.updateBatch job.index .cancel now)
  | attempt {job : BatchJob} {n : Nat} {now : Timestamp} :
      (∀ b, c.batches job.index = some b → b.status ≠ .completed) →
      Effect settings c (.batch job (.attemptCommit n))
        (c.updateBatch job.index .recordAttempt now)
  | attemptLate {job : BatchJob} {n : Nat} : Effect settings c (.batch job (.attemptCommit n)) c
  | work {job : BatchJob} {n seq : Nat} {r : BatchResult} {now now' : Timestamp} :
      Effect settings c (.batch job (.workCommit n r))
        (((c.addLogs (World.logRows seq job.index r.outcomes)).updateBatch job.index
          r.completeUpdate now).updateAction r.recordUpdate now')
  | finalized {job : BatchJob} {after : AfterFinalize} {k : Nat} {now : Timestamp} :
      (∀ a, c.action = some a → a.isFinalizable) →
      Effect settings c (.batch job (.finalizeCommit after))
        (c.updateAction (.finalize (finalStatus k)) now)
  | notFinalized {job : BatchJob} {after : AfterFinalize} :
      Effect settings c (.batch job (.finalizeCommit after)) c
  | batchFailed {job : BatchJob} {n seq : Nat} {error : String} {now now' : Timestamp} :
      Effect settings c (.batch job (.markCommit n error))
        (((c.updateBatch job.index (.fail n error) now).addLogs (World.logRows seq job.index
          (failedResult settings n error).outcomes)).updateAction
          (failedResult settings n error).recordUpdate now')
  | cancelled {now : Timestamp} :
      (∀ a, c.action = some a → ¬ a.status.isTerminal) →
      Effect settings c (.cancel .commit) (c.updateAction .cancel now)

theorem LogWrites.replay_eq {i : Nat} {outcomes : List EntityOutcome} {ls : List Write}
    (h : LogWrites i outcomes ls) (c : Tables) :
    ∃ seq, replay Write.apply ls c = c.addLogs (World.logRows seq i outcomes) := by
  rcases h with ⟨rfl, rfl⟩ | ⟨seq, rfl⟩
  · exact ⟨0, by simp [Tables.addLogs, World.logRows]⟩
  · exact ⟨seq, rfl⟩

theorem finalize_applies_iff {a : BulkAction} {status : BulkActionStatus} :
    (ActionUpdate.finalize status).applies a = a.isFinalizable := by
  simp [ActionUpdate.applies, BulkAction.isFinalizable, Bool.and_comm]

/-- The open writes of a consistent state, replayed, have one of the listed effects. -/
theorem effect_of_wrote {env : Env} {proc : Proc} {c : Tables} {ws : List Write}
    (hst : proc.stmt env = .commit) (hw : proc.Wrote env ws) (ha : ∀ v ∈ ws, v.Applies c) :
    Effect env.settings c proc (replay Write.apply ws c) := by
  cases proc with
  | idle => simp [Proc.stmt] at hst
  | lost job => simp [Proc.stmt] at hst
  | cancel pc =>
    cases pc with
    | commit =>
      obtain ⟨now, rfl⟩ := hw
      apply Effect.cancelled
      intro a hc
      simpa [ActionUpdate.applies] using ha (.action .cancel now) (by simp) a hc
    | _ => simp [Proc.stmt, CancelPc.stmt] at hst
  | plan pc =>
    cases pc with
    | planningCommit a =>
      obtain ⟨now, rfl⟩ := hw
      exact .planning
    | rowsCommit loop last =>
      obtain ⟨rows, hsub, rfl⟩ := hw
      exact .rows hsub (fun row hrow => ha (.insertBatch row) (List.mem_map_of_mem hrow))
    | totalsCommit e b =>
      obtain ⟨now, rfl | ⟨now', rfl⟩⟩ := hw
      · exact .totals
      · exact .started rfl (ha _ (List.mem_cons_of_mem _ (List.mem_singleton.mpr rfl)))
    | failCommit error =>
      rcases hw with rfl | ⟨now, rfl⟩
      · exact .planFailedLate
      · exact .planFailed rfl (ha _ (List.mem_singleton.mpr rfl))
    | enqueueJobs loop rows last => cases rows <;> simp [Proc.stmt, PlanPc.stmt] at hst
    | _ => simp [Proc.stmt, PlanPc.stmt] at hst
  | batch job pc =>
    cases pc with
    | cancelCommit =>
      obtain ⟨now, rfl⟩ := hw
      exact .batchCancelled
    | attemptCommit n =>
      rcases hw with rfl | ⟨now, rfl⟩
      · exact .attemptLate
      · apply Effect.attempt
        intro b hb
        simpa [BatchUpdate.applies] using ha (.batch job.index .recordAttempt now) (by simp) b hb
    | workCommit n r =>
      obtain ⟨ls, now, now', hls, rfl⟩ := hw
      obtain ⟨seq, hseq⟩ := hls.replay_eq c
      rw [replay_append, hseq]
      exact .work
    | finalizeCommit after =>
      rcases hw with rfl | ⟨k, now, rfl⟩
      · exact .notFinalized
      · apply Effect.finalized
        intro a hc
        exact finalize_applies_iff ▸ ha (.action (.finalize (finalStatus k)) now) (by simp) a hc
    | markCommit n error =>
      obtain ⟨ls, now, now', hls, rfl⟩ := hw
      obtain ⟨seq, hseq⟩ := hls.replay_eq (c.updateBatch job.index (.fail n error) now)
      have he : replay Write.apply (.batch job.index (.fail n error) now :: ls) c =
          (c.updateBatch job.index (.fail n error) now).addLogs (World.logRows seq job.index
            (failedResult env.settings n error).outcomes) := hseq
      rw [replay_append, he, ← failedResult_recordUpdate env.settings n error]
      exact .batchFailed
    | writeOutcomes n r =>
      simp only [Proc.stmt, BatchPc.stmt, writeOutcomes] at hst
      split at hst <;> simp at hst
    | markOutcomes n error =>
      simp only [Proc.stmt, BatchPc.stmt, writeOutcomes] at hst
      split at hst <;> simp at hst
    | _ => simp [Proc.stmt, BatchPc.stmt] at hst

/-- What a step makes visible: nothing, or the effect of the commit it performs. -/
theorem exec_effect {env : Env} {s : Sys} {p : Pid} {now : Timestamp} {w : World} {reply : Reply}
    (hs : Consistent env s) (h : s.world.exec p now ((s.procs p).stmt env) = some (w, reply)) :
    (w.committed = s.world.committed ∧ (s.procs p).stmt env ≠ .commit) ∨
    ((s.procs p).stmt env = .commit ∧
      Effect env.settings s.world.committed (s.procs p) w.committed) := by
  rcases exec_committed h with hc | ⟨hst, hc⟩
  · exact Or.inl hc
  · rw [hc]
    exact Or.inr ⟨hst, effect_of_wrote hst (hs.wrote p) (hs.applied p)⟩

theorem effect_action_isSome {settings : Settings} {c c' : Tables} {proc : Proc}
    (h : Effect settings c proc c') : c'.action.isSome = c.action.isSome := by
  cases h <;> simp

/-- A delivery changes the status only by finalising a processing action. -/
theorem batch_effect_action {settings : Settings} {c c' : Tables} {job : BatchJob} {pc : BatchPc}
    (h : Effect settings c (.batch job pc) c') {a' : BulkAction} (ha' : c'.action = some a') :
    ∃ a, c.action = some a ∧ a'.totalBatches = a.totalBatches ∧
      (a'.status = a.status ∨ (a.status = .processing ∧ ∃ k, a'.status = finalStatus k)) := by
  cases h with
  | finalized hfin =>
    obtain ⟨a, ha, rfl⟩ := Option.map_eq_some_iff.mp ha'
    have hst := hfin a ha
    rw [isFinalizable_iff] at hst
    exact ⟨a, ha, rfl, Or.inr ⟨hst.2, _, rfl⟩⟩
  | work =>
    obtain ⟨a, ha, rfl⟩ := Option.map_eq_some_iff.mp ha'
    exact ⟨a, ha, rfl, Or.inl rfl⟩
  | batchFailed =>
    obtain ⟨a, ha, rfl⟩ := Option.map_eq_some_iff.mp ha'
    exact ⟨a, ha, rfl, Or.inl rfl⟩
  | _ => exact ⟨a', ha', rfl, Or.inl rfl⟩

theorem finalStatus_cases (k : Nat) :
    finalStatus k = .completed ∨ finalStatus k = .completedWithErrors := by
  unfold finalStatus
  split <;> simp

/-- A delivery neither inserts nor removes batch rows. -/
theorem batch_effect_isSome {settings : Settings} {c c' : Tables} {job : BatchJob} {pc : BatchPc}
    (h : Effect settings c (.batch job pc) c') (i : Nat) :
    (c'.batches i).isSome = (c.batches i).isSome := by
  have update : ∀ u now, ((c.updateBatch job.index u now).batches i).isSome =
      (c.batches i).isSome := by
    intro u now
    by_cases hi : i = job.index
    · simp [← hi]
    · simp [Function.update_of_ne hi]
  cases h with
  | batchCancelled => exact update _ _
  | attempt _ => exact update _ _
  | work => exact update _ _
  | batchFailed => exact update _ _
  | _ => rfl

theorem batch_effect_ne {settings : Settings} {c c' : Tables} {job : BatchJob} {pc : BatchPc}
    (h : Effect settings c (.batch job pc) c') {i : Nat} (hi : i ≠ job.index) :
    c'.batches i = c.batches i := by
  cases h <;> simp [Function.update_of_ne hi]

theorem step_effect {env : Env} {s s' : Sys} {l : Label} (hs : Consistent env s)
    (h : s.step env l = some s') :
    s'.world.committed = s.world.committed ∨
    ∃ p ext, l = .run p ext ∧ (s.procs p).stmt env = .commit ∧
      Effect env.settings s.world.committed (s.procs p) s'.world.committed := by
  rcases step_committed h with ⟨_, hc⟩ | ⟨p, ext, rfl, hst, hc⟩
  · exact Or.inl hc
  · rw [hc]
    exact Or.inr ⟨p, ext, rfl, hst, effect_of_wrote hst (hs.wrote p) (hs.applied p)⟩

theorem step_action_isSome {env : Env} {s s' : Sys} {l : Label} (hs : Consistent env s)
    (h : s.step env l = some s') :
    s'.world.committed.action.isSome = s.world.committed.action.isSome := by
  rcases step_effect hs h with hc | ⟨p, ext, _, _, heff⟩
  · rw [hc]
  · exact effect_action_isSome heff

end BulkActions
