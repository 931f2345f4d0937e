import BulkActions.AtomicStatements
import BulkActions.AuditTrail
import BulkActions.Submission

namespace BulkActions

/-- Whose statements change the status of an action. -/
inductive Actor where
  | planner
  | worker
  | client
  deriving DecidableEq, Repr

/-- The life of an action: which status follows which, and by whose hand. A planning pass puts
whatever it finds back to `planning`. -/
inductive BulkActionStatus.Edge : Actor → BulkActionStatus → BulkActionStatus → Prop where
  | plan {st : BulkActionStatus} : Edge .planner st .planning
  | start {st : BulkActionStatus} : ¬ st.isTerminal → st ≠ .processing →
      Edge .planner st .processing
  | empty : Edge .planner .planning .completed
  | fail {st : BulkActionStatus} : ¬ st.isTerminal → Edge .planner st .failed
  | finish : Edge .worker .processing .completed
  | finishWithErrors : Edge .worker .processing .completedWithErrors
  | cancel {st : BulkActionStatus} : ¬ st.isTerminal → Edge .client st .cancelled

def Proc.actor : Proc → Option Actor
  | .plan _ => some .planner
  | .batch _ _ => some .worker
  | .cancel _ => some .client
  | _ => none

/-- The other columns that go with the status of an action. -/
structure BulkAction.Coherent (a : BulkAction) : Prop where
  waiting : a.status = .queued ∨ a.status = .scheduled →
    a.startedAt = none ∧ a.finishedAt = none ∧ a.error = none
  started : a.status = .planning ∨ a.status = .processing ∨ a.status = .completed ∨
    a.status = .completedWithErrors → a.startedAt.isSome
  finished : a.status.isTerminal → a.finishedAt.isSome
  failed : a.status = .failed → a.error.isSome

/-- The other columns that go with the status of a batch. -/
structure BulkActionBatch.Coherent (b : BulkActionBatch) : Prop where
  pending : b.status = .pending → b.attempts = 0 ∧ b.finishedAt = none ∧ b.error = none ∧
    b.successCount = 0 ∧ b.failureCount = 0 ∧ b.skippedCount = 0
  attempted : 0 < b.attempts ↔ b.startedAt.isSome
  processing : b.status = .processing → 0 < b.attempts
  finished : b.status = .completed ∨ b.status = .failed ∨ b.status = .cancelled →
    b.finishedAt.isSome
  completed : b.status = .completed → b.error = none
  failed : b.status = .failed → b.error.isSome

structure Tables.Coherent (c : Tables) : Prop where
  action : ∀ a, c.action = some a → a.Coherent
  batches : ∀ i b, c.batches i = some b → b.Coherent

theorem set_action_coherent {u : ActionUpdate} {a : BulkAction} (h : a.Coherent) (hsent : u.Sent)
    (happ : u.applies a) (now : Timestamp) : (u.set now a).Coherent := by
  cases u with
  | setPlanning => constructor <;> simp [ActionUpdate.set, BulkActionStatus.isTerminal]
  | setTotals e b => exact ⟨h.waiting, h.started, h.finished, h.failed⟩
  | closeEmpty =>
    have hplanning : a.status = .planning := by simpa [ActionUpdate.applies] using happ
    constructor <;> simp [ActionUpdate.set, h.started (Or.inl hplanning)]
  | markStarted => constructor <;> simp [ActionUpdate.set, BulkActionStatus.isTerminal]
  | recordBatchCompletion => exact ⟨h.waiting, h.started, h.finished, h.failed⟩
  | finalize status =>
    have hprocessing : a.status = .processing := by
      simp only [ActionUpdate.applies, Bool.and_eq_true, decide_eq_true_eq] at happ
      exact happ.1
    have hstarted := h.started (Or.inr (Or.inl hprocessing))
    obtain ⟨k, rfl⟩ := hsent
    rcases finalStatus_cases k with hst | hst <;>
      constructor <;> simp [ActionUpdate.set, hst, hstarted]
  | failAction error => constructor <;> simp [ActionUpdate.set]
  | cancel => constructor <;> simp [ActionUpdate.set]

theorem set_batch_coherent {u : BatchUpdate} {b : BulkActionBatch} (h : b.Coherent)
    (now : Timestamp) : (u.set now b).Coherent := by
  cases u with
  | recordAttempt => constructor <;> simp [BatchUpdate.set]
  | _ => constructor <;> simp [BatchUpdate.set, h.attempted]

theorem plannedRow_coherent (planned : PlannedBatch) : (plannedRow planned).Coherent := by
  constructor <;> simp [plannedRow]

/-- Every statement keeps the columns in step with the statuses. -/
theorem coherent_step {c c' : Tables} (h : c.Coherent) (hstep : c.Step c') : c'.Coherent := by
  cases hstep with
  | action hsent happ =>
    refine ⟨?_, h.batches⟩
    intro a ha
    obtain ⟨a, hold, rfl⟩ := Option.map_eq_some_iff.mp ha
    exact set_action_coherent (h.action a hold) hsent (happ a hold) _
  | @batch i u now _ =>
    refine ⟨h.action, ?_⟩
    intro j b hb
    by_cases hj : j = i
    · subst hj
      rw [Tables.updateBatch_batches, Function.update_self] at hb
      obtain ⟨b, hold, rfl⟩ := Option.map_eq_some_iff.mp hb
      exact set_batch_coherent (h.batches j b hold) now
    · rw [Tables.updateBatch_batches, Function.update_of_ne hj] at hb
      exact h.batches j b hb
  | @insert planned _ =>
    refine ⟨?_, ?_⟩
    · intro a ha
      rw [Tables.addBatches_action] at ha
      exact h.action a ha
    · intro j b hb
      rcases addBatches_cases c [plannedRow planned] j with hsame | ⟨row, hrow, _, hnew⟩
      · exact h.batches j b (hsame ▸ hb)
      · cases Option.some.inj (hb.symm.trans hnew)
        rw [List.mem_singleton.mp hrow]
        exact plannedRow_coherent planned
  | logs => exact ⟨h.action, h.batches⟩

/-- What a submission inserts is in step. -/
theorem submitted_coherent (settings : Settings) (limit : Nat) (r : SubmitRequest) :
    (r.row settings limit).Coherent := by
  constructor <;> (simp only [SubmitRequest.row]; split_ifs <;> simp [BulkActionStatus.isTerminal])

theorem updateAction_eq {c : Tables} {a : BulkAction} (ha : c.action = some a) (u : ActionUpdate)
    (now : Timestamp) : (c.updateAction u now).action = some (u.set now a) := by
  rw [Tables.updateAction_action, ha]
  rfl

/-- Everything a commit can do to the status of the action. -/
theorem effect_status {settings : Settings} {c c' : Tables} {proc : Proc}
    (h : Effect settings c proc c') {a : BulkAction} (ha : c.action = some a) :
    ∃ a', c'.action = some a' ∧
      (a'.status = a.status ∨
        ∃ actor, proc.actor = some actor ∧ BulkActionStatus.Edge actor a.status a'.status) := by
  cases h with
  | planning => exact ⟨_, updateAction_eq ha _ _, Or.inr ⟨_, rfl, .plan⟩⟩
  | rows _ _ => exact ⟨a, (Tables.addBatches_action ..).trans ha, Or.inl rfl⟩
  | @totals e b now => exact ⟨_, updateAction_eq ha (.setTotals e b) now, Or.inl rfl⟩
  | @started e b now now' u hu happ =>
    have htotals := updateAction_eq ha (.setTotals e b) now
    refine ⟨_, updateAction_eq htotals u now', Or.inr ⟨.planner, rfl, ?_⟩⟩
    have hold := happ a ha
    subst hu
    split_ifs at hold ⊢
    · have hplanning : a.status = .planning := by simpa [ActionUpdate.applies] using hold
      rw [hplanning]
      exact .empty
    · have hopen : a.status = .queued ∨ a.status = .scheduled ∨ a.status = .planning := by
        simpa [ActionUpdate.applies, or_assoc] using hold
      rcases hopen with hst | hst | hst <;>
        exact .start (by simp [hst, BulkActionStatus.isTerminal]) (by simp [hst])
  | planFailed hu happ =>
    subst hu
    refine ⟨_, updateAction_eq ha _ _, Or.inr ⟨.planner, rfl, .fail ?_⟩⟩
    simpa [ActionUpdate.applies] using happ a ha
  | @work job n seq r now now' =>
    exact ⟨r.recordUpdate.set now' a, by simp [ha], Or.inl rfl⟩
  | @finalized job after k now hfin =>
    have hprocessing := (isFinalizable_iff.mp (hfin a ha)).2
    refine ⟨_, updateAction_eq ha (.finalize (finalStatus k)) now, Or.inr ⟨.worker, rfl, ?_⟩⟩
    rw [hprocessing]
    rcases finalStatus_cases k with hst | hst <;> simp only [ActionUpdate.set, hst]
    · exact .finish
    · exact .finishWithErrors
  | @batchFailed job n seq error now now' =>
    exact ⟨(failedResult settings n error).recordUpdate.set now' a, by simp [ha], Or.inl rfl⟩
  | cancelled happ =>
    exact ⟨_, updateAction_eq ha .cancel _, Or.inr ⟨.client, rfl, .cancel (happ a ha)⟩⟩
  | _ => exact ⟨a, ha, Or.inl rfl⟩

section Runs

variable {env : Env} {ok : Sys → Label → Prop} {s₀ s s' : Sys} {l : Label}

/-- Whatever is interleaved, redelivered or interrupted, a step moves the status of the action
along an edge of its life, and only the kind of task it belongs to can do so. -/
theorem status_follows_life (hrest : s₀.AtRest) (h : Sys.Reaches env ok s₀ s)
    (hstep : s.step env l = some s') {a : BulkAction} (ha : s.world.committed.action = some a) :
    ∃ a', s'.world.committed.action = some a' ∧
      (a'.status = a.status ∨ ∃ actor, (s.procs l.pid).actor = some actor ∧
        BulkActionStatus.Edge actor a.status a'.status) := by
  have hs := passSafe_reaches (passSafe_atRest hrest) h
  rcases step_effect hs.consistent hstep with hsame | ⟨p, ext, rfl, _, heff⟩
  · exact ⟨a, hsame ▸ ha, Or.inl rfl⟩
  · exact effect_status heff ha

/-- The columns are in step with the statuses in every state of a run. -/
theorem columns_stay_coherent (hrest : s₀.AtRest) (hc : s₀.world.committed.Coherent)
    (h : Sys.Reaches env ok s₀ s) : s.world.committed.Coherent :=
  (committed_refines env ok).stable coherent_step h (passSafe_atRest hrest) hc

end Runs

/-- A cancel that a planning pass overtakes. -/
def overtakenCancel : List Label :=
  .deliver 0 .plan :: .run 0 {} :: .cancel 1 :: List.replicate 3 (.run 1 {}) ++ [.run 0 {}]

theorem status_follows_life_overtaken :
    ∃ s s' a', Sys.Reaches defaultEnv Runs.anyStep submittedContacts s ∧
      s.status = some .cancelled ∧ s.step defaultEnv (.run 0 {}) = some s' ∧
      s'.world.committed.action = some a' ∧
      (a'.status = .cancelled ∨ ∃ actor, (s.procs 0).actor = some actor ∧
        BulkActionStatus.Edge actor .cancelled a'.status) := by
  obtain ⟨s, s', hs, hst, hstep⟩ : ∃ s s',
      Runs.steps (Sys.step defaultEnv) submittedContacts overtakenCancel = some s ∧
        s.status = some .cancelled ∧ s.step defaultEnv (.run 0 {}) = some s' :=
    ⟨_, _, rfl, rfl, rfl⟩
  have hr : Sys.Reaches defaultEnv Runs.anyStep submittedContacts s := Runs.reaches_of_steps hs
  obtain ⟨a, ha, hcancelled⟩ := Option.map_eq_some_iff.mp hst
  obtain ⟨a', ha', hedge⟩ :=
    status_follows_life submittedContacts_submitted.toAtRest hr hstep ha
  exact ⟨s, s', a', hr, hst, hstep, ha', hcancelled ▸ hedge⟩

theorem columns_stay_coherent_overtaken :
    ∃ s, Sys.Reaches defaultEnv Runs.anyStep submittedContacts s ∧ s.status = some .cancelled ∧
      s.world.committed.Coherent := by
  obtain ⟨s, hs, hst⟩ : ∃ s,
      Runs.steps (Sys.step defaultEnv) submittedContacts overtakenCancel = some s ∧
        s.status = some .cancelled := ⟨_, rfl, rfl⟩
  have hr : Sys.Reaches defaultEnv Runs.anyStep submittedContacts s := Runs.reaches_of_steps hs
  have hcoherent : submittedContacts.world.committed.Coherent := by
    refine ⟨?_, fun i b hb => by cases hb⟩
    intro a ha
    cases Option.some.inj ha
    constructor <;> simp [contactsAction, BulkActionStatus.isTerminal]
  exact ⟨s, hr, hst, columns_stay_coherent submittedContacts_submitted.toAtRest hcoherent hr⟩

end BulkActions
