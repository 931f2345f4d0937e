import BulkActions.Lifecycle
import BulkActions.PlanPublished

namespace BulkActions

/-- What `create_bulk_action` writes and no later statement assigns. -/
def BulkAction.submission (a : BulkAction) :
    Uuid × Uuid × EntityType × Config × Nat × Option Timestamp × Option String :=
  (a.id, a.accountId, a.entityType, a.configuration, a.batchSize, a.scheduledAt, a.idempotencyKey)

structure Counters.Le (k k' : Counters) : Prop where
  completed : k.completed ≤ k'.completed
  processed : k.processed ≤ k'.processed
  success : k.success ≤ k'.success
  failure : k.failure ≤ k'.failure
  skipped : k.skipped ≤ k'.skipped

/-- The later tables keep the earlier ones: log rows are appended, no row is removed or planned
anew, and neither the counters of the action nor the attempts of a batch are counted down. The
totals of the action are no such counters: a second planning pass may write smaller ones. -/
structure Tables.Grows (c c' : Tables) : Prop where
  logs : c.logs <+: c'.logs
  submission : c'.action.map BulkAction.submission = c.action.map BulkAction.submission
  counters : ∀ a, c.action = some a → ∃ a', c'.action = some a' ∧ a.counters.Le a'.counters
  rows : ∀ i b, c.batches i = some b →
    ∃ b', c'.batches i = some b' ∧ b'.planned = b.planned ∧ b.attempts ≤ b'.attempts

namespace Tables.Grows

variable {c c' c'' : Tables}

theorem refl (c : Tables) : c.Grows c where
  logs := List.prefix_rfl
  submission := rfl
  counters := fun a ha => ⟨a, ha, ⟨le_rfl, le_rfl, le_rfl, le_rfl, le_rfl⟩⟩
  rows := fun _ b hb => ⟨b, hb, rfl, le_rfl⟩

theorem trans (h : c.Grows c') (h' : c'.Grows c'') : c.Grows c'' where
  logs := h.logs.trans h'.logs
  submission := h'.submission.trans h.submission
  counters := by
    intro a ha
    obtain ⟨a', ha', hle⟩ := h.counters a ha
    obtain ⟨a'', ha'', hle'⟩ := h'.counters a' ha'
    exact ⟨a'', ha'', ⟨hle.completed.trans hle'.completed, hle.processed.trans hle'.processed,
      hle.success.trans hle'.success, hle.failure.trans hle'.failure,
      hle.skipped.trans hle'.skipped⟩⟩
  rows := by
    intro i b hb
    obtain ⟨b', hb', hplanned, hle⟩ := h.rows i b hb
    obtain ⟨b'', hb'', hplanned', hle'⟩ := h'.rows i b' hb'
    exact ⟨b'', hb'', hplanned'.trans hplanned, hle.trans hle'⟩

end Tables.Grows

theorem set_counters_le (u : ActionUpdate) (now : Timestamp) (a : BulkAction) :
    a.counters.Le (u.set now a).counters := by
  cases u with
  | recordBatchCompletion => constructor <;> exact Nat.le_add_right _ _
  | _ => constructor <;> exact le_rfl

theorem set_attempts_le (u : BatchUpdate) (now : Timestamp) (b : BulkActionBatch) :
    b.attempts ≤ (u.set now b).attempts := by
  cases u with
  | recordAttempt => exact Nat.le_succ _
  | _ => exact le_rfl

/-- No statement rewrites what is there. -/
theorem grows_step {c c' : Tables} (h : c.Step c') : c.Grows c' := by
  have refl := Tables.Grows.refl c
  cases h with
  | @action u now _ _ =>
    refine { refl with submission := ?_, counters := ?_ }
    · rw [Tables.updateAction_action, Option.map_map]
      refine congrArg (fun f => Option.map f _) (funext fun a => ?_)
      cases u <;> rfl
    · exact fun a ha => ⟨_, updateAction_eq ha u now, set_counters_le u now a⟩
  | @batch i u now _ =>
    refine { refl with rows := ?_ }
    intro j b hb
    rw [Tables.updateBatch_batches]
    by_cases hj : j = i
    · subst hj
      have hplanned : (u.set now b).planned = b.planned := by cases u <;> rfl
      exact ⟨u.set now b, by simp [hb], hplanned, set_attempts_le u now b⟩
    · rw [Function.update_of_ne hj]
      exact refl.rows j b hb
  | @insert planned hfree =>
    refine ⟨by simp, by simp, ?_, ?_⟩
    · intro a ha
      rw [Tables.addBatches_action]
      exact refl.counters a ha
    · intro j b hb
      have hne : j ∉ [plannedRow planned].map BulkActionBatch.batchIndex := by
        intro hmem
        have heq : j = planned.index := List.mem_singleton.mp hmem
        rw [heq, hfree] at hb
        cases hb
      rw [addBatches_notMem hne]
      exact refl.rows j b hb
  | logs => exact { refl with logs := List.prefix_append _ _ }

/-- Whatever happens between two states of a run, the later tables keep the earlier ones. -/
theorem history_never_rewritten {env : Env} {ok : Sys → Label → Prop} {s₀ s s' : Sys}
    (hrest : s₀.AtRest) (h : Sys.Reaches env ok s₀ s) (h' : Sys.Reaches env ok s s') :
    s.world.committed.Grows s'.world.committed :=
  (committed_refines env ok).stable (fun hgrows hstep => hgrows.trans (grows_step hstep)) h'
    (passSafe_reaches (passSafe_atRest hrest) h) (.refl _)

/-- The contact that was found missing stays logged when the plan job is delivered again. -/
theorem history_never_rewritten_replanned :
    ∃ s s', Sys.Reaches defaultEnv Runs.anyStep submittedContacts s ∧
      s.world.committed.logs.length = 1 ∧ Sys.Reaches defaultEnv Runs.anyStep s s' ∧
      s.world.committed.Grows s'.world.committed := by
  obtain ⟨s, s', hs, hlogs, hs'⟩ : ∃ s s',
      Runs.steps (Sys.step defaultEnv) submittedContacts oneMissingContact = some s ∧
        s.world.committed.logs.length = 1 ∧
        Runs.steps (Sys.step defaultEnv) s
          (.duplicate 2 .plan :: List.replicate 4 (.run 2 {}) ++ [.crash 2]) = some s' :=
    ⟨_, _, rfl, rfl, rfl⟩
  have hr : Sys.Reaches defaultEnv Runs.anyStep submittedContacts s := Runs.reaches_of_steps hs
  have hr' : Sys.Reaches defaultEnv Runs.anyStep s s' := Runs.reaches_of_steps hs'
  exact ⟨s, s', hr, hlogs, hr',
    history_never_rewritten submittedContacts_submitted.toAtRest hr hr'⟩

end BulkActions
