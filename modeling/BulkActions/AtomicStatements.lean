import BulkActions.BatchNumbers
import BulkActions.Simulation

namespace BulkActions

open Simulation

/-- `finalize_if_complete` closes an action with one of two statuses. -/
def ActionUpdate.Sent : ActionUpdate → Prop
  | finalize status => ∃ failureCount, status = finalStatus failureCount
  | _ => True

/-- The tables as one client after the other would change them: the WHERE clause of a statement
holds of the row it finds, and its effect is there at once. -/
inductive Tables.Step (c : Tables) : Tables → Prop where
  | action {u : ActionUpdate} {now : Timestamp} :
      u.Sent → (∀ a, c.action = some a → u.applies a) → Step c (c.updateAction u now)
  | batch {i : Nat} {u : BatchUpdate} {now : Timestamp} :
      (∀ b, c.batches i = some b → u.applies b) → Step c (c.updateBatch i u now)
  | insert {planned : PlannedBatch} :
      c.batches planned.index = none → Step c (c.addBatches [plannedRow planned])
  | logs {rows : List BulkActionLog} : Step c (c.addLogs rows)

abbrev Tables.Steps : Tables → Tables → Prop := Relation.ReflTransGen Tables.Step

/-- A flush inserts its rows one by one. -/
theorem insert_steps {c : Tables} {rows : List BulkActionBatch}
    (hplanned : ∀ row ∈ rows, ∃ planned, row = plannedRow planned)
    (hnodup : (rows.map BulkActionBatch.batchIndex).Nodup)
    (hfresh : ∀ row ∈ rows, c.batches row.batchIndex = none) : c.Steps (c.addBatches rows) := by
  induction rows generalizing c with
  | nil => exact .refl
  | cons row rows ih =>
    obtain ⟨planned, rfl⟩ := hplanned row List.mem_cons_self
    obtain ⟨hnot, hnodup⟩ := List.nodup_cons.mp hnodup
    have hfirst : c.Step (c.addBatches [plannedRow planned]) :=
      .insert (hfresh _ List.mem_cons_self)
    refine .head hfirst (ih (fun r hr => hplanned r (List.mem_cons_of_mem _ hr)) hnodup ?_)
    intro r hr
    have hne : r.batchIndex ∉ [plannedRow planned].map BulkActionBatch.batchIndex := by
      intro hmem
      have heq : r.batchIndex = (plannedRow planned).batchIndex := List.mem_singleton.mp hmem
      exact hnot (heq ▸ List.mem_map_of_mem hr)
    rw [addBatches_notMem hne]
    exact hfresh r (List.mem_cons_of_mem _ hr)

/-- What a commit shows could have been done by its statements one after the other. -/
theorem effect_steps {settings : Settings} {c c' : Tables} {proc : Proc} {ws : List Write}
    (hproc : proc.Continues c ws) (h : Effect settings c proc c') : c.Steps c' := by
  cases h with
  | planning => exact .single (.action trivial (fun _ _ => rfl))
  | rows hsub hfree =>
    obtain ⟨⟨k, hk⟩, _⟩ := hproc
    exact insert_steps (fun row hrow => hk.planned row (hsub.subset hrow))
      ((pending_nodup hk).sublist (hsub.map BulkActionBatch.batchIndex)) hfree
  | totals => exact .single (.action trivial (fun _ _ => rfl))
  | @started e b now now' u hu happ =>
    have hsent : u.Sent := by
      subst hu
      split_ifs <;> trivial
    have htotals : c.Step (c.updateAction (.setTotals e b) now) :=
      .action trivial (fun _ _ => rfl)
    refine .tail (.single htotals) (.action hsent ?_)
    intro a ha
    obtain ⟨a, hfirst, rfl⟩ := Option.map_eq_some_iff.mp ha
    -- the totals do not count in the test of the status
    have hold := happ a hfirst
    subst hu
    split_ifs at hold ⊢ <;> exact hold
  | planFailed hu happ => exact .single (.action (hu ▸ trivial) happ)
  | planFailedLate => exact .refl
  | batchCancelled => exact .single (.batch (fun _ _ => rfl))
  | attempt happ =>
    refine .single (.batch ?_)
    intro b hb
    simpa [BatchUpdate.applies] using happ b hb
  | attemptLate => exact .refl
  | work =>
    exact .tail (.tail (.single .logs) (.batch (fun _ _ => rfl))) (.action trivial (fun _ _ => rfl))
  | finalized happ =>
    exact .single (.action ⟨_, rfl⟩ (fun a ha => finalize_applies_iff ▸ happ a ha))
  | notFinalized => exact .refl
  | batchFailed =>
    exact .tail (.tail (.single (.batch (fun _ _ => rfl))) .logs) (.action trivial (fun _ _ => rfl))
  | cancelled happ =>
    refine .single (.action trivial ?_)
    intro a ha
    simpa [ActionUpdate.applies] using happ a ha

/-- Concurrent transactions change the committed tables as single statements would. -/
theorem committed_refines (env : Env) (ok : Sys → Label → Prop) :
    Refines (Sys.step env) ok Tables.Step (fun s => s.world.committed) (PassSafe env) where
  keeps := fun hs _ hstep => passSafe_step hs hstep
  shown := by
    intro s s' l hs _ hstep
    rcases step_effect hs.consistent hstep with hsame | ⟨p, ext, _, _, heff⟩
    · rw [hsame]
    · exact effect_steps (hs.procs p) heff

end BulkActions
