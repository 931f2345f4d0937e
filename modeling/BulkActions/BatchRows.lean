import BulkActions.RecordedOnce

namespace BulkActions

/-- A row after an INSERT of rows whose indices were free. -/
theorem addBatches_cases (c : Tables) (rows : List BulkActionBatch) (i : Nat) :
    (c.addBatches rows).batches i = c.batches i ∨
      ∃ row ∈ rows, row.batchIndex = i ∧ (c.addBatches rows).batches i = some row := by
  induction rows generalizing c with
  | nil => exact Or.inl rfl
  | cons row rows ih =>
    have hcons : c.addBatches (row :: rows) =
      { c with
        batches := Function.update c.batches row.batchIndex (some row) }.addBatches rows := rfl
    rw [hcons]
    rcases ih { c with batches := Function.update c.batches row.batchIndex (some row) } with
      hsame | ⟨row', hrow', hi, hlast⟩
    · by_cases hi : row.batchIndex = i
      · refine Or.inr ⟨row, List.mem_cons_self, hi, ?_⟩
        rw [hsame, ← hi]
        exact Function.update_self ..
      · left
        rw [hsame]
        exact Function.update_of_ne (Ne.symm hi) ..
    · exact Or.inr ⟨row', List.mem_cons_of_mem _ hrow', hi, hlast⟩

/-- The UPDATE of its batch row that a delivery commits at a point. -/
def BatchPc.rowUpdate : BatchPc → Option BatchUpdate
  | .cancelCommit => some .cancel
  | .attemptCommit _ => some .recordAttempt
  | .workCommit _ r => some r.completeUpdate
  | .markCommit n error => some (.fail n error)
  | _ => none

/-- The outcome that a delivery adds to the counters and the logs at a point. -/
def BatchPc.report (settings : Settings) : BatchPc → Option BatchResult
  | .workCommit _ r => some r
  | .markCommit n error => some (failedResult settings n error)
  | _ => none

/-- Everything a commit can do to a batch row. -/
theorem effect_row {settings : Settings} {c c' : Tables} {proc : Proc}
    (h : Effect settings c proc c') (i : Nat) :
    c'.batches i = c.batches i ∨
    (∃ loop last row, proc = .plan (.rowsCommit loop last) ∧ row ∈ loop.pending ∧
      row.batchIndex = i ∧ c.batches i = none ∧ c'.batches i = some row) ∨
    ∃ job pc u now, proc = .batch job pc ∧ job.index = i ∧ pc.rowUpdate = some u ∧
      c'.batches i = (c.batches i).map (u.set now) := by
  have update : ∀ {c₁ : Tables} {job : BatchJob} {pc : BatchPc} {u : BatchUpdate} {now : Timestamp},
      pc.rowUpdate = some u →
      c₁.batches = Function.update c.batches job.index ((c.batches job.index).map (u.set now)) →
      c₁.batches i = c.batches i ∨
      (∃ loop last row, Proc.batch job pc = .plan (.rowsCommit loop last) ∧ row ∈ loop.pending ∧
        row.batchIndex = i ∧ c.batches i = none ∧ c₁.batches i = some row) ∨
      ∃ job' pc' u' now', Proc.batch job pc = .batch job' pc' ∧ job'.index = i ∧
        pc'.rowUpdate = some u' ∧ c₁.batches i = (c.batches i).map (u'.set now') := by
    intro c₁ job pc u now hu hc₁
    rw [hc₁]
    by_cases hi : i = job.index
    · subst hi
      exact Or.inr (Or.inr ⟨job, pc, u, now, rfl, rfl, hu, Function.update_self ..⟩)
    · exact Or.inl (Function.update_of_ne hi ..)
  cases h with
  | @rows loop last rows hsub hfree =>
    rcases addBatches_cases c rows i with hsame | ⟨row, hrow, rfl, hnew⟩
    · exact Or.inl hsame
    · exact Or.inr (Or.inl ⟨loop, last, row, rfl, hsub.subset hrow, rfl, hfree row hrow, hnew⟩)
  | batchCancelled => exact update rfl rfl
  | attempt _ => exact update rfl rfl
  | work => exact update rfl rfl
  | batchFailed => exact update rfl rfl
  | _ => exact Or.inl rfl

/-- Everything a commit can do to the counters and the logs. -/
theorem effect_counters {settings : Settings} {c c' : Tables} {proc : Proc}
    (h : Effect settings c proc c') :
    Untouched c c' ∨ ∃ job pc r, proc = .batch job pc ∧ pc.report settings = some r ∧
      (∃ seq, c'.logs = c.logs ++ World.logRows seq job.index r.outcomes) ∧
      c'.action.map BulkAction.counters = c.action.map (fun a => a.counters.record r) := by
  cases h with
  | rows _ _ => exact Or.inl ⟨by simp, by simp⟩
  | @started e b now now' u hu _ =>
    refine Or.inl ⟨rfl, ?_⟩
    rw [counters_updateAction (by rw [hu]; split <;> exact fun _ => rfl),
      counters_updateAction (fun _ => rfl)]
  | planFailed hu _ => exact Or.inl ⟨rfl, counters_updateAction (by rw [hu]; exact fun _ => rfl)⟩
  | planFailedLate => exact Or.inl ⟨rfl, rfl⟩
  | batchCancelled => exact Or.inl ⟨rfl, rfl⟩
  | attempt _ => exact Or.inl ⟨rfl, rfl⟩
  | attemptLate => exact Or.inl ⟨rfl, rfl⟩
  | @work job n seq r now now' =>
    exact Or.inr ⟨job, _, r, rfl, rfl, ⟨seq, rfl⟩, counters_recordUpdate _ r now'⟩
  | notFinalized => exact Or.inl ⟨rfl, rfl⟩
  | @batchFailed job n seq error now now' =>
    exact Or.inr ⟨job, _, failedResult settings n error, rfl, rfl, ⟨seq, rfl⟩,
      counters_recordUpdate _ (failedResult settings n error) now'⟩
  | _ => exact Or.inl ⟨rfl, counters_updateAction (fun _ => rfl)⟩

/-- A commit changes the entity count of no row. -/
theorem effect_entityCount {settings : Settings} {c c' : Tables} {proc : Proc}
    (h : Effect settings c proc c') {i : Nat} {b : BulkActionBatch} (hb : c.batches i = some b) :
    ∃ b', c'.batches i = some b' ∧ b'.entityCount = b.entityCount := by
  rcases effect_row h i with hsame | ⟨_, _, _, _, _, _, hnone, _⟩ | ⟨_, _, u, now, _, _, _, hnew⟩
  · exact ⟨b, hsame.trans hb, rfl⟩
  · simp [hb] at hnone
  · refine ⟨u.set now b, by rw [hnew, hb]; rfl, ?_⟩
    cases u <;> rfl

end BulkActions
