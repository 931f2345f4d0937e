import BulkActions.Runs

namespace Noninterference

variable {σ α ω : Type}

/-- A step that an observer does not see leaves its view alone; one that it sees depends on
nothing but the view. -/
structure Unwinds (step : σ → α → Option σ) (visible : α → Bool) (view : σ → ω) : Prop where
  hidden : ∀ {s s' l}, visible l = false → step s l = some s' → view s' = view s
  agrees : ∀ {s s' t l}, visible l → view s = view t → step s l = some s' →
    ∃ t', step t l = some t' ∧ view s' = view t'

variable {step : σ → α → Option σ} {visible : α → Bool} {view : σ → ω} {s s' t : σ}
  {ls : List α}

/-- The observer cannot tell a run from what is left of it without the steps it does not see. -/
theorem Unwinds.purge (h : Unwinds step visible view) (hs : Runs.steps step s ls = some s')
    (hview : view s = view t) :
    ∃ t', Runs.steps step t (ls.filter visible) = some t' ∧ view s' = view t' := by
  induction ls generalizing s t with
  | nil =>
    cases Option.some.inj hs
    exact ⟨t, rfl, hview⟩
  | cons l ls ih =>
    obtain ⟨next, hl, hs⟩ := Option.bind_eq_some_iff.mp hs
    cases hv : visible l with
    | false =>
      rw [List.filter_cons_of_neg (by simp [hv])]
      exact ih hs ((h.hidden hv hl).trans hview)
    | true =>
      obtain ⟨next', hl', hview'⟩ := h.agrees hv hview hl
      obtain ⟨t', ht', hend⟩ := ih hs hview'
      refine ⟨t', ?_, hend⟩
      rw [List.filter_cons_of_pos hv]
      exact Option.bind_eq_some_iff.mpr ⟨next', hl', ht'⟩

end Noninterference
