import BulkActions.Runs

namespace Simulation

variable {σ α τ : Type}

/-- The steps of a machine, as far as `view` shows its states, are sequences of steps of an
abstract machine, from the states that keep an invariant. -/
structure Refines (step : σ → α → Option σ) (ok : σ → α → Prop) (next : τ → τ → Prop)
    (view : σ → τ) (Inv : σ → Prop) : Prop where
  keeps : ∀ {s s' l}, Inv s → ok s l → step s l = some s' → Inv s'
  shown : ∀ {s s' l}, Inv s → ok s l → step s l = some s' →
    Relation.ReflTransGen next (view s) (view s')

variable {step : σ → α → Option σ} {ok : σ → α → Prop} {next : τ → τ → Prop} {view : σ → τ}
  {Inv : σ → Prop} {s s' : σ}

theorem Refines.invariant (h : Refines step ok next view Inv) (hr : Runs.Reaches step ok s s')
    (hs : Inv s) : Inv s' :=
  hr.invariant (fun hs hok hstep => h.keeps hs hok hstep) hs

/-- A run of the machine is one of the abstract machine. -/
theorem Refines.reaches (h : Refines step ok next view Inv) (hr : Runs.Reaches step ok s s')
    (hs : Inv s) : Relation.ReflTransGen next (view s) (view s') := by
  induction hr with
  | refl => exact .refl
  | tail hr last ih =>
    obtain ⟨l, hok, hstep⟩ := last
    exact ih.trans (h.shown (h.invariant hr hs) hok hstep)

/-- What the steps of the abstract machine keep, the machine keeps. -/
theorem Refines.stable {P : τ → Prop} (h : Refines step ok next view Inv)
    (keep : ∀ {t t'}, P t → next t t' → P t') (hr : Runs.Reaches step ok s s') (hs : Inv s)
    (hP : P (view s)) : P (view s') := by
  have habs := h.reaches hr hs
  generalize view s' = t at habs
  induction habs with
  | refl => exact hP
  | tail _ last ih => exact keep ih last

end Simulation
