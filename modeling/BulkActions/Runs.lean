import Mathlib.Logic.Relation

namespace Runs

variable {σ α : Type} (step : σ → α → Option σ)

/-- The state after a sequence of steps, when each of them is possible. -/
def steps (s : σ) : List α → Option σ
  | [] => some s
  | l :: ls => (step s l).bind (fun s' => steps s' ls)

/-- The same, when each step also passes a check. -/
def checkedSteps (check : σ → α → Bool) (s : σ) : List α → Option σ
  | [] => some s
  | l :: ls => if check s l then (step s l).bind (fun s' => checkedSteps check s' ls) else none

/-- Runs all of whose steps the state before them allows. -/
def Reaches (ok : σ → α → Prop) : σ → σ → Prop :=
  Relation.ReflTransGen (fun s s' => ∃ l, ok s l ∧ step s l = some s')

/-- No restriction on the order of steps. -/
def anyStep (_ : σ) (_ : α) : Prop := True

/-- A step next to the number of steps so far that bore each mark. -/
def tallied {ι : Type} (mark : σ → α → ι → Bool) (x : σ × (ι → Nat)) (l : α) :
    Option (σ × (ι → Nat)) :=
  (step x.1 l).map (fun s' => (s', fun i => x.2 i + (mark x.1 l i).toNat))

/-- A step next to the labels so far. -/
def traced (x : σ × List α) (l : α) : Option (σ × List α) :=
  (step x.1 l).map (fun s' => (s', x.2 ++ [l]))

variable {step}

theorem steps_append (s : σ) (ls ms : List α) :
    steps step s (ls ++ ms) = (steps step s ls).bind (fun s' => steps step s' ms) := by
  induction ls generalizing s with
  | nil => rfl
  | cons l ls ih =>
    simp only [List.cons_append, steps, Option.bind_assoc]
    exact congrArg _ (funext ih)

/-- What holds at the start and is kept by every allowed step holds throughout a run. -/
theorem Reaches.invariant {ok : σ → α → Prop} {P : σ → Prop}
    (keep : ∀ {s s' l}, P s → ok s l → step s l = some s' → P s') {s s' : σ}
    (h : Reaches step ok s s') (hs : P s) : P s' := by
  induction h with
  | refl => exact hs
  | tail _ last ih =>
    obtain ⟨l, hok, hl⟩ := last
    exact keep ih hok hl

/-- A list of labels that pass a check is a run, when the check implies that a step is
allowed in the states that keep `P`. -/
theorem reaches_of_checked {ok : σ → α → Prop} {check : σ → α → Bool} {P : σ → Prop}
    (hok : ∀ {s l}, P s → check s l → ok s l)
    (keep : ∀ {s s' l}, P s → check s l → step s l = some s' → P s') {s s' : σ}
    {ls : List α} (hs : P s) (h : checkedSteps step check s ls = some s') :
    Reaches step ok s s' := by
  induction ls generalizing s with
  | nil =>
    cases Option.some.inj h
    exact .refl
  | cons l ls ih =>
    simp only [checkedSteps] at h
    split at h
    next hc =>
      obtain ⟨next, hn, h⟩ := Option.bind_eq_some_iff.mp h
      exact .head ⟨l, hok hs hc, hn⟩ (ih (keep hs hc hn) h)
    next => simp at h

/-- The same, when the check alone implies it. -/
theorem reaches_checked {ok : σ → α → Prop} {check : σ → α → Bool}
    (hok : ∀ {s l}, check s l → ok s l) {s s' : σ} {ls : List α}
    (h : checkedSteps step check s ls = some s') : Reaches step ok s s' :=
  reaches_of_checked (P := fun _ => True) (fun _ hc => hok hc) (fun _ _ _ => trivial) trivial h

/-- A list of allowed labels that runs through is a run. -/
theorem reaches_of_allowed {ok : α → Prop} {s s' : σ} {ls : List α}
    (hok : ∀ l ∈ ls, ok l) (h : steps step s ls = some s') :
    Reaches step (fun _ l => ok l) s s' := by
  induction ls generalizing s with
  | nil =>
    cases Option.some.inj h
    exact .refl
  | cons l ls ih =>
    obtain ⟨next, hn, h⟩ := Option.bind_eq_some_iff.mp h
    exact .head ⟨l, hok l List.mem_cons_self, hn⟩
      (ih (fun l' hl' => hok l' (List.mem_cons_of_mem _ hl')) h)

/-- When every allowed step takes something off the weight of a state, a run is no longer than
its first state weighs. -/
theorem length_le_weight {ok : α → Prop} (Weighs : σ → Nat → Prop)
    (drop : ∀ {s s' l n}, Weighs s n → ok l → step s l = some s' → ∃ m < n, Weighs s' m)
    {s s' : σ} {ls : List α} {n : Nat} (hs : Weighs s n) (hok : ∀ l ∈ ls, ok l)
    (h : steps step s ls = some s') : ls.length ≤ n := by
  induction ls generalizing s n with
  | nil => exact Nat.zero_le _
  | cons l ls ih =>
    obtain ⟨next, hl, h⟩ := Option.bind_eq_some_iff.mp h
    obtain ⟨m, hm, hnext⟩ := drop hs (hok l List.mem_cons_self) hl
    have hle := ih hnext (fun l' hl' => hok l' (List.mem_cons_of_mem _ hl')) h
    exact Nat.lt_of_le_of_lt hle hm

/-- A run has no more steps that bear a mark than its first state weighs, when each of these takes
something off the weight of a state and no other step adds to it. -/
theorem countP_le_weight (mark : α → Bool) (weight : σ → Nat)
    (drop : ∀ {s s' l}, step s l = some s' → weight s' + (mark l).toNat ≤ weight s) {s s' : σ}
    {ls : List α} (h : steps step s ls = some s') : weight s' + ls.countP mark ≤ weight s := by
  induction ls generalizing s with
  | nil =>
    cases Option.some.inj h
    exact Nat.le_refl _
  | cons l ls ih =>
    obtain ⟨next, hl, h⟩ := Option.bind_eq_some_iff.mp h
    have hrest := ih h
    have hfirst := drop hl
    rw [List.countP_cons]
    cases hm : mark l with
    | true =>
      rw [hm, Bool.toNat_true] at hfirst
      rw [if_pos rfl]
      omega
    | false =>
      rw [if_neg (by simp)]
      omega

theorem traced_eq_some {x x' : σ × List α} {l : α} (h : traced step x l = some x') :
    step x.1 l = some x'.1 ∧ x'.2 = x.2 ++ [l] := by
  obtain ⟨s', hs, rfl⟩ := Option.map_eq_some_iff.mp h
  exact ⟨hs, rfl⟩

theorem tallied_eq_some {ι : Type} {mark : σ → α → ι → Bool} {x x' : σ × (ι → Nat)} {l : α}
    (h : tallied step mark x l = some x') :
    step x.1 l = some x'.1 ∧ ∀ i, x'.2 i = x.2 i + (mark x.1 l i).toNat := by
  obtain ⟨s', hs, rfl⟩ := Option.map_eq_some_iff.mp h
  exact ⟨hs, fun _ => rfl⟩

theorem Reaches.tally_le {ι : Type} {mark : σ → α → ι → Bool} {ok : σ × (ι → Nat) → α → Prop}
    {x x' : σ × (ι → Nat)} (h : Reaches (tallied step mark) ok x x') (i : ι) : x.2 i ≤ x'.2 i := by
  refine h.invariant (P := fun y => x.2 i ≤ y.2 i) ?_ (Nat.le_refl _)
  intro y y' l hle _ hy
  rw [(tallied_eq_some hy).2]
  exact Nat.le_trans hle (Nat.le_add_right _ _)

theorem reaches_of_steps {s s' : σ} {ls : List α} (h : steps step s ls = some s') :
    Reaches step anyStep s s' :=
  reaches_of_allowed (fun _ _ => trivial) h

end Runs
