import Mathlib.Data.List.Basic
import Mathlib.Data.List.Forall2

namespace Checks

variable {ε α β γ : Type}

/-- A sequence of checks passes when each of them does. -/
theorem bind_eq_ok {x : Except ε α} {f : α → Except ε β} {b : β} :
    (x >>= f) = .ok b ↔ ∃ a, x = .ok a ∧ f a = .ok b := by
  cases x <;> simp [bind, Except.bind]

/-- The first check that fails decides the error. -/
theorem bind_eq_error {x : Except ε α} {f : α → Except ε β} {e : ε} :
    (x >>= f) = .error e ↔ x = .error e ∨ ∃ a, x = .ok a ∧ f a = .error e := by
  cases x <;> simp [bind, Except.bind]

theorem map_eq_ok {x : Except ε α} {f : α → β} {b : β} :
    x.map f = .ok b ↔ ∃ a, x = .ok a ∧ f a = b := by
  cases x <;> simp [Except.map]

theorem pure_eq_ok {a b : α} : (pure a : Except ε α) = .ok b ↔ a = b := by
  simp [pure, Except.pure]

theorem mapError_eq_ok {δ : Type} {x : Except ε α} {f : ε → δ} {a : α} :
    x.mapError f = .ok a ↔ x = .ok a := by
  cases x <;> simp [Except.mapError]

theorem forM_eq_ok {xs : List α} {f : α → Except ε Unit} :
    xs.forM f = .ok () ↔ ∀ x ∈ xs, f x = .ok () := by
  induction xs with
  | nil => simp [List.forM, pure, Except.pure]
  | cons x xs ih =>
    have hcons : (x :: xs).forM f = f x >>= fun _ => xs.forM f := rfl
    rw [hcons, bind_eq_ok, List.forall_mem_cons]
    constructor
    · rintro ⟨_, hx, hxs⟩
      exact ⟨hx, ih.mp hxs⟩
    · rintro ⟨hx, hxs⟩
      exact ⟨(), hx, ih.mpr hxs⟩

theorem mapM_eq_ok {xs : List α} {f : α → Except ε β} {ys : List β} :
    xs.mapM f = .ok ys ↔ List.Forall₂ (fun x y => f x = .ok y) xs ys := by
  induction xs generalizing ys with
  | nil => simp [pure, Except.pure, eq_comm]
  | cons x xs ih =>
    rw [List.mapM_cons, bind_eq_ok]
    constructor
    · rintro ⟨y, hy, h⟩
      obtain ⟨ys', hys, h⟩ := bind_eq_ok.mp h
      cases pure_eq_ok.mp h
      exact .cons hy (ih.mp hys)
    · intro h
      cases h with
      | cons hy hys => exact ⟨_, hy, bind_eq_ok.mpr ⟨_, ih.mpr hys, rfl⟩⟩

/-- The results of a list of checks are the results of its elements. -/
theorem mem_mapM {xs : List α} {f : α → Except ε β} {ys : List β} (h : xs.mapM f = .ok ys)
    {y : β} : y ∈ ys ↔ ∃ x ∈ xs, f x = .ok y := by
  induction mapM_eq_ok.mp h with
  | nil => simp
  | cons hx hxs ih =>
    have ih := ih (mapM_eq_ok.mpr hxs)
    simp [ih, hx, eq_comm (a := y)]

theorem isOk_of_mapM {xs : List α} {f : α → Except ε β} {ys : List β} (h : xs.mapM f = .ok ys)
    {x : α} (hx : x ∈ xs) : ∃ y, f x = .ok y := by
  induction mapM_eq_ok.mp h with
  | nil => cases hx
  | cons hy hys ih =>
    rcases List.mem_cons.mp hx with rfl | hx
    · exact ⟨_, hy⟩
    · exact ih (mapM_eq_ok.mpr hys) hx

/-- A list of checks fails at the first element that fails. -/
theorem mapM_eq_error {xs : List α} {f : α → Except ε β} {e : ε} :
    xs.mapM f = .error e ↔ ∃ x, xs.find? (fun x => !(f x).isOk) = some x ∧ f x = .error e := by
  induction xs with
  | nil => simp [pure, Except.pure]
  | cons x xs ih =>
    rw [List.mapM_cons, bind_eq_error]
    cases hx : f x with
    | error e' =>
      simp [hx, Except.isOk, Except.toBool]
    | ok y =>
      simp only [reduceCtorEq, false_or, Except.ok.injEq, exists_eq_left', bind_eq_error, ih,
        pure, Except.pure, and_false, exists_false, or_false]
      simp [hx, Except.isOk, Except.toBool]

/-- What is made of the results has no say in the failure. -/
theorem mapM_pure_eq_error {xs : List α} {f : α → Except ε β} {g : α → β → γ} {e : ε} :
    xs.mapM (fun x => do let b ← f x; pure (g x b)) = .error e ↔ xs.mapM f = .error e := by
  have hok : ∀ x, (do let b ← f x; pure (g x b)).isOk = (f x).isOk := by
    intro x
    cases f x <;> rfl
  have herror : ∀ x, (do let b ← f x; pure (g x b)) = .error e ↔ f x = .error e := by
    intro x
    cases f x <;> simp [bind, Except.bind, pure, Except.pure]
  simp only [mapM_eq_error, hok, herror]

/-- Checks on groups of elements fail like the checks on all elements in a row. -/
theorem mapM_mapM_eq_error {xs : List γ} {g : γ → List α} {f : α → Except ε β} {e : ε} :
    xs.mapM (fun x => (g x).mapM f) = .error e ↔ (xs.flatMap g).mapM f = .error e := by
  induction xs with
  | nil => simp [pure, Except.pure]
  | cons x xs ih =>
    rw [List.mapM_cons, List.flatMap_cons, List.mapM_append, bind_eq_error, bind_eq_error]
    refine or_congr Iff.rfl (exists_congr fun ys => and_congr Iff.rfl ?_)
    rw [bind_eq_error, bind_eq_error, ih]
    simp [pure, Except.pure]

/-- Every element of a list that is mapped as a whole gives a value. -/
theorem isSome_of_mapM {f : α → Option β} {xs : List α} {ys : List β} (h : xs.mapM f = some ys) :
    ∀ x ∈ xs, (f x).isSome := by
  induction xs generalizing ys with
  | nil => simp
  | cons x xs ih =>
    rw [List.mapM_cons] at h
    obtain ⟨y, hy, h⟩ := Option.bind_eq_some_iff.mp h
    obtain ⟨ys', hys, _⟩ := Option.bind_eq_some_iff.mp h
    exact List.forall_mem_cons.mpr ⟨Option.isSome_of_eq_some hy, ih hys⟩

/-- A list of which every element gives a value. -/
theorem mapM_eq_filterMap {f : α → Option β} {xs : List α} (h : ∀ x ∈ xs, (f x).isSome) :
    xs.mapM f = some (xs.filterMap f) := by
  induction xs with
  | nil => rfl
  | cons x xs ih =>
    obtain ⟨y, hy⟩ := Option.isSome_iff_exists.mp (h x List.mem_cons_self)
    rw [List.mapM_cons, hy, ih (fun x' hx' => h x' (List.mem_cons_of_mem x hx')),
      List.filterMap_cons_some hy]
    rfl

end Checks
