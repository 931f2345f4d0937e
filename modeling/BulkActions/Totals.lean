import Mathlib.Data.Finsupp.Basic

namespace Totals

variable {ι : Type} {f g : ι → ℕ} {n m : ℕ} {x : ι}

/-- `f` is zero almost everywhere and sums up to `n`. -/
def Total (f : ι → ℕ) (n : ℕ) : Prop := ∃ F : ι →₀ ℕ, ⇑F = f ∧ F.sum (fun _ k => k) = n

theorem total_zero : Total (fun _ : ι => 0) 0 := ⟨0, rfl, Finsupp.sum_zero_index⟩

/-- A function that is zero outside a finite set has a total. -/
theorem exists_total {xs : Finset ι} (h : ∀ y ∉ xs, f y = 0) : ∃ n, Total f n := by
  classical
  refine ⟨_, Finsupp.onFinset xs f (fun y hy => ?_), rfl, rfl⟩
  by_contra hnot
  exact hy (h y hnot)

/-- The total follows a change at one place. -/
theorem Total.change (h : Total f n) (hsame : ∀ y, y ≠ x → g y = f y) :
    ∃ m, Total g m ∧ m + f x = n + g x := by
  classical
  obtain ⟨F, rfl, rfl⟩ := h
  refine ⟨_, ⟨F.update x (g x), ?_, rfl⟩, ?_⟩
  · funext y
    by_cases hy : y = x
    · subst hy
      simp
    · simp [hy, hsame y hy]
  · exact Finsupp.sum_update_add F x (g x) (fun _ k => k) (fun _ => rfl) (fun _ _ _ => rfl)

end Totals
