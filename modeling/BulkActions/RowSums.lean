import BulkActions.Models
import Mathlib.Algebra.BigOperators.Group.Finset.Basic
import Mathlib.Algebra.Order.BigOperators.Group.Finset

namespace BulkActions

def BulkActionBatch.finished (b : BulkActionBatch) : Bool :=
  b.status = .completed || b.status = .failed

/-- The sum of `v` over the batch rows with an index below `n`. -/
def rowSum (n : Nat) (v : Option BulkActionBatch → Nat)
    (batches : Nat → Option BulkActionBatch) : Nat :=
  ∑ i ∈ Finset.range n, v (batches i)

theorem rowSum_update {n i : Nat} (hi : i < n) (v : Option BulkActionBatch → Nat)
    (batches : Nat → Option BulkActionBatch) (o : Option BulkActionBatch) :
    rowSum n v (Function.update batches i o) + v (batches i) = rowSum n v batches + v o := by
  have hm : i ∈ Finset.range n := Finset.mem_range.mpr hi
  unfold rowSum
  rw [← Finset.add_sum_erase _ _ hm, ← Finset.add_sum_erase _ (fun i => v (batches i)) hm,
    Function.update_self]
  have hrest : ∑ j ∈ (Finset.range n).erase i, v (Function.update batches i o j) =
      ∑ j ∈ (Finset.range n).erase i, v (batches j) := by
    apply Finset.sum_congr rfl
    intro j hj
    rw [Function.update_of_ne (Finset.ne_of_mem_erase hj)]
  omega

theorem rowSum_update_le (n i : Nat) (v : Option BulkActionBatch → Nat)
    (batches : Nat → Option BulkActionBatch) (o : Option BulkActionBatch) :
    rowSum n v (Function.update batches i o) ≤ rowSum n v batches + v o := by
  by_cases hi : i < n
  · have h := rowSum_update hi v batches o
    omega
  · have hsame : rowSum n v (Function.update batches i o) = rowSum n v batches := by
      apply Finset.sum_congr rfl
      intro j hj
      have hj := Finset.mem_range.mp hj
      rw [Function.update_of_ne (by omega)]
    omega

/-- `f` of a completed row, nothing of any other. -/
def completedValue (f : BulkActionBatch → Nat) : Option BulkActionBatch → Nat
  | none => 0
  | some b => if b.status = .completed then f b else 0

def finishedValue : Option BulkActionBatch → Nat
  | none => 0
  | some b => if b.finished then 1 else 0

theorem rowSum_zero {n : Nat} {v : Option BulkActionBatch → Nat}
    {batches : Nat → Option BulkActionBatch} (h : ∀ i, v (batches i) = 0) :
    rowSum n v batches = 0 :=
  Finset.sum_eq_zero (fun i _ => h i)

end BulkActions
