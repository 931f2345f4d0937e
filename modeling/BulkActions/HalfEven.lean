import Mathlib.Data.Rat.Floor
import Mathlib.Tactic.Linarith

namespace HalfEven

/-- The nearest integer, and of two that are equally near the even one. -/
def round (q : ℚ) : ℤ :=
  if 1 / 2 < q - ⌊q⌋ || (q - ⌊q⌋ = 1 / 2 && ⌊q⌋ % 2 = 1) then ⌊q⌋ + 1 else ⌊q⌋

variable {q : ℚ} {n : ℤ}

theorem round_le (h : q < n + 1 / 2) : round q ≤ n := by
  have hfloor := Int.floor_le q
  unfold round
  split_ifs with hup
  · have hhalf : 1 / 2 ≤ q - ⌊q⌋ := by
      rcases Bool.or_eq_true_iff.mp hup with hup | hup
      · exact (of_decide_eq_true hup).le
      · exact (of_decide_eq_true (Bool.and_eq_true_iff.mp hup).1).ge
    have hlt : (⌊q⌋ : ℚ) < n := by linarith
    exact Int.add_one_le_iff.mpr (Int.cast_lt.mp hlt)
  · have hlt : (⌊q⌋ : ℚ) < n + 1 := by linarith
    exact Int.lt_add_one_iff.mp (by exact_mod_cast hlt)

theorem le_round (h : n - 1 / 2 < q) : n ≤ round q := by
  have hfloor := Int.lt_floor_add_one q
  unfold round
  split_ifs with hup
  · have hlt : (n : ℚ) < ⌊q⌋ + 1 + 1 := by linarith
    exact Int.lt_add_one_iff.mp (by exact_mod_cast hlt)
  · have hhalf : q - ⌊q⌋ ≤ 1 / 2 := by
      rw [Bool.or_eq_true, not_or] at hup
      simpa using hup.1
    have hlt : (n : ℚ) < ⌊q⌋ + 1 := by linarith
    exact Int.lt_add_one_iff.mp (by exact_mod_cast hlt)

/-- A tie below an even integer goes up to it. -/
theorem round_tie (hn : n % 2 = 0) : round (n - 1 / 2) = n := by
  have hfloor : ⌊(n : ℚ) - 1 / 2⌋ = n - 1 := by
    rw [Int.floor_eq_iff]
    push_cast
    constructor <;> linarith
  have htie : (n : ℚ) - 1 / 2 - ((n - 1 : ℤ) : ℚ) = 1 / 2 := by
    push_cast
    ring
  have hodd : (n - 1) % 2 = 1 := by omega
  unfold round
  rw [hfloor, htie]
  simp [hodd]

theorem le_round_iff (hn : n % 2 = 0) : n ≤ round q ↔ n - 1 / 2 ≤ q := by
  constructor
  · intro h
    by_contra hlt
    have hle : round q ≤ n - 1 := round_le (by push_cast; linarith)
    omega
  · intro h
    rcases h.eq_or_lt with rfl | h
    · exact (round_tie hn).ge
    · exact le_round h

end HalfEven
