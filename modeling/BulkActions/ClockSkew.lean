import BulkActions.SustainedRate
import Mathlib.Data.Finset.Lattice.Fold

namespace BulkActions

namespace RateLimiter

open Finset

/-- The latest less the earliest of the first times of a sequence. -/
def clockSpan (now : ℕ → Int) (n : ℕ) : Int :=
  (range (n + 1)).sup' nonempty_range_add_one now - (range (n + 1)).inf' nonempty_range_add_one now

/-- Calls of one limit. -/
def callsAt (limit : Int) (amount now : ℕ → Int) (k : ℕ) : Call := ⟨limit, amount k, now k⟩

section Bound

variable {calls : ℕ → Call} {removed : ℕ → Bool} {start : Option Bucket}

/-- Under one limit the grants stay within a full bucket and the refill of the gaps. -/
theorem sum_granted_le {limit : Int} (hstart : Reachable start) (hvalid : ∀ k, (calls k).Valid)
    (hlimit : ∀ k, (calls k).limit = limit) (n : ℕ) :
    ∑ k ∈ range (n + 1), granted calls removed start k + remaining calls removed start n ≤
      limit + (∑ k ∈ range n, gap (fun k => (calls k).nowMs) removed k : Int) * limit / 60000 := by
  induction n with
  | zero =>
    have hfirst := @granted_add_remaining_le_limit calls removed start 0
    rw [hlimit] at hfirst
    simpa using hfirst
  | succ n ih =>
    have hstep := @granted_add_remaining calls removed start hstart hvalid n
    rw [hlimit] at hstep
    rw [sum_range_succ _ (n + 1), sum_range_succ (gap _ _) n]
    push_cast at ih ⊢
    linarith

end Bound

/-- Takes all there is in a bucket of 60000, one token a millisecond. -/
def greedy (now : ℕ → Int) (removed : ℕ → Bool) : ℕ → Int
  | 0 => 60000
  | k + 1 => max 1 (gap now removed k)

section Greedy

variable {now : ℕ → Int} {removed : ℕ → Bool}

theorem gap_bounds (k : ℕ) : 0 ≤ gap now removed k ∧ gap now removed k ≤ 60000 := by
  unfold gap
  split
  next => omega
  next => omega

theorem greedy_bounds (k : ℕ) : 1 ≤ greedy now removed k ∧ greedy now removed k ≤ 60000 := by
  cases k with
  | zero => simp [greedy]
  | succ k =>
    have hgap := @gap_bounds now removed k
    simp only [greedy]
    omega

theorem greedy_valid (k : ℕ) : (callsAt 60000 (greedy now removed) now k).Valid :=
  greedy_bounds k

/-- The first greedy call empties the bucket. -/
theorem greedy_first :
    granted (callsAt 60000 (greedy now removed) now) removed none 0 = 60000 ∧
      remaining (callsAt 60000 (greedy now removed) now) removed none 0 = 0 := by
  have hfound : found (callsAt 60000 (greedy now removed) now) removed none 0 = none := by
    simp [found, bucket]
  have hgranted : granted (callsAt 60000 (greedy now removed) now) removed none 0 = 60000 := by
    rw [granted, Call.granted_eq (greedy_valid 0), hfound, Call.available_none]
    simp [callsAt, greedy]
  refine ⟨hgranted, ?_⟩
  rw [remaining, hgranted, hfound, Call.available_none]
  simp [callsAt]

/-- The next ones are granted the refill since the last call. -/
theorem greedy_next {k : ℕ}
    (hempty : remaining (callsAt 60000 (greedy now removed) now) removed none k = 0) :
    granted (callsAt 60000 (greedy now removed) now) removed none (k + 1) = gap now removed k ∧
      remaining (callsAt 60000 (greedy now removed) now) removed none (k + 1) = 0 := by
  obtain ⟨hnonneg, hle⟩ := @gap_bounds now removed k
  have havailable : (callsAt 60000 (greedy now removed) now (k + 1)).available
      (found (callsAt 60000 (greedy now removed) now) removed none (k + 1)) =
        gap now removed k := by
    rw [available_succ .none greedy_valid k, hempty]
    have hrefill : (0 : ℚ) + gap now removed k * (60000 : Int) / 60000 = gap now removed k := by
      push_cast
      ring
    change min ((60000 : Int) : ℚ) (0 + gap now removed k * (60000 : Int) / 60000) = _
    rw [hrefill]
    exact min_eq_right (by exact_mod_cast hle)
  have hgranted :
      granted (callsAt 60000 (greedy now removed) now) removed none (k + 1) =
        gap now removed k := by
    rw [granted, Call.granted_eq (greedy_valid (k + 1)), havailable]
    change (if ((max 1 (gap now removed k) : Int) : ℚ) ≤ gap now removed k then
      ((max 1 (gap now removed k) : Int) : ℚ) else 0) = gap now removed k
    by_cases hone : 1 ≤ gap now removed k
    · rw [max_eq_right hone, if_pos le_rfl]
    · have hzero : gap now removed k = 0 := by omega
      rw [hzero]
      norm_num
  refine ⟨hgranted, ?_⟩
  rw [remaining, havailable, hgranted, sub_self]

theorem sum_granted_greedy (n : ℕ) :
    ∑ k ∈ range (n + 1), granted (callsAt 60000 (greedy now removed) now) removed none k =
        60000 + (∑ k ∈ range n, gap now removed k : Int) ∧
      remaining (callsAt 60000 (greedy now removed) now) removed none n = 0 := by
  induction n with
  | zero => simpa using greedy_first
  | succ n ih =>
    obtain ⟨hsum, hempty⟩ := ih
    obtain ⟨hgranted, hleft⟩ := greedy_next hempty
    refine ⟨?_, hleft⟩
    rw [sum_range_succ _ (n + 1), hsum, hgranted, sum_range_succ (gap now removed) n]
    push_cast
    ring

end Greedy

/-- Under one limit the grants stay within a full bucket and the refill of the whole span of
the clocks, whatever is asked for, exactly when the steps forward of the clocks from call to
call, each counted for a minute at most, add up to no more than the span. -/
theorem skewed_clocks_iff (now : ℕ → Int) (removed : ℕ → Bool) (n : ℕ) :
    (∀ (limit : Int) (amount : ℕ → Int) (start : Option Bucket),
      (∀ k, (callsAt limit amount now k).Valid) → Reachable start →
      ∑ k ∈ range (n + 1), granted (callsAt limit amount now) removed start k ≤
        limit + (clockSpan now n : ℚ) * limit / 60000) ↔
      ∑ k ∈ range n, gap now removed k ≤ clockSpan now n := by
  constructor
  · intro hall
    have hgreedy := hall 60000 (greedy now removed) none greedy_valid .none
    have hlimit : ((60000 : Int) : ℚ) = 60000 := by norm_num
    rw [(sum_granted_greedy n).1, hlimit] at hgreedy
    have hle : ((∑ k ∈ range n, gap now removed k : Int) : ℚ) ≤ clockSpan now n := by linarith
    exact Int.cast_le.mp hle
  · intro hgaps limit amount start hvalid hstart
    have hsum := @sum_granted_le (callsAt limit amount now) removed start limit hstart hvalid
      (fun _ => rfl) n
    have hnonneg := @remaining_nonneg (callsAt limit amount now) removed start hstart hvalid n
    have hlimit : (0 : ℚ) ≤ limit := by exact_mod_cast (hvalid 0).limit_pos.le
    have hspan : ((∑ k ∈ range n, gap now removed k : Int) : ℚ) * limit ≤
        clockSpan now n * limit :=
      mul_le_mul_of_nonneg_right (by exact_mod_cast hgaps) hlimit
    change _ + _ ≤ (limit : ℚ) + ((∑ k ∈ range n, gap now removed k : Int) : ℚ) * limit / 60000
      at hsum
    linarith

/-- Two workers whose clocks are a second apart, taking turns. -/
def turns (k : ℕ) : Int := if k % 2 = 0 then 1000 else 0

/-- A limit of 60 is exceeded by five calls within one second. -/
theorem skewed_clocks_exceed_rate :
    ¬ ∀ (limit : Int) (amount now : ℕ → Int) (n : ℕ),
      (∀ k, (callsAt limit amount now k).Valid) →
      ∑ k ∈ range (n + 1), granted (callsAt limit amount now) (fun _ => false) none k ≤
        limit + (clockSpan now n : ℚ) * limit / 60000 := by
  intro always
  have hvalid : ∀ k, (callsAt 60 (fun k => if k = 0 then 60 else 1) turns k).Valid := by
    intro k
    cases k <;> simp [callsAt, Call.Valid]
  have hle := always 60 _ turns 4 hvalid
  exact absurd hle (by decide +kernel)

end RateLimiter

end BulkActions
