import BulkActions.SustainedRate

namespace BulkActions

namespace RateLimiter

/-- The tokens that a request would find. -/
def credit (limit : ℕ) (nowMs : Int) (state : Option Bucket) : ℚ :=
  refilled limit (limit / 60) nowMs state

variable {limit n : ℕ} {now now' : Int} {state : Option Bucket}

theorem credit_eq_available (amount : Int) :
    credit limit now state = (⟨limit, amount, now⟩ : Call).available state := by
  simp [credit, Call.available]

theorem credit_nonneg (htokens : ∀ b, state = some b → 0 ≤ b.tokens) :
    0 ≤ credit limit now state := by
  rw [credit_eq_available 0]
  cases state with
  | none =>
    rw [Call.available_none]
    simp
  | some b =>
    rw [Call.available_some]
    have hb := htokens b rfl
    have hgap : (0 : ℚ) ≤ (max 0 (now - b.ts) : Int) := by exact_mod_cast le_max_left _ _
    refine le_min (by simp) (add_nonneg hb (div_nonneg (mul_nonneg hgap ?_) (by norm_num)))
    simp

theorem refill_add (limit : ℕ) (start now now' : Int) :
    (now' - start : ℚ) * limit / 60000 =
      (now - start : ℚ) * limit / 60000 + (now' - now : ℚ) * limit / 60000 := by
  ring

/-- Time adds no more than the refill. -/
theorem credit_advance (limit : ℕ) (hpast : ∀ b, state = some b → b.ts ≤ now) (hle : now ≤ now') :
    credit limit now' state ≤
      credit limit now state + (now' - now : ℚ) * limit / 60000 := by
  have hspan : (0 : ℚ) ≤ (now' - now : ℚ) * limit / 60000 := by
    have hcast : (now : ℚ) ≤ now' := by exact_mod_cast hle
    have hdiff : (0 : ℚ) ≤ now' - now := sub_nonneg.mpr hcast
    positivity
  rw [credit_eq_available 0, credit_eq_available 0]
  cases state with
  | none =>
    rw [Call.available_none, Call.available_none]
    linarith
  | some b =>
    have hts := hpast b rfl
    rw [Call.available_some, Call.available_some]
    dsimp only
    rw [max_eq_right (by omega), max_eq_right (by omega)]
    have hsplit : ((now' - b.ts : Int) : ℚ) * ((limit : Int) : ℚ) / 60000 =
        ((now - b.ts : Int) : ℚ) * ((limit : Int) : ℚ) / 60000 +
          (now' - now : ℚ) * limit / 60000 := by
      push_cast
      ring
    rw [hsplit, ← add_assoc]
    refine le_trans ?_ (min_add_add_right _ _ _).le
    exact min_le_min_right _ (by linarith)

/-- A request takes from the bucket what it is granted, and no more. -/
theorem credit_consume (state : Option Bucket) (hvalid : (⟨limit, n, now⟩ : Call).Valid) :
    credit limit now (RateLimiter.consume limit n now state).2 +
        (⟨limit, n, now⟩ : Call).granted state ≤ credit limit now state ∧
      ∀ b, (RateLimiter.consume limit n now state).2 = some b → b.ts = now := by
  obtain ⟨b, hb, htokens, hts, _⟩ := @Call.consume_bucket _ state hvalid
  have hbucket : (RateLimiter.consume limit n now state).2 = some b := hb
  refine ⟨?_, fun b' hb' => ?_⟩
  · rw [hbucket, credit_eq_available n, credit_eq_available n, Call.available_some]
    have hle := min_le_right (((⟨limit, n, now⟩ : Call).limit : ℚ))
      (b.tokens + ((max 0 (now - b.ts) : Int) : ℚ) * ((⟨limit, n, now⟩ : Call).limit : ℚ) / 60000)
    have hnone : max 0 (now - b.ts) = 0 := by
      rw [hts]
      simp
    rw [hnone, htokens] at hle
    simp only [hnone, htokens] at hle ⊢
    push_cast at hle ⊢
    linarith
  · cases hbucket.symm.trans hb'
    exact hts

theorem granted_eq_allowed (limit n : ℕ) (now : Int) (state : Option Bucket) :
    (⟨limit, n, now⟩ : Call).granted state =
      if (tokenBucket limit (limit / 60) now n state).1.allowed ∧ n ≤ limit then (n : ℚ)
      else 0 := by
  simp only [Call.granted, Call.consume, RateLimiter.consume]
  split_ifs <;> simp_all
  omega

theorem nonneg_granted (limit n : ℕ) (now : Int) (state : Option Bucket) :
    0 ≤ (⟨limit, n, now⟩ : Call).granted state := by
  rw [granted_eq_allowed]
  split_ifs
  · exact n.cast_nonneg
  · exact le_rfl

/-- A request leaves a bucket as it was if it is not a proper one. -/
theorem consume_invalid (hinvalid : ¬ (⟨limit, n, now⟩ : Call).Valid) :
    (RateLimiter.consume limit n now state).2 = state := by
  unfold RateLimiter.consume
  split_ifs with hzero hlt
  · rfl
  · rfl
  · refine absurd ⟨?_, not_lt.mp hlt⟩ hinvalid
    show (1 : Int) ≤ n
    omega

/-- What any request leaves of a bucket, and what it is granted. -/
theorem consume_spends (limit n : ℕ) (hreach : Reachable state)
    (hpast : ∀ b, state = some b → b.ts ≤ now) :
    Reachable (RateLimiter.consume limit n now state).2 ∧
      (∀ b, (RateLimiter.consume limit n now state).2 = some b → b.ts ≤ now) ∧
      credit limit now (RateLimiter.consume limit n now state).2 +
        (⟨limit, n, now⟩ : Call).granted state ≤ credit limit now state := by
  by_cases hvalid : (⟨limit, n, now⟩ : Call).Valid
  · obtain ⟨hcredit, hts⟩ := credit_consume state hvalid
    exact ⟨.consume ⟨limit, n, now⟩ hreach hvalid, fun b hb => (hts b hb).le, hcredit⟩
  · have hnone : (⟨limit, n, now⟩ : Call).granted state = 0 := by
      rw [granted_eq_allowed]
      split_ifs with hallowed
      · have hzero : ¬ 1 ≤ n := fun hpos =>
          hvalid ⟨Int.ofNat_le.mpr hpos, Int.ofNat_le.mpr hallowed.2⟩
        obtain rfl : n = 0 := by omega
        simp
      · rfl
    rw [consume_invalid hvalid, hnone, add_zero]
    exact ⟨hreach, hpast, le_rfl⟩

/-- A bucket never holds more than its limit. -/
theorem credit_le_limit (limit : ℕ) (now : Int) (state : Option Bucket) :
    credit limit now state ≤ limit := by
  have hle : (⟨limit, 0, now⟩ : Call).available state ≤ ((limit : Int) : ℚ) :=
    Call.available_le_limit
  rw [credit_eq_available 0]
  simpa using hle

end RateLimiter

end BulkActions
