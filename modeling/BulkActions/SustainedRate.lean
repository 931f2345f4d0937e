import BulkActions.TokenBucket
import Mathlib.Algebra.BigOperators.Intervals
import Mathlib.Algebra.Order.BigOperators.Group.Finset
import Mathlib.Tactic.Ring

namespace BulkActions

namespace RateLimiter

open Finset

/-- What is spent and what is left stay within the first level and the income since. -/
theorem sum_spent_le {spent left income : ℕ → ℚ} {level : ℚ} {i : ℕ}
    (first : spent i + left i ≤ level)
    (step : ∀ k, i ≤ k → spent (k + 1) + left (k + 1) ≤ left k + income (k + 1)) {j : ℕ}
    (hij : i ≤ j) : ∑ k ∈ Icc i j, spent k + left j ≤ level + ∑ k ∈ Ioc i j, income k := by
  induction j, hij using Nat.le_induction with
  | base => simpa using first
  | succ j hij ih =>
    rw [sum_Icc_succ_top (by omega), sum_Ioc_succ_top hij]
    have hstep := step j hij
    linarith

namespace Call

variable {c : Call} {state : Option Bucket}

theorem available_none : c.available none = c.limit := by
  simp [available, refilled]

theorem available_some (b : Bucket) :
    c.available (some b) =
      min (c.limit : ℚ) (b.tokens + (max 0 (c.nowMs - b.ts) : Int) * c.limit / 60000) := by
  have hrefill : ∀ elapsed limit : ℚ, elapsed / 1000 * (limit / 60) = elapsed * limit / 60000 := by
    intro elapsed limit
    ring
  simp only [available, refilled, Option.map_some, Option.getD_some, hrefill]

theorem available_le_limit : c.available state ≤ c.limit := min_le_left _ _

theorem available_nonneg (h : c.Valid) (hb : ∀ b, state = some b → 0 ≤ b.tokens) :
    0 ≤ c.available state := by
  have hlimit : (0 : ℚ) < c.limit := by exact_mod_cast h.limit_pos
  cases state with
  | none =>
    rw [available_none]
    exact hlimit.le
  | some b =>
    have hgap : (0 : ℚ) ≤ (max 0 (c.nowMs - b.ts) : Int) := by exact_mod_cast le_max_left _ _
    rw [available_some]
    have htokens := hb b rfl
    exact le_min hlimit.le (by positivity)

theorem granted_le_available (h : c.Valid) (hb : ∀ b, state = some b → 0 ≤ b.tokens) :
    c.granted state ≤ c.available state := by
  rw [granted_eq h]
  split
  next hle => exact hle
  next => exact available_nonneg h hb

theorem granted_nonneg (h : c.Valid) : 0 ≤ c.granted state := by
  rw [granted_eq h]
  split
  next =>
    have hamount : 0 ≤ c.amount := by
      obtain ⟨hone, _⟩ := h
      omega
    exact_mod_cast hamount
  next => exact le_rfl

end Call

/-- Calls never leave less than nothing, and two minutes to live. -/
theorem Reachable.bucket {state : Option Bucket} (h : Reachable state) :
    ∀ b, state = some b → 0 ≤ b.tokens ∧ b.ttl = 120000 := by
  induction h with
  | none => simp
  | consume c _ hc ih =>
    intro b hb
    obtain ⟨b', hb', htokens, _, httl⟩ := Call.consume_bucket hc
    cases hb'.symm.trans hb
    have hle := Call.granted_le_available hc (fun b hb => (ih b hb).1)
    exact ⟨by linarith, httl⟩

section Sequence

variable {calls : ℕ → Call} {removed : ℕ → Bool} {start : Option Bucket}

theorem reachable_found (hstart : Reachable start) (hvalid : ∀ k, (calls k).Valid) (k : ℕ) :
    Reachable (bucket calls removed start k) ∧ Reachable (found calls removed start k) := by
  have hfound : ∀ k, Reachable (RateLimiter.bucket calls removed start k) →
      Reachable (found calls removed start k) := by
    intro k hk
    unfold found
    split
    next => exact .none
    next => exact hk
  induction k with
  | zero => exact ⟨hstart, hfound 0 hstart⟩
  | succ k ih =>
    have hk : Reachable (RateLimiter.bucket calls removed start (k + 1)) :=
      .consume (calls k) ih.2 (hvalid k)
    exact ⟨hk, hfound (k + 1) hk⟩

/-- The tokens that a call leaves. -/
def remaining (calls : ℕ → Call) (removed : ℕ → Bool) (start : Option Bucket) (k : ℕ) : ℚ :=
  (calls k).available (found calls removed start k) - granted calls removed start k

theorem bucket_succ (hvalid : ∀ k, (calls k).Valid) (k : ℕ) :
    ∃ b, bucket calls removed start (k + 1) = some b ∧ b.tokens = remaining calls removed start k ∧
      b.ts = (calls k).nowMs ∧ b.ttl = 120000 :=
  Call.consume_bucket (hvalid k)

theorem found_tokens (hstart : Reachable start) (hvalid : ∀ k, (calls k).Valid) (k : ℕ) :
    ∀ b, found calls removed start k = some b → 0 ≤ b.tokens :=
  fun b hb => ((reachable_found hstart hvalid k).2.bucket b hb).1

theorem remaining_nonneg (hstart : Reachable start) (hvalid : ∀ k, (calls k).Valid) (k : ℕ) :
    0 ≤ remaining calls removed start k :=
  sub_nonneg.mpr (Call.granted_le_available (hvalid k) (found_tokens hstart hvalid k))

theorem remaining_le_limit (hvalid : ∀ k, (calls k).Valid) (k : ℕ) :
    remaining calls removed start k ≤ (calls k).limit := by
  have hle : (calls k).available (found calls removed start k) ≤ (calls k).limit :=
    Call.available_le_limit
  have hgranted : 0 ≤ granted calls removed start k := Call.granted_nonneg (hvalid k)
  unfold remaining
  linarith

/-- The milliseconds of refill that a call finds: none when the clock goes back, and a full
minute, which fills any bucket, when the key has been removed. -/
def gap (now : ℕ → Int) (removed : ℕ → Bool) (k : ℕ) : Int :=
  if removed (k + 1) then 60000 else min 60000 (max 0 (now (k + 1) - now k))

/-- A minute of refill fills any bucket. -/
theorem min_refill {limit tokens : ℚ} (hlimit : 0 ≤ limit) (htokens : 0 ≤ tokens) {ms : Int}
    (hms : 60000 ≤ ms) : min limit (tokens + ms * limit / 60000) = limit := by
  have hms : (60000 : ℚ) ≤ ms := by exact_mod_cast hms
  have hrefill : 60000 * limit ≤ ms * limit := mul_le_mul_of_nonneg_right hms hlimit
  exact min_eq_left (by linarith)

theorem available_succ (hstart : Reachable start) (hvalid : ∀ k, (calls k).Valid) (k : ℕ) :
    (calls (k + 1)).available (found calls removed start (k + 1)) =
      min ((calls (k + 1)).limit : ℚ)
        (remaining calls removed start k +
          gap (fun k => (calls k).nowMs) removed k * (calls (k + 1)).limit / 60000) := by
  obtain ⟨b, hb, htokens, hts, _⟩ :=
    @bucket_succ calls removed start hvalid k
  have hnonneg := @remaining_nonneg calls removed start hstart hvalid k
  have hlimit : (0 : ℚ) ≤ (calls (k + 1)).limit := by
    exact_mod_cast (hvalid (k + 1)).limit_pos.le
  by_cases hremoved : removed (k + 1) = true
  · have hgap : gap (fun k => (calls k).nowMs) removed k = 60000 := by simp [gap, hremoved]
    rw [found, if_pos hremoved, Call.available_none, hgap, min_refill hlimit hnonneg le_rfl]
  · have hgap : gap (fun k => (calls k).nowMs) removed k =
        min 60000 (max 0 ((calls (k + 1)).nowMs - (calls k).nowMs)) := by simp [gap, hremoved]
    rw [found, if_neg hremoved, hb, Call.available_some, htokens, hts, hgap]
    generalize max 0 ((calls (k + 1)).nowMs - (calls k).nowMs) = elapsed
    by_cases hfull : 60000 ≤ elapsed
    · rw [min_eq_left hfull, min_refill hlimit hnonneg hfull, min_refill hlimit hnonneg le_rfl]
    · rw [min_eq_right (show elapsed ≤ 60000 by omega)]

/-- A call is granted and leaves at most what the last one left and the refill since. -/
theorem granted_add_remaining (hstart : Reachable start) (hvalid : ∀ k, (calls k).Valid) (k : ℕ) :
    granted calls removed start (k + 1) + remaining calls removed start (k + 1) ≤
      remaining calls removed start k +
        gap (fun k => (calls k).nowMs) removed k * (calls (k + 1)).limit / 60000 := by
  have havailable := @available_succ calls removed start hstart hvalid k
  have hsum : granted calls removed start (k + 1) + remaining calls removed start (k + 1) =
      (calls (k + 1)).available (found calls removed start (k + 1)) := by
    unfold remaining
    ring
  rw [hsum, havailable]
  exact min_le_right _ _

theorem granted_add_remaining_le_limit (k : ℕ) :
    granted calls removed start k + remaining calls removed start k ≤ (calls k).limit := by
  have hle : (calls k).available (found calls removed start k) ≤ (calls k).limit :=
    Call.available_le_limit
  unfold remaining
  linarith

/-- With clocks that agree the refill is for the time that has passed. -/
theorem gap_le (hvalid : ∀ k, (calls k).Valid)
    (hmono : ∀ k, (calls k).nowMs ≤ (calls (k + 1)).nowMs)
    (htimely : Timely calls removed start) (k : ℕ) :
    gap (fun k => (calls k).nowMs) removed k ≤ (calls (k + 1)).nowMs - (calls k).nowMs := by
  have hstep := hmono k
  unfold gap
  split
  next hremoved =>
    obtain ⟨b, hb, _, hts, httl⟩ := @bucket_succ calls removed start hvalid k
    have hdeadline := htimely (k + 1) b hremoved hb
    omega
  next =>
    dsimp only
    omega

end Sequence

/-- The bucket enforces the sustained rate through changes of the limit. -/
theorem sustained_rate {calls : ℕ → Call} {removed : ℕ → Bool} {start : Option Bucket}
    (hstart : Reachable start) (hvalid : ∀ k, (calls k).Valid)
    (hmono : ∀ k, (calls k).nowMs ≤ (calls (k + 1)).nowMs)
    (htimely : Timely calls removed start) :
    (∀ k, ∃ b, bucket calls removed start (k + 1) = some b ∧
      0 ≤ b.tokens ∧ b.tokens ≤ (calls k).limit) ∧
    ∀ i j, i ≤ j → ∑ k ∈ Icc i j, granted calls removed start k ≤
      (calls i).limit +
        ∑ k ∈ Ioc i j, ((calls k).nowMs - (calls (k - 1)).nowMs : ℚ) * (calls k).limit / 60000 := by
  constructor
  · intro k
    obtain ⟨b, hb, htokens, _⟩ := @bucket_succ calls removed start hvalid k
    refine ⟨b, hb, ?_, ?_⟩
    · exact htokens ▸ remaining_nonneg hstart hvalid k
    · exact htokens ▸ remaining_le_limit hvalid k
  · intro i j hij
    have hsum := @sum_spent_le (granted calls removed start) (remaining calls removed start)
      (fun k => ((calls k).nowMs - (calls (k - 1)).nowMs : ℚ) * (calls k).limit / 60000)
      (calls i).limit i (granted_add_remaining_le_limit i) (by
        intro k _
        have hstep := @granted_add_remaining calls removed start hstart hvalid k
        have hgap : (gap (fun k => (calls k).nowMs) removed k : ℚ) ≤
            (calls (k + 1)).nowMs - (calls k).nowMs := by
          exact_mod_cast gap_le hvalid hmono htimely k
        have hlimit : (0 : ℚ) ≤ (calls (k + 1)).limit := by
          exact_mod_cast (hvalid (k + 1)).limit_pos.le
        have hrefill := mul_le_mul_of_nonneg_right hgap hlimit
        simp only [Nat.add_sub_cancel]
        linarith) j hij
    have hnonneg := @remaining_nonneg calls removed start hstart hvalid j
    linarith

/-- A full bucket asked for every two minutes, when the key has just expired. -/
def idleCalls (k : ℕ) : Call := ⟨60, 60, 120000 * k⟩

theorem idleCalls_valid (k : ℕ) : (idleCalls k).Valid := by simp [Call.Valid, idleCalls]

theorem idleCalls_timely : Timely idleCalls (fun k => 0 < k) none := by
  intro k b hremoved hb
  cases k with
  | zero => simp at hremoved
  | succ k =>
    obtain ⟨b', hb', _, hts, httl⟩ := @bucket_succ idleCalls (fun k => 0 < k) none idleCalls_valid k
    cases hb'.symm.trans hb
    rw [hts, httl]
    simp [idleCalls]
    omega

theorem sustained_rate_idle :
    (∀ k, ∃ b, bucket idleCalls (fun k => 0 < k) none (k + 1) = some b ∧
      0 ≤ b.tokens ∧ b.tokens ≤ (idleCalls k).limit) ∧
    ∀ i j, i ≤ j → ∑ k ∈ Icc i j, granted idleCalls (fun k => 0 < k) none k ≤
      (idleCalls i).limit + ∑ k ∈ Ioc i j,
        ((idleCalls k).nowMs - (idleCalls (k - 1)).nowMs : ℚ) * (idleCalls k).limit / 60000 :=
  sustained_rate .none idleCalls_valid (fun k => by simp [idleCalls]) idleCalls_timely

/-- A bucket that is not touched for two minutes is full. -/
theorem Call.consume_removed {c : Call} {b : Bucket} (hc : c.Valid) (htokens : 0 ≤ b.tokens)
    (hdeadline : b.ts + 120000 ≤ c.nowMs) : c.consume none = c.consume (some b) := by
  have hlimit : (0 : ℚ) ≤ c.limit := by exact_mod_cast hc.limit_pos.le
  have helapsed : 60000 ≤ max 0 (c.nowMs - b.ts) := by omega
  apply Call.consume_congr hc
  rw [Call.available_none, Call.available_some, min_refill hlimit htokens helapsed]

/-- What a call finds makes no difference when only expired keys are removed. -/
theorem consume_found {calls : ℕ → Call} {removed : ℕ → Bool} {start : Option Bucket}
    (hstart : Reachable start) (hvalid : ∀ k, (calls k).Valid)
    (htimely : Timely calls removed start) (k : ℕ) :
    (calls k).consume (found calls removed start k) =
      (calls k).consume (bucket calls removed start k) := by
  by_cases hremoved : removed k = true
  · rw [found, if_pos hremoved]
    cases hb : bucket calls removed start k with
    | none => rfl
    | some b =>
      obtain ⟨htokens, httl⟩ := (reachable_found hstart hvalid k).1.bucket b hb
      have hdeadline := htimely k b hremoved hb
      exact Call.consume_removed (hvalid k) htokens (httl ▸ hdeadline)
  · rw [found, if_neg hremoved]

theorem bucket_unremoved {calls : ℕ → Call} {removed : ℕ → Bool} {start : Option Bucket}
    (hstart : Reachable start) (hvalid : ∀ k, (calls k).Valid)
    (htimely : Timely calls removed start) (k : ℕ) :
    bucket calls removed start k = bucket calls (fun _ => false) start k := by
  induction k with
  | zero => rfl
  | succ k ih =>
    have hfound := consume_found hstart hvalid htimely k
    calc bucket calls removed start (k + 1)
        = ((calls k).consume (found calls removed start k)).2 := rfl
      _ = ((calls k).consume (bucket calls (fun _ => false) start k)).2 := by rw [hfound, ih]
      _ = bucket calls (fun _ => false) start (k + 1) := rfl

/-- Removing a key whose deadline has passed changes no decision. -/
theorem expiry_unobservable {calls : ℕ → Call} {removed : ℕ → Bool} {start : Option Bucket}
    (hstart : Reachable start) (hvalid : ∀ k, (calls k).Valid)
    (htimely : Timely calls removed start) (k : ℕ) :
    decision calls removed start k = decision calls (fun _ => false) start k := by
  have hfound := consume_found hstart hvalid htimely k
  calc decision calls removed start k
      = ((calls k).consume (found calls removed start k)).1 := rfl
    _ = ((calls k).consume (bucket calls (fun _ => false) start k)).1 := by
      rw [hfound, bucket_unremoved hstart hvalid htimely k]
    _ = decision calls (fun _ => false) start k := rfl

theorem expiry_unobservable_idle :
    decision idleCalls (fun k => 0 < k) none 1 = decision idleCalls (fun _ => false) none 1 :=
  expiry_unobservable .none idleCalls_valid idleCalls_timely 1

end RateLimiter

end BulkActions
