import BulkActions.SustainedRate
import Mathlib.Algebra.Order.Archimedean.Real.Basic

namespace BulkActions

/-- What `int` makes of a number. -/
def intOf (x : ℚ) : Int := if 0 ≤ x then ⌊x⌋ else ⌈x⌉

structure RateLimitError where
  detail : String
  retryAfterSeconds : ℚ := 60

/-- The seconds that a client is told to wait. -/
def RateLimitError.retryAfter (e : RateLimitError) : Int := intOf e.retryAfterSeconds

/-- The headers that `_app_error` adds to the problem document. -/
def RateLimitError.headers (e : RateLimitError) : List (String × String) :=
  [("Retry-After", toString e.retryAfter)]

namespace RateLimiter

/-- The 429 of `create_bulk_action` on a denied submission. -/
def submissionError (limit : Int) (d : Decision) : RateLimitError where
  detail := s!"Account exceeded {limit} bulk action submissions per minute."
  retryAfterSeconds := d.retryAfterSeconds

/-- A request made at a real time, in milliseconds. -/
noncomputable def callAt (limit amount : Int) (t : ℝ) : Call := ⟨limit, amount, ⌊t⌋⟩

namespace Call

/-- `consume` lets the request through. -/
def Allowed (c : Call) (state : Option Bucket) : Prop :=
  ∃ d, (c.consume state).1 = .ok d ∧ d.allowed

theorem allowed_iff {c : Call} {state : Option Bucket} (h : c.Valid) :
    c.Allowed state ↔ (c.amount : ℚ) ≤ c.available state := by
  constructor
  · rintro ⟨d, hd, hallowed⟩
    by_contra hlt
    rw [consume_denied h (lt_of_not_ge hlt)] at hd
    cases hd
    cases hallowed
  · intro hle
    exact ⟨_, by rw [consume_granted h hle], rfl⟩

end Call

section Wait

variable {limit amount : Int} {t t' : ℝ} {state left found : Option Bucket} {d : Decision}

theorem callAt_valid (hone : 1 ≤ amount) (hle : amount ≤ limit) (t : ℝ) :
    (callAt limit amount t).Valid :=
  ⟨hone, hle⟩

theorem callAt_available (b : Bucket) :
    (callAt limit amount t).available (some b) =
      min (limit : ℚ) (b.tokens + (max 0 (⌊t⌋ - b.ts) : Int) * limit / 60000) :=
  Call.available_some b

/-- What a denial says and leaves. -/
theorem eq_of_denied (hone : 1 ≤ amount) (hle : amount ≤ limit)
    (hd : (callAt limit amount t).consume state = (.ok d, left)) (hdenied : d.allowed = false) :
    (callAt limit amount t).available state < amount ∧
      d.retryAfterSeconds = (amount - (callAt limit amount t).available state) / (limit / 60) ∧
      left = some ⟨(callAt limit amount t).available state, ⌊t⌋, 120000⟩ := by
  have hvalid := callAt_valid hone hle t
  by_cases henough : (amount : ℚ) ≤ (callAt limit amount t).available state
  · rw [Call.consume_granted hvalid henough] at hd
    cases hd
    cases hdenied
  · rw [Call.consume_denied hvalid (lt_of_not_ge henough)] at hd
    cases hd
    exact ⟨lt_of_not_ge henough, rfl, rfl⟩

/-- Waiting a whole number of milliseconds passes at least as many on the truncated clock. -/
theorem floor_add_le_floor {ms : Int} (h : t + ms ≤ t') : ⌊t⌋ + ms ≤ ⌊t'⌋ := by
  rw [← Int.floor_add_intCast]
  exact Int.floor_le_floor h

/-- A request that was denied gets through as soon as the refill covers what was missing, and at
any time when Redis has removed the key. -/
theorem allowed_after_wait (hone : 1 ≤ amount) (hle : amount ≤ limit)
    (hd : (callAt limit amount t).consume state = (.ok d, left)) (hdenied : d.allowed = false)
    {ms : Int} (hms : d.retryAfterSeconds * 1000 ≤ ms) (hlate : t + ms ≤ t')
    (hfound : found = left ∨ found = none) : (callAt limit amount t').Allowed found := by
  have hlimit : (0 : ℚ) < limit := by exact_mod_cast (by omega : 0 < limit)
  have hcap : (amount : ℚ) ≤ limit := by exact_mod_cast hle
  refine (Call.allowed_iff (callAt_valid hone hle t')).mpr ?_
  rcases hfound with rfl | rfl
  · obtain ⟨_, hseconds, rfl⟩ := eq_of_denied hone hle hd hdenied
    have hpassed : ms ≤ max 0 (⌊t'⌋ - ⌊t⌋) := by
      have hfloor := floor_add_le_floor hlate
      omega
    have hpassed : (ms : ℚ) ≤ (max 0 (⌊t'⌋ - ⌊t⌋) : Int) := by exact_mod_cast hpassed
    have hmissing : (amount - (callAt limit amount t).available state) * 60000 =
        d.retryAfterSeconds * 1000 * limit := by
      rw [hseconds]
      field_simp
      ring
    have hrefill := mul_le_mul_of_nonneg_right (hms.trans hpassed) hlimit.le
    rw [callAt_available]
    refine le_min hcap ?_
    dsimp only [callAt] at hmissing ⊢
    linarith
  · rw [Call.available_none]
    exact hcap

/-- It does not get through any sooner. -/
theorem wait_of_allowed (hone : 1 ≤ amount) (hle : amount ≤ limit)
    (hd : (callAt limit amount t).consume state = (.ok d, left)) (hdenied : d.allowed = false)
    {ms : Int} (hms : 0 ≤ ms) (hallowed : (callAt limit amount (t + ms)).Allowed left) :
    d.retryAfterSeconds * 1000 ≤ ms := by
  have hlimit : (0 : ℚ) < limit := by exact_mod_cast (by omega : 0 < limit)
  obtain ⟨_, hseconds, rfl⟩ := eq_of_denied hone hle hd hdenied
  have henough := (Call.allowed_iff (callAt_valid hone hle (t + ms))).mp hallowed
  have helapsed : max 0 (⌊t + ms⌋ - ⌊t⌋) = ms := by
    rw [Int.floor_add_intCast]
    omega
  rw [callAt_available] at henough
  have hrefill := henough.trans (min_le_right _ _)
  dsimp only [callAt] at hrefill hseconds
  rw [helapsed] at hrefill
  rw [hseconds, div_mul_eq_mul_div, div_le_iff₀ (by positivity)]
  linarith

/-- A batch that was denied and comes back when its deferral is over is let through. -/
theorem deferred_batch_allowed (hone : 1 ≤ amount) (hle : amount ≤ limit)
    (hd : (callAt limit amount t).consume state = (.ok d, left)) (hdenied : d.allowed = false)
    (hlate : t + d.retryAfterMs ≤ t') (hfound : found = left ∨ found = none) :
    (callAt limit amount t').Allowed found := by
  have hms : d.retryAfterSeconds * 1000 ≤ d.retryAfterMs := by
    have hfloor := (Int.lt_floor_add_one (d.retryAfterSeconds * 1000)).le
    rw [Decision.retryAfterMs]
    push_cast
    linarith
  exact allowed_after_wait hone hle hd hdenied hms hlate hfound

/-- What a denied request misses in the bucket: the refill since the last call, and that of the
wait. -/
theorem missing_of_denied (hone : 1 ≤ amount) (hle : amount ≤ limit)
    (hd : (callAt limit amount t).consume state = (.ok d, left)) (hdenied : d.allowed = false) :
    0 < d.retryAfterSeconds ∧ ∃ b, state = some b ∧ amount - b.tokens =
      (1000 * d.retryAfterSeconds + (max 0 (⌊t⌋ - b.ts) : Int)) * limit / 60000 := by
  have hlimit : (0 : ℚ) < limit := by exact_mod_cast (by omega : 0 < limit)
  have hcap : (amount : ℚ) ≤ limit := by exact_mod_cast hle
  obtain ⟨hshort, hseconds, _⟩ := eq_of_denied hone hle hd hdenied
  refine ⟨hseconds ▸ div_pos (sub_pos.mpr hshort) (by positivity), ?_⟩
  cases state with
  | none =>
    rw [Call.available_none] at hshort
    exact absurd hcap (not_le_of_gt hshort)
  | some b =>
    refine ⟨b, rfl, ?_⟩
    rw [callAt_available] at hshort hseconds
    have hnotfull := (min_lt_iff.mp hshort).resolve_left (not_lt_of_ge hcap)
    rw [min_eq_right (hnotfull.le.trans hcap)] at hseconds
    rw [hseconds]
    field_simp
    ring

/-- A submission that was denied and comes back after the seconds of its `Retry-After` header is
let through exactly when the bucket was a whole number of seconds short of one token. -/
theorem retry_after_sufficient_iff (hone : 1 ≤ limit)
    (hd : (callAt limit 1 t).consume state = (.ok d, left)) (hdenied : d.allowed = false) :
    (∀ t' found, t + 1000 * (submissionError limit d).retryAfter ≤ t' →
        found = left ∨ found = none → (callAt limit 1 t').Allowed found) ↔
      ∃ b, state = some b ∧ ∃ n : ℕ,
        1 - b.tokens = ((1000 * n + max 0 (⌊t⌋ - b.ts) : Int) : ℚ) * limit / 60000 := by
  have hlimit : (0 : ℚ) < limit := by exact_mod_cast (by omega : 0 < limit)
  obtain ⟨hpos, b, rfl, hmissing⟩ := missing_of_denied le_rfl hone hd hdenied
  have hheader : (submissionError limit d).retryAfter = ⌊d.retryAfterSeconds⌋ := if_pos hpos.le
  have hnonneg : 0 ≤ ⌊d.retryAfterSeconds⌋ := Int.floor_nonneg.mpr hpos.le
  rw [hheader]
  constructor
  · intro hsufficient
    have hallowed := hsufficient (t + (1000 * ⌊d.retryAfterSeconds⌋ : Int)) left
      (by push_cast; exact le_rfl) (.inl rfl)
    have hwhole : d.retryAfterSeconds = ⌊d.retryAfterSeconds⌋ := by
      have hwait := wait_of_allowed le_rfl hone hd hdenied (by omega) hallowed
      have hfloor := Int.floor_le d.retryAfterSeconds
      push_cast at hwait
      linarith
    refine ⟨b, rfl, ⌊d.retryAfterSeconds⌋.toNat, ?_⟩
    rw [hwhole] at hmissing
    rw [Int.toNat_of_nonneg hnonneg]
    push_cast at hmissing ⊢
    exact hmissing
  · rintro ⟨b', hb', n, hn⟩ t' found hlate hfound
    cases hb'
    have hwhole : d.retryAfterSeconds = (n : Int) := by
      push_cast at hn hmissing ⊢
      rw [hmissing, div_left_inj' (by norm_num), mul_left_inj' hlimit.ne'] at hn
      linarith
    rw [hwhole, Int.floor_intCast] at hlate
    have hlate : t + (1000 * n : Int) ≤ t' := by
      push_cast at hlate ⊢
      exact hlate
    refine allowed_after_wait le_rfl hone hd hdenied ?_ hlate hfound
    rw [hwhole]
    push_cast
    linarith

end Wait

/-- A bucket of the default submission limit that a burst has emptied. -/
def emptied : Bucket := ⟨0, 0, 120000⟩

theorem emptied_denies :
    (callAt 120 1 0).consume (some emptied) = (.ok ⟨false, 1 / 2, 0⟩, some emptied) := by
  have hempty : (callAt 120 1 0).available (some emptied) = 0 := by
    rw [callAt_available]
    norm_num [emptied]
  rw [Call.consume_denied (callAt_valid (by decide) (by decide) 0) (by rw [hempty]; decide), hempty]
  norm_num [callAt, emptied]

theorem deferred_batch_allowed_emptied : (callAt 120 1 550).Allowed (some emptied) := by
  have hms : (⟨false, 1 / 2, 0⟩ : Decision).retryAfterMs = 550 := by decide +kernel
  exact deferred_batch_allowed (by decide) (by decide) emptied_denies rfl
    (by rw [hms]; norm_num) (.inl rfl)

theorem retry_after_sufficient_emptied :
    (∀ t' found,
        (0 : ℝ) + 1000 * (submissionError 120 ⟨false, 1 / 2, 0⟩).retryAfter ≤ t' →
        found = some emptied ∨ found = none → (callAt 120 1 t').Allowed found) ↔
      ∃ b, some emptied = some b ∧ ∃ n : ℕ,
        1 - b.tokens =
          ((1000 * n + max 0 (⌊(0 : ℝ)⌋ - b.ts) : Int) : ℚ) * (120 : Int) / 60000 :=
  retry_after_sufficient_iff (by decide) emptied_denies rfl

/-- Half a second is announced as none, and a submission that waits no longer is denied again. -/
theorem retry_after_insufficient :
    ¬ ∀ (limit : Int) (t t' : ℝ) (state left : Option Bucket) (d : Decision), 1 ≤ limit →
      (callAt limit 1 t).consume state = (.ok d, left) → d.allowed = false →
      t + 1000 * (submissionError limit d).retryAfter ≤ t' → (callAt limit 1 t').Allowed left := by
  intro always
  have hheader : (submissionError 120 ⟨false, 1 / 2, 0⟩).retryAfter = 0 := by
    decide +kernel
  obtain ⟨d, hd, hallowed⟩ := always 120 0 0 (some emptied) (some emptied) ⟨false, 1 / 2, 0⟩
    (by decide) emptied_denies rfl (by rw [hheader]; norm_num)
  rw [emptied_denies] at hd
  cases hd
  cases hallowed

end RateLimiter

end BulkActions
