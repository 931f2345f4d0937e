import BulkActions.BatchTask
import Mathlib.Algebra.Order.Field.Basic
import Mathlib.Data.Rat.Floor
import Mathlib.Tactic.Linarith

namespace BulkActions

namespace RateLimiter

/-- The Redis hash of a bucket, and the argument of its last PEXPIRE. Its numbers are exact
rationals here and doubles in the script. -/
structure Bucket where
  tokens : ℚ
  ts : Int
  ttl : Int
  deriving DecidableEq, Repr

/-- `RateLimitDecision` with the numbers of the script. -/
structure Decision where
  allowed : Bool
  retryAfterSeconds : ℚ
  tokensRemaining : ℚ
  deriving DecidableEq, Repr

def Decision.retryAfterMs (d : Decision) : Int := ⌊d.retryAfterSeconds * 1000⌋ + 50

/-- What a worker sees of a decision. -/
def Decision.external (d : Decision) : RateLimitDecision := ⟨d.allowed, d.retryAfterMs.toNat⟩

/-- The tokens after the refill for the time that has passed, capped at the bucket size. -/
def refilled (capacity refill : ℚ) (nowMs : Int) (state : Option Bucket) : ℚ :=
  let tokens := (state.map Bucket.tokens).getD capacity
  let ts := (state.map Bucket.ts).getD nowMs
  let elapsed : ℚ := (max 0 (nowMs - ts) : Int) / 1000
  min capacity (tokens + elapsed * refill)

/-- The Lua script, in exact arithmetic. -/
def tokenBucket (capacity refill : ℚ) (nowMs : Int) (requested : ℚ) (state : Option Bucket) :
    Decision × Bucket :=
  let tokens := refilled capacity refill nowMs state
  let ttl := ⌈capacity / refill * 1000⌉ + 60000
  if requested ≤ tokens then
    (⟨true, 0, tokens - requested⟩, ⟨tokens - requested, nowMs, ttl⟩)
  else (⟨false, (requested - tokens) / refill, tokens⟩, ⟨tokens, nowMs, ttl⟩)

/-- `RateLimiter.consume` at a time of the calling worker's clock: its decision, and the bucket
it leaves. -/
def consume (limitPerMinute amount nowMs : Int) (state : Option Bucket) :
    Except String Decision × Option Bucket :=
  if amount ≤ 0 then (.ok ⟨true, 0, limitPerMinute⟩, state)
  else if limitPerMinute < amount then
    (.error s!"Cannot consume {amount} tokens from a bucket of {limitPerMinute}.", state)
  else
    let reply := tokenBucket limitPerMinute (limitPerMinute / 60) nowMs amount state
    (.ok reply.1, some reply.2)

structure Call where
  limit : Int
  amount : Int
  nowMs : Int
  deriving DecidableEq, Repr

/-- The call asks for at least one token and for no more than its limit. -/
def Call.Valid (c : Call) : Prop := 1 ≤ c.amount ∧ c.amount ≤ c.limit

namespace Call

def consume (c : Call) (state : Option Bucket) : Except String Decision × Option Bucket :=
  RateLimiter.consume c.limit c.amount c.nowMs state

/-- The tokens that a call is granted. -/
def granted (c : Call) (state : Option Bucket) : ℚ :=
  match (c.consume state).1 with
  | .ok d => if d.allowed then c.amount else 0
  | .error _ => 0

/-- The tokens in the bucket when a call checks it. -/
def available (c : Call) (state : Option Bucket) : ℚ :=
  refilled c.limit (c.limit / 60) c.nowMs state

end Call

/-- The buckets that calls leave behind, whatever clocks they read and whenever Redis removes
the key. -/
inductive Reachable : Option Bucket → Prop
  | none : Reachable none
  | consume {state : Option Bucket} (c : Call) :
      Reachable state → c.Valid → Reachable (c.consume state).2

section Sequence

variable (calls : ℕ → Call) (removed : ℕ → Bool) (start : Option Bucket)

/-- The bucket before a call, not counting a removal of its key. -/
def bucket : ℕ → Option Bucket
  | 0 => start
  | k + 1 => ((calls k).consume (if removed k then none else bucket k)).2

/-- What a call finds under the key. -/
def found (k : ℕ) : Option Bucket := if removed k then none else bucket calls removed start k

def decision (k : ℕ) : Except String Decision := ((calls k).consume (found calls removed start k)).1

def granted (k : ℕ) : ℚ := (calls k).granted (found calls removed start k)

/-- Redis removes a key only when the deadline of its last PEXPIRE has passed. -/
def Timely : Prop :=
  ∀ k b, removed k → bucket calls removed start k = some b → b.ts + b.ttl ≤ (calls k).nowMs

end Sequence

/-- The worker's `consume` is this one around the answer of the script. -/
theorem consume_external {limit amount : ℕ} (hamount : 0 < amount) (nowMs : Int)
    (state : Option Bucket) :
    (consume limit amount nowMs state).1.map Decision.external =
      BulkActions.consume limit amount
        (tokenBucket (limit : Int) ((limit : Int) / 60) nowMs (amount : Int) state).1.external := by
  have hpos : ¬ (amount : Int) ≤ 0 := by omega
  have hne : amount ≠ 0 := by omega
  unfold consume BulkActions.consume
  rw [if_neg hpos, if_neg hne]
  by_cases hlt : limit < amount
  · rw [if_pos (Int.ofNat_lt.mpr hlt), if_pos hlt]
    rfl
  · rw [if_neg (fun h => hlt (Int.ofNat_lt.mp h)), if_neg hlt]
    rfl

namespace Call

variable {c : Call} {state : Option Bucket}

theorem Valid.limit_pos (h : c.Valid) : 0 < c.limit := by
  obtain ⟨hamount, hle⟩ := h
  omega

theorem consume_eq (h : c.Valid) :
    c.consume state =
      (.ok (tokenBucket c.limit (c.limit / 60) c.nowMs c.amount state).1,
        some (tokenBucket c.limit (c.limit / 60) c.nowMs c.amount state).2) := by
  obtain ⟨hamount, hle⟩ := h
  have hpos : ¬ c.amount ≤ 0 := by omega
  have hlt : ¬ c.limit < c.amount := by omega
  simp [consume, RateLimiter.consume, hpos, hlt]

/-- Any limit per minute refills its bucket in one minute. -/
theorem Valid.ttl_eq (h : c.Valid) :
    ⌈(c.limit : ℚ) / (c.limit / 60) * 1000⌉ + 60000 = 120000 := by
  have hpos : (0 : ℚ) < c.limit := by exact_mod_cast h.limit_pos
  have hratio : (c.limit : ℚ) / (c.limit / 60) * 1000 = (60000 : Int) := by
    field_simp
    norm_num
  rw [hratio, Int.ceil_intCast]
  norm_num

/-- A call that finds its amount takes it. -/
theorem consume_granted (h : c.Valid) (henough : (c.amount : ℚ) ≤ c.available state) :
    c.consume state = (.ok ⟨true, 0, c.available state - c.amount⟩,
      some ⟨c.available state - c.amount, c.nowMs, 120000⟩) := by
  rw [consume_eq h, tokenBucket, h.ttl_eq]
  exact congrArg (fun r : Decision × Bucket => (Except.ok r.1, some r.2)) (if_pos henough)

/-- A call that does not leaves what it found, and its own time. -/
theorem consume_denied (h : c.Valid) (hshort : c.available state < c.amount) :
    c.consume state =
      (.ok ⟨false, (c.amount - c.available state) / (c.limit / 60), c.available state⟩,
        some ⟨c.available state, c.nowMs, 120000⟩) := by
  rw [consume_eq h, tokenBucket, h.ttl_eq]
  exact congrArg (fun r : Decision × Bucket => (Except.ok r.1, some r.2))
    (if_neg (not_le_of_gt hshort))

/-- All that a call sees of a bucket are the tokens it finds. -/
theorem consume_congr {state' : Option Bucket} (h : c.Valid)
    (hsame : c.available state = c.available state') : c.consume state = c.consume state' := by
  by_cases hle : (c.amount : ℚ) ≤ c.available state
  · rw [consume_granted h hle, consume_granted h (hsame ▸ hle), hsame]
  · have hlt := lt_of_not_ge hle
    rw [consume_denied h hlt, consume_denied h (hsame ▸ hlt), hsame]

/-- A call is granted its whole amount or nothing, and not more than there is. -/
theorem granted_eq (h : c.Valid) :
    c.granted state = if (c.amount : ℚ) ≤ c.available state then (c.amount : ℚ) else 0 := by
  unfold granted
  split_ifs with hle
  · rw [consume_granted h hle]
    rfl
  · rw [consume_denied h (lt_of_not_ge hle)]
    rfl

/-- What a valid call leaves behind: the tokens it found less those it was granted, its own
time, and two minutes to live. -/
theorem consume_bucket (h : c.Valid) :
    ∃ b, (c.consume state).2 = some b ∧ b.tokens = c.available state - c.granted state ∧
      b.ts = c.nowMs ∧ b.ttl = 120000 := by
  rw [granted_eq h]
  split_ifs with hle
  · rw [consume_granted h hle]
    exact ⟨_, rfl, rfl, rfl, rfl⟩
  · rw [consume_denied h (lt_of_not_ge hle)]
    exact ⟨_, rfl, (sub_zero _).symm, rfl, rfl⟩

end Call

end RateLimiter

end BulkActions
