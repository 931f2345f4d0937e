import BulkActions.SustainedRate

namespace BulkActions

namespace RateLimiter

/-- The answers to calls made one after the other. -/
def results : List Call → Option Bucket → List (Except String Decision)
  | [], _ => []
  | c :: calls, state => (c.consume state).1 :: results calls (c.consume state).2

/-- A list without its entries at the deleted positions. -/
def without {α : Type} : (ℕ → Bool) → List α → List α
  | _, [] => []
  | deleted, x :: xs =>
    if deleted 0 then without (fun i => deleted (i + 1)) xs
    else x :: without (fun i => deleted (i + 1)) xs

/-- The parts of an answer that are compared. -/
def shown (r : Except String Decision) : Except String (Bool × ℚ) :=
  r.map (fun d => (d.allowed, d.tokensRemaining))

def denies : Except String Decision → Bool
  | .ok d => !d.allowed
  | .error _ => false

/-- All deleted positions are those of denied calls. -/
def Deletable (deleted : ℕ → Bool) (rs : List (Except String Decision)) : Prop :=
  ∀ i, deleted i → ∃ r, rs[i]? = some r ∧ denies r

/-- Denied calls make no difference to the other calls. -/
def DenialsBurnNothing (calls : List Call) (state : Option Bucket) : Prop :=
  ∀ deleted, Deletable deleted (results calls state) →
    (results (without deleted calls) state).map shown =
      (without deleted (results calls state)).map shown

/-- The first calls read an earlier clock than the last call of the bucket and are all denied,
and another call follows before the bucket would be full. -/
def SetBack (calls : List Call) (state : Option Bucket) : Prop :=
  ∃ b, state = some b ∧ ∃ first : Int, first < b.ts ∧
    (∀ c ∈ calls, c.Valid → first ≤ c.nowMs ∧ (c.nowMs = first → b.tokens < c.amount)) ∧
    (∃ c ∈ calls, c.Valid ∧ c.nowMs = first) ∧
    ∃ c ∈ calls, c.Valid ∧ first < c.nowMs ∧
      b.tokens + (max 0 (c.nowMs - b.ts) : Int) * c.limit / 60000 < c.limit

theorem Deletable.head {deleted : ℕ → Bool} {r : Except String Decision}
    {rs : List (Except String Decision)} (h : Deletable deleted (r :: rs)) (h0 : deleted 0) :
    denies r := by
  obtain ⟨r', hr', hdenies⟩ := h 0 h0
  cases hr'
  exact hdenies

theorem Deletable.tail {deleted : ℕ → Bool} {r : Except String Decision}
    {rs : List (Except String Decision)} (h : Deletable deleted (r :: rs)) :
    Deletable (fun i => deleted (i + 1)) rs :=
  fun i hi => h (i + 1) hi

instance (c : Call) : Decidable c.Valid := inferInstanceAs (Decidable (_ ∧ _))

namespace Call

variable {c d : Call} {state state' : Option Bucket}

/-- A call for nothing, or for too much, does not reach the bucket. -/
theorem consume_invalid (h : ¬ c.Valid) :
    (c.consume state).2 = state ∧ (c.consume state).1 = (c.consume state').1 ∧
      denies (c.consume state).1 = false := by
  unfold consume RateLimiter.consume
  split_ifs with hzero hlarge
  · exact ⟨rfl, rfl, rfl⟩
  · exact ⟨rfl, rfl, rfl⟩
  · exact absurd ⟨by omega, by omega⟩ h

theorem denies_consume (h : c.Valid) :
    denies (c.consume state).1 ↔ c.available state < c.amount := by
  by_cases hle : (c.amount : ℚ) ≤ c.available state
  · rw [consume_granted h hle]
    simpa [denies] using hle
  · rw [consume_denied h (lt_of_not_ge hle)]
    simpa [denies] using hle

theorem available_eq_of_shown (h : c.Valid)
    (hshown : shown (c.consume state).1 = shown (c.consume state').1) :
    c.available state = c.available state' := by
  by_cases hle : (c.amount : ℚ) ≤ c.available state
  · by_cases hle' : (c.amount : ℚ) ≤ c.available state'
    · rw [consume_granted h hle, consume_granted h hle'] at hshown
      simpa [shown, Except.map] using hshown
    · rw [consume_granted h hle, consume_denied h (lt_of_not_ge hle')] at hshown
      simp [shown, Except.map] at hshown
  · by_cases hle' : (c.amount : ℚ) ≤ c.available state'
    · rw [consume_denied h (lt_of_not_ge hle), consume_granted h hle'] at hshown
      simp [shown, Except.map] at hshown
    · rw [consume_denied h (lt_of_not_ge hle), consume_denied h (lt_of_not_ge hle')] at hshown
      simpa [shown, Except.map] using hshown

/-- An empty key never denies. -/
theorem exists_of_short (h : c.Valid) (hshort : c.available state < c.amount) :
    ∃ b, state = some b := by
  cases state with
  | none =>
    have hcap : (c.amount : ℚ) ≤ c.limit := by exact_mod_cast h.2
    rw [available_none] at hshort
    exact absurd hcap (not_le_of_gt hshort)
  | some b => exact ⟨b, rfl⟩

/-- What a later call finds behind a denied one: the refill up to the denied call, and from
there on. -/
theorem available_denied {b : Bucket} (h : c.Valid) (hshort : c.available (some b) < c.amount)
    (hlimit : d.limit = c.limit) (hle : c.nowMs ≤ d.nowMs) :
    d.available (c.consume (some b)).2 = min (d.limit : ℚ) (b.tokens +
      (max 0 (c.nowMs - b.ts) + (d.nowMs - c.nowMs) : Int) * d.limit / 60000) := by
  have hpos : (0 : ℚ) ≤ d.limit := by exact_mod_cast hlimit ▸ h.limit_pos.le
  have hstep : (0 : ℚ) ≤ (d.nowMs - c.nowMs : Int) := by exact_mod_cast (by omega)
  have hforward : max 0 (d.nowMs - c.nowMs) = d.nowMs - c.nowMs := by omega
  rw [consume_denied h hshort, available_some, available_some, ← hlimit]
  dsimp only
  rw [hforward]
  generalize (max 0 (c.nowMs - b.ts) : Int) = passed
  rcases le_total (d.limit : ℚ) (b.tokens + passed * d.limit / 60000) with hfull | hpart
  · have hmore : (0 : ℚ) ≤ (d.nowMs - c.nowMs : Int) * d.limit / 60000 := by positivity
    push_cast at hmore ⊢
    rw [min_eq_left hfull, min_eq_left (by linarith), min_eq_left (by linarith)]
  · rw [min_eq_right hpart]
    push_cast
    congr 1
    ring

/-- To a call at the same time a denied call makes no difference. -/
theorem available_denied_same (h : c.Valid) (hshort : c.available state < c.amount)
    (hlimit : d.limit = c.limit) (htime : d.nowMs = c.nowMs) :
    d.available (c.consume state).2 = d.available state := by
  obtain ⟨b, rfl⟩ := exists_of_short h hshort
  rw [available_denied h hshort hlimit htime.ge, available_some, htime]
  simp

/-- To a later one it can only add tokens. -/
theorem available_le_denied (h : c.Valid) (hshort : c.available state < c.amount)
    (hlimit : d.limit = c.limit) (hle : c.nowMs ≤ d.nowMs) :
    d.available state ≤ d.available (c.consume state).2 := by
  obtain ⟨b, rfl⟩ := exists_of_short h hshort
  have hpos : (0 : ℚ) ≤ d.limit := by exact_mod_cast hlimit ▸ h.limit_pos.le
  have hpassed : ((max 0 (d.nowMs - b.ts) : Int) : ℚ) ≤
      (max 0 (c.nowMs - b.ts) + (d.nowMs - c.nowMs) : Int) := by exact_mod_cast (by omega)
  have hrefill := mul_le_mul_of_nonneg_right hpassed hpos
  rw [available_denied h hshort hlimit hle, available_some]
  exact min_le_min_left _ (by linarith)

/-- And it adds none when its clock is not behind that of the last call. -/
theorem available_denied_timely {b : Bucket} (h : c.Valid)
    (hshort : c.available (some b) < c.amount) (hlimit : d.limit = c.limit)
    (hle : c.nowMs ≤ d.nowMs) (htimely : b.ts ≤ c.nowMs) :
    d.available (c.consume (some b)).2 = d.available (some b) := by
  have hpassed : max 0 (c.nowMs - b.ts) + (d.nowMs - c.nowMs) = max 0 (d.nowMs - b.ts) := by omega
  rw [available_denied h hshort hlimit hle, available_some, hpassed]

/-- A denied call whose clock is behind gives a later one the refill in between again. -/
theorem available_lt_denied {b : Bucket} (h : c.Valid)
    (hshort : c.available (some b) < c.amount) (hlimit : d.limit = c.limit)
    (hlt : c.nowMs < d.nowMs) (hbehind : c.nowMs < b.ts)
    (hpart : b.tokens + (max 0 (d.nowMs - b.ts) : Int) * d.limit / 60000 < d.limit) :
    d.available (some b) < d.available (c.consume (some b)).2 := by
  have hpos : (0 : ℚ) < d.limit := by exact_mod_cast hlimit ▸ h.limit_pos
  have hpassed : ((max 0 (d.nowMs - b.ts) : Int) : ℚ) <
      (max 0 (c.nowMs - b.ts) + (d.nowMs - c.nowMs) : Int) := by exact_mod_cast (by omega)
  have hrefill := mul_lt_mul_of_pos_right hpassed hpos
  rw [available_denied h hshort hlimit hlt.le, available_some, min_eq_right hpart.le]
  exact lt_min hpart (by linarith)

/-- A bucket gains tokens only. -/
theorem available_mono (h : c.Valid) (hlimit : d.limit = c.limit) (hle : c.nowMs ≤ d.nowMs) :
    c.available state ≤ d.available state := by
  have hpos : (0 : ℚ) ≤ c.limit := by exact_mod_cast h.limit_pos.le
  cases state with
  | none => rw [available_none, available_none, hlimit]
  | some b =>
    have hpassed : ((max 0 (c.nowMs - b.ts) : Int) : ℚ) ≤ (max 0 (d.nowMs - b.ts) : Int) := by
      exact_mod_cast (by omega)
    have hrefill := mul_le_mul_of_nonneg_right hpassed hpos
    rw [available_some, available_some, hlimit]
    exact min_le_min_left _ (by linarith)

/-- With a clock that is behind a call finds the tokens of the last call. -/
theorem enough_behind {b : Bucket} (h : c.Valid) (hbehind : c.nowMs ≤ b.ts) :
    (c.amount : ℚ) ≤ c.available (some b) ↔ (c.amount : ℚ) ≤ b.tokens := by
  have hcap : (c.amount : ℚ) ≤ c.limit := by exact_mod_cast h.2
  have hpassed : max 0 (c.nowMs - b.ts) = 0 := by omega
  rw [available_some, hpassed, le_min_iff]
  simp [hcap]

end Call

/-- Calls of one limit whose clock does not go back. -/
structure Ordered (limit : Int) (calls : List Call) : Prop where
  limits : ∀ c ∈ calls, c.limit = limit
  sorted : calls.Pairwise (fun c d => c.nowMs ≤ d.nowMs)

section Ordered

variable {limit : Int} {c d : Call} {calls : List Call} {state : Option Bucket}
  {deleted : ℕ → Bool}

theorem mem_of_invalid (hc : ¬ c.Valid) (hd : d ∈ c :: calls) (hvalid : d.Valid) :
    d ∈ calls := by
  rcases List.mem_cons.mp hd with rfl | hd
  · exact absurd hvalid hc
  · exact hd

theorem mem_of_later (hlater : c.nowMs < d.nowMs) (hd : d ∈ c :: calls) : d ∈ calls := by
  rcases List.mem_cons.mp hd with rfl | hd
  · exact absurd hlater (lt_irrefl _)
  · exact hd

/-- A call that does not reach the bucket is not deleted. -/
theorem Deletable.keeps_invalid (h : Deletable deleted (results (c :: calls) state))
    (hc : ¬ c.Valid) : deleted 0 ≠ true := by
  intro h0
  have hdenies := (@Call.consume_invalid c state state hc).2.2
  rw [h.head h0] at hdenies
  cases hdenies

theorem Ordered.tail (h : Ordered limit (c :: calls)) : Ordered limit calls :=
  ⟨fun d hd => h.limits d (List.mem_cons_of_mem c hd), (List.pairwise_cons.mp h.sorted).2⟩

theorem Ordered.le (h : Ordered limit (c :: calls)) (hd : d ∈ calls) : c.nowMs ≤ d.nowMs :=
  (List.pairwise_cons.mp h.sorted).1 d hd

theorem Ordered.limit_eq (h : Ordered limit (c :: calls)) (hd : d ∈ calls) : d.limit = c.limit :=
  (h.limits d (List.mem_cons_of_mem c hd)).trans (h.limits c List.mem_cons_self).symm

end Ordered

/-- Two buckets look the same to all calls, but to those behind a call of the first time that
the tokens suffice for. -/
def Alike (first : Int) (calls : List Call) (state state' : Option Bucket) : Prop :=
  ∀ c ∈ calls, c.Valid → c.available state = c.available state' ∨
    (first < c.nowMs ∧
      ∃ g ∈ calls, g.Valid ∧ g.nowMs = first ∧ (g.amount : ℚ) ≤ g.available state)

section Deletion

variable {limit first : Int} {c : Call} {calls : List Call} {state state' : Option Bucket}
  {deleted : ℕ → Bool}

theorem Alike.refl (first : Int) (calls : List Call) (state : Option Bucket) :
    Alike first calls state state :=
  fun _ _ _ => .inl rfl

theorem Alike.head (h : Alike first (c :: calls) state state') (ho : Ordered limit (c :: calls))
    (hc : c.Valid) : c.available state = c.available state' := by
  rcases h c List.mem_cons_self hc with hsame | ⟨hlt, g, hg, _, hfirst, _⟩
  · exact hsame
  · rcases List.mem_cons.mp hg with rfl | hg
    · omega
    · have hle := ho.le hg
      omega

theorem Alike.tail (h : Alike first (c :: calls) state state') (hc : ¬ c.Valid) :
    Alike first calls state state' := by
  intro d hd hvalid
  refine (h d (List.mem_cons_of_mem c hd) hvalid).imp_right ?_
  rintro ⟨hlt, g, hg, hgvalid, henough⟩
  exact ⟨hlt, g, mem_of_invalid hc hg hgvalid, hgvalid, henough⟩

/-- A denied call that is deleted from one run leaves the buckets alike. -/
theorem Alike.denied (h : Alike first (c :: calls) state state') (ho : Ordered limit (c :: calls))
    (hfirst : first ≤ c.nowMs) (htimely : ∀ b, state = some b → b.ts ≤ first) (hc : c.Valid)
    (hshort : c.available state < c.amount) :
    Alike c.nowMs calls (c.consume state).2 state' := by
  intro d hd hvalid
  rcases h d (List.mem_cons_of_mem c hd) hvalid with hsame | ⟨hlt, g, hg, hgvalid, hgfirst, henough⟩
  · obtain ⟨b, rfl⟩ := Call.exists_of_short hc hshort
    exact .inl ((Call.available_denied_timely hc hshort (ho.limit_eq hd) (ho.le hd)
      ((htimely b rfl).trans hfirst)).trans hsame)
  · rcases List.mem_cons.mp hg with rfl | hg
    · exact absurd henough (not_le_of_gt hshort)
    · have htime : g.nowMs = c.nowMs := by
        have hle := ho.le hg
        omega
      rw [← Call.available_denied_same hc hshort (ho.limit_eq hg) htime] at henough
      exact .inr ⟨by omega, g, hg, hgvalid, htime, henough⟩

theorem ts_consume (hc : c.Valid) : ∀ b, (c.consume state).2 = some b → b.ts ≤ c.nowMs := by
  intro b hb
  obtain ⟨b', hb', _, hts, _⟩ := @Call.consume_bucket c state hc
  cases hb'.symm.trans hb
  exact hts.le

/-- The run lemma: buckets that look alike stay so, whatever denied calls are deleted. -/
theorem results_without (ho : Ordered limit calls) (hfirst : ∀ c ∈ calls, c.Valid → first ≤ c.nowMs)
    (htimely : ∀ b, state = some b → b.ts ≤ first) (halike : Alike first calls state state')
    (hdel : Deletable deleted (results calls state)) :
    results (without deleted calls) state' = without deleted (results calls state) := by
  induction calls generalizing first state state' deleted with
  | nil => rfl
  | cons c calls ih =>
    have hrest : ∀ d ∈ calls, d.Valid → first ≤ d.nowMs :=
      fun d hd => hfirst d (List.mem_cons_of_mem c hd)
    by_cases hc : c.Valid
    · have hle : ∀ d ∈ calls, d.Valid → c.nowMs ≤ d.nowMs := fun d hd _ => ho.le hd
      by_cases h0 : deleted 0 = true
      · have hshort := (Call.denies_consume hc).mp (hdel.head h0)
        simp only [results, without, h0, if_true]
        exact ih ho.tail hle (ts_consume hc)
          (halike.denied ho (hfirst c List.mem_cons_self hc) htimely hc hshort) hdel.tail
      · have hsame := Call.consume_congr hc (halike.head ho hc)
        simp only [results, without, h0, Bool.false_eq_true, if_false, ← hsame]
        exact congrArg _ (ih ho.tail hle (ts_consume hc) (Alike.refl _ _ _) hdel.tail)
    · obtain ⟨hstate, hanswer, _⟩ := @Call.consume_invalid c state state' hc
      have hstate' := (@Call.consume_invalid c state' state hc).1
      have h0 := hdel.keeps_invalid hc
      have htail := hdel.tail
      rw [hstate] at htail
      simp only [results, without, h0, Bool.false_eq_true, if_false, hstate, hstate', hanswer]
      exact congrArg _ (ih ho.tail hrest htimely (halike.tail hc) htail)

/-- Behind a clock that goes back, the buckets are alike unless the calls set the bucket back. -/
theorem alike_behind {b : Bucket} (ho : Ordered limit (c :: calls)) (hc : c.Valid)
    (hshort : c.available (some b) < c.amount) (hbehind : c.nowMs < b.ts)
    (hset : ¬ SetBack (c :: calls) (some b)) :
    Alike c.nowMs calls (c.consume (some b)).2 (some b) := by
  intro d hd hvalid
  have hlimit := ho.limit_eq hd
  rcases eq_or_lt_of_le (ho.le hd) with htime | hlt
  · exact .inl (Call.available_denied_same hc hshort hlimit htime.symm)
  · by_cases hpart : b.tokens + (max 0 (d.nowMs - b.ts) : Int) * d.limit / 60000 < d.limit
    · refine .inr ⟨hlt, ?_⟩
      by_contra hnone
      refine hset ⟨b, rfl, c.nowMs, hbehind, fun e he hevalid => ?_,
        ⟨c, List.mem_cons_self, hc, rfl⟩, ⟨d, List.mem_cons_of_mem c hd, hvalid, hlt, hpart⟩⟩
      rcases List.mem_cons.mp he with rfl | he
      · have hnot := mt (Call.enough_behind hc hbehind.le).mpr (not_le_of_gt hshort)
        exact ⟨le_rfl, fun _ => lt_of_not_ge hnot⟩
      · refine ⟨ho.le he, fun htime => lt_of_not_ge fun henough => ?_⟩
        refine hnone ⟨e, he, hevalid, htime, ?_⟩
        rw [Call.available_denied_same hc hshort (ho.limit_eq he) htime]
        exact (Call.enough_behind hevalid (htime.trans_le hbehind.le)).mpr henough
    · have hfull : d.available (some b) = d.limit := by
        rw [Call.available_some, min_eq_left (le_of_not_gt hpart)]
      have hmore := Call.available_le_denied hc hshort hlimit hlt.le
      exact .inl (le_antisymm (hfull ▸ Call.available_le_limit) hmore)

theorem burnsNothing_of_not_setBack (ho : Ordered limit calls) (hset : ¬ SetBack calls state)
    (hdel : Deletable deleted (results calls state)) :
    results (without deleted calls) state = without deleted (results calls state) := by
  induction calls generalizing deleted with
  | nil => rfl
  | cons c calls ih =>
    by_cases hc : c.Valid
    · have hle : ∀ d ∈ calls, d.Valid → c.nowMs ≤ d.nowMs := fun d hd _ => ho.le hd
      by_cases h0 : deleted 0 = true
      · have hshort := (Call.denies_consume hc).mp (hdel.head h0)
        obtain ⟨b, rfl⟩ := Call.exists_of_short hc hshort
        have halike : Alike c.nowMs calls (c.consume (some b)).2 (some b) := by
          by_cases htimely : b.ts ≤ c.nowMs
          · exact fun d hd _ => .inl
              (Call.available_denied_timely hc hshort (ho.limit_eq hd) (ho.le hd) htimely)
          · exact alike_behind ho hc hshort (lt_of_not_ge htimely) hset
        simp only [results, without, h0, if_true]
        exact results_without ho.tail hle (ts_consume hc) halike hdel.tail
      · simp only [results, without, h0, Bool.false_eq_true, if_false]
        exact congrArg _
          (results_without ho.tail hle (ts_consume hc) (Alike.refl _ _ _) hdel.tail)
    · have hstate := (@Call.consume_invalid c state state hc).1
      have h0 := hdel.keeps_invalid hc
      have htail := hdel.tail
      rw [hstate] at htail
      have hset' : ¬ SetBack calls state := by
        rintro ⟨b, rfl, first, hbehind, hall, ⟨e, he, hefirst⟩, d, hd, hlater⟩
        exact hset ⟨b, rfl, first, hbehind,
          fun g hg hgvalid => hall g (mem_of_invalid hc hg hgvalid) hgvalid,
          ⟨e, List.mem_cons_of_mem c he, hefirst⟩, ⟨d, List.mem_cons_of_mem c hd, hlater⟩⟩
      simp only [results, without, h0, Bool.false_eq_true, if_false, hstate]
      exact congrArg _ (ih ho.tail hset' htail)

end Deletion

/-- The positions of the calls of one time. -/
def callsOf (first : Int) (calls : List Call) (i : ℕ) : Bool :=
  calls[i]?.any (fun c => c.Valid ∧ c.nowMs = first)

section SetBack

variable {limit first : Int} {c : Call} {calls : List Call} {state state' : Option Bucket}

theorem callsOf_zero : callsOf first (c :: calls) 0 = true ↔ c.Valid ∧ c.nowMs = first := by
  simp [callsOf]

theorem callsOf_succ : (fun i => callsOf first (c :: calls) (i + 1)) = callsOf first calls := by
  funext i
  simp [callsOf]

/-- No call of the first time can be granted. -/
def ShortAt (first : Int) (calls : List Call) (state : Option Bucket) : Prop :=
  ∀ c ∈ calls, c.Valid → c.nowMs = first → c.available state < c.amount

theorem ShortAt.tail (h : ShortAt first (c :: calls) state) (ho : Ordered limit (c :: calls))
    (hfirst : c.Valid → first ≤ c.nowMs) : ShortAt first calls (c.consume state).2 := by
  intro d hd hvalid htime
  have hshort := h d (List.mem_cons_of_mem c hd) hvalid htime
  by_cases hc : c.Valid
  · have hle := ho.le hd
    have hcfirst : c.nowMs = first := by
      have hge := hfirst hc
      omega
    rwa [Call.available_denied_same hc (h c List.mem_cons_self hc hcfirst) (ho.limit_eq hd)
      (htime.trans hcfirst.symm)]
  · rwa [(@Call.consume_invalid c state state hc).1]

theorem deletable_callsOf (ho : Ordered limit calls)
    (hfirst : ∀ c ∈ calls, c.Valid → first ≤ c.nowMs) (hshort : ShortAt first calls state) :
    Deletable (callsOf first calls) (results calls state) := by
  induction calls generalizing state with
  | nil => simp [Deletable, callsOf]
  | cons c calls ih =>
    intro i hi
    cases i with
    | zero =>
      obtain ⟨hc, hcfirst⟩ := callsOf_zero.mp hi
      exact ⟨_, rfl, (Call.denies_consume hc).mpr (hshort c List.mem_cons_self hc hcfirst)⟩
    | succ i =>
      have hi : callsOf first calls i := (congrFun callsOf_succ i).symm.trans hi
      exact ih ho.tail (fun d hd => hfirst d (List.mem_cons_of_mem c hd))
        (hshort.tail ho (hfirst c List.mem_cons_self)) i hi

/-- A run that has more tokens for the calls behind the first time shows it. -/
theorem results_differ (ho : Ordered limit calls) (hfirst : ∀ c ∈ calls, c.Valid → first ≤ c.nowMs)
    (hshort : ShortAt first calls state)
    (hmore : ∀ c ∈ calls, c.Valid → first < c.nowMs → c.available state' < c.limit →
      c.available state' < c.available state)
    (hpart : ∃ d ∈ calls, d.Valid ∧ first < d.nowMs ∧ d.available state' < d.limit) :
    (results (without (callsOf first calls) calls) state').map shown ≠
      (without (callsOf first calls) (results calls state)).map shown := by
  induction calls generalizing state with
  | nil =>
    obtain ⟨d, hd, _⟩ := hpart
    cases hd
  | cons c calls ih =>
    have htail := @ih (c.consume state).2 ho.tail
      (fun d hd => hfirst d (List.mem_cons_of_mem c hd))
      (hshort.tail ho (hfirst c List.mem_cons_self))
    obtain ⟨d, hd, hdvalid, hlater, hdpart⟩ := hpart
    by_cases hc : c.Valid
    · rcases eq_or_lt_of_le (hfirst c List.mem_cons_self hc) with hcfirst | hclater
      · have h0 : callsOf first (c :: calls) 0 = true := callsOf_zero.mpr ⟨hc, hcfirst.symm⟩
        have hcshort := hshort c List.mem_cons_self hc hcfirst.symm
        have hd := mem_of_later (hcfirst ▸ hlater) hd
        simp only [results, without, h0, if_true, callsOf_succ]
        refine htail (fun e he hevalid helater hepart => ?_) ⟨d, hd, hdvalid, hlater, hdpart⟩
        exact (hmore e (List.mem_cons_of_mem c he) hevalid helater hepart).trans_le
          (Call.available_le_denied hc hcshort (ho.limit_eq he) (ho.le he))
      · have h0 : callsOf first (c :: calls) 0 ≠ true :=
          fun h0 => hclater.ne' (callsOf_zero.mp h0).2
        have hcpart : c.available state' < c.limit := by
          rcases List.mem_cons.mp hd with rfl | hd
          · exact hdpart
          · have hlimit := ho.limit_eq hd
            rw [← hlimit]
            exact (Call.available_mono hc hlimit (ho.le hd)).trans_lt hdpart
        have hlt := hmore c List.mem_cons_self hc hclater hcpart
        simp only [results, without, h0, Bool.false_eq_true, if_false, List.map_cons]
        intro heq
        exact hlt.ne' (Call.available_eq_of_shown hc (List.cons.inj heq).1.symm)
    · have h0 : callsOf first (c :: calls) 0 ≠ true := fun h0 => hc (callsOf_zero.mp h0).1
      have hd := mem_of_invalid hc hd hdvalid
      rw [(@Call.consume_invalid c state state hc).1] at htail
      simp only [results, without, h0, Bool.false_eq_true, if_false, callsOf_succ, List.map_cons,
        (@Call.consume_invalid c _ state hc).1]
      intro heq
      exact htail (fun e he => hmore e (List.mem_cons_of_mem c he)) ⟨d, hd, hdvalid, hlater, hdpart⟩
        (List.cons.inj heq).2

/-- Calls that set the bucket back do so when the ones of the first time are deleted. -/
theorem SetBack.differs (h : SetBack calls state) (ho : Ordered limit calls) :
    ∃ first, Deletable (callsOf first calls) (results calls state) ∧
      (results (without (callsOf first calls) calls) state).map shown ≠
        (without (callsOf first calls) (results calls state)).map shown := by
  obtain ⟨b, rfl, first, hbehind, hall, hexists, hlast⟩ := h
  have hfirst : ∀ c ∈ calls, c.Valid → first ≤ c.nowMs := fun c hc hvalid => (hall c hc hvalid).1
  have hshort : ShortAt first calls (some b) := by
    intro c hc hvalid htime
    refine lt_of_not_ge (mt (Call.enough_behind hvalid (htime.trans_le hbehind.le)).mp ?_)
    exact not_le_of_gt ((hall c hc hvalid).2 htime)
  refine ⟨first, deletable_callsOf ho hfirst hshort, ?_⟩
  clear hall
  induction calls with
  | nil =>
    obtain ⟨c, hc, _⟩ := hexists
    cases hc
  | cons c calls ih =>
    obtain ⟨e, he, hevalid, hefirst⟩ := hexists
    obtain ⟨d, hd, hdvalid, hlater, hpart⟩ := hlast
    have hrest : ∀ d ∈ calls, d.Valid → first ≤ d.nowMs :=
      fun d hd => hfirst d (List.mem_cons_of_mem c hd)
    by_cases hc : c.Valid
    · have hcfirst : c.nowMs = first := by
        have hge := hfirst c List.mem_cons_self hc
        rcases List.mem_cons.mp he with rfl | he
        · exact hefirst
        · have hle := ho.le he
          omega
      have h0 : callsOf first (c :: calls) 0 = true := callsOf_zero.mpr ⟨hc, hcfirst⟩
      have hcshort := hshort c List.mem_cons_self hc hcfirst
      have hd := mem_of_later (hcfirst ▸ hlater) hd
      simp only [results, without, h0, if_true, callsOf_succ]
      refine results_differ ho.tail hrest (hshort.tail ho (fun _ => hcfirst.ge))
        (fun g hg _ hglater hgpart => ?_) ⟨d, hd, hdvalid, hlater, ?_⟩
      · rw [Call.available_some, min_lt_iff] at hgpart
        exact Call.available_lt_denied hc hcshort (ho.limit_eq hg) (hcfirst.trans_lt hglater)
          (hcfirst.trans_lt hbehind) (hgpart.resolve_left (lt_irrefl _))
      · rw [Call.available_some]
        exact min_lt_iff.mpr (.inr hpart)
    · have h0 : callsOf first (c :: calls) 0 ≠ true := fun h0 => hc (callsOf_zero.mp h0).1
      have he := mem_of_invalid hc he hevalid
      have hd := mem_of_invalid hc hd hdvalid
      have htail := ih ho.tail ⟨e, he, hevalid, hefirst⟩ ⟨d, hd, hdvalid, hlater, hpart⟩ hrest
        (fun g hg => hshort g (List.mem_cons_of_mem c hg))
      simp only [results, without, h0, Bool.false_eq_true, if_false, callsOf_succ, List.map_cons,
        (@Call.consume_invalid c (some b) (some b) hc).1]
      intro heq
      exact htail (List.cons.inj heq).2

end SetBack

/-- Deleting denied calls changes no other decision, unless the calls set the bucket back. -/
theorem denials_burn_nothing_iff {limit : Int} {calls : List Call}
    (hlimit : ∀ c ∈ calls, c.limit = limit)
    (hsorted : calls.Pairwise (fun c d => c.nowMs ≤ d.nowMs)) (state : Option Bucket) :
    DenialsBurnNothing calls state ↔ ¬ SetBack calls state := by
  have ho : Ordered limit calls := ⟨hlimit, hsorted⟩
  constructor
  · intro hnothing hset
    obtain ⟨first, hdel, hdiffer⟩ := hset.differs ho
    exact hdiffer (hnothing _ hdel)
  · intro hset deleted hdel
    rw [burnsNothing_of_not_setBack ho hset hdel]

theorem denials_burn_nothing_twice :
    DenialsBurnNothing [⟨60, 1, 0⟩, ⟨60, 1, 1000⟩] (some ⟨0, 1000, 120000⟩) ↔
      ¬ SetBack [⟨60, 1, 0⟩, ⟨60, 1, 1000⟩] (some ⟨0, 1000, 120000⟩) :=
  @denials_burn_nothing_iff 60 [⟨60, 1, 0⟩, ⟨60, 1, 1000⟩] (by decide) (by decide) _

/-- The second of two calls for one token finds one only if the first has set the bucket back. -/
theorem denial_adds_tokens :
    ¬ ∀ (limit : Int) (calls : List Call) (state : Option Bucket), 1 ≤ limit →
      (∀ c ∈ calls, c.limit = limit) → calls.Pairwise (fun c d => c.nowMs ≤ d.nowMs) →
      DenialsBurnNothing calls state := by
  intro always
  have hnothing := always 60 [⟨60, 1, 0⟩, ⟨60, 1, 1000⟩] (some ⟨0, 1000, 120000⟩) (by decide)
    (by decide) (by decide)
  have hsame := hnothing (fun i => i = 0) (by
    intro i hi
    obtain rfl : i = 0 := of_decide_eq_true hi
    exact ⟨_, rfl, by decide +kernel⟩)
  exact absurd hsame (by decide +kernel)

end RateLimiter

end BulkActions
