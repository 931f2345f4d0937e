import BulkActions.Idempotency

namespace BulkActions

open ReadCommitted

/-- Past a lookup that has found nothing. -/
def SubmitPc.passed : SubmitPc → Bool
  | .getAccount => false
  | .lookup _ => false
  | .commit ret => ret.created
  | .done ret => ret.created
  | _ => true

/-- Past the INSERT. -/
def SubmitPc.inserted : SubmitPc → Bool
  | .enqueue _ => true
  | .commit ret => ret.created
  | .done ret => ret.created
  | _ => false

namespace Intake

/-- The unique constraint lets one call insert the key. -/
structure Distinct (account : Uuid) (key : String) (x : Intake) : Prop where
  carried : ∀ p c, x.calls p = some c →
    c.request.accountId = account ∧ c.request.idempotencyKey = some key
  keyed : ∀ p c row, x.calls p = some c → c.pc = .flush row → row.uniqueKey = some (account, key)
  guarded : x.db.Guarded BulkAction.uniqueKey
  present : ∀ p c, x.calls p = some c → c.pc.inserted →
    ∃ a ∈ x.view p, a.uniqueKey = some (account, key)
  sole : ∀ p q c c', x.calls p = some c → x.calls q = some c' → c.pc.inserted → c'.pc.inserted →
    p = q

section Overlap

variable {settings : Settings} {account : Uuid} {key : String} {x x' : Intake} {l : IntakeLabel}
  {p : Pid} {c : Call}

/-- One call has moved, and the others see at least what they have seen. -/
theorem distinct_put (hx : x.Distinct account key) (hcalls : x'.calls = (x.put p c).calls)
    (hcarried : c.request.accountId = account ∧ c.request.idempotencyKey = some key)
    (hkeyed : ∀ row, c.pc = .flush row → row.uniqueKey = some (account, key))
    (hguarded : x'.db.Guarded BulkAction.uniqueKey)
    (hview : ∀ q, q ≠ p → ∀ a ∈ x.view q, a ∈ x'.view q)
    (hself : c.pc.inserted → ∃ a ∈ x'.view p, a.uniqueKey = some (account, key))
    (hsole : c.pc.inserted → ∀ q c', q ≠ p → x.calls q = some c' → c'.pc.inserted = false) :
    x'.Distinct account key := by
  have moved : ∀ {q c'}, x'.calls q = some c' →
      (q = p ∧ c' = c) ∨ (q ≠ p ∧ x.calls q = some c') := by
    intro q c' hq
    rw [hcalls] at hq
    exact put_calls_eq_some hq
  refine ⟨?_, ?_, hguarded, ?_, ?_⟩
  · intro q c' hq
    rcases moved hq with ⟨rfl, rfl⟩ | ⟨_, hq⟩
    · exact hcarried
    · exact hx.carried q c' hq
  · intro q c' row hq hrow
    rcases moved hq with ⟨rfl, rfl⟩ | ⟨_, hq⟩
    · exact hkeyed row hrow
    · exact hx.keyed q c' row hq hrow
  · intro q c' hq hins
    rcases moved hq with ⟨rfl, rfl⟩ | ⟨hqp, hq⟩
    · exact hself hins
    · obtain ⟨a, ha, hkey⟩ := hx.present q c' hq hins
      exact ⟨a, hview q hqp a ha, hkey⟩
  · intro q q' c₁ c₂ hq hq' hins hins'
    rcases moved hq with ⟨rfl, rfl⟩ | ⟨hqp, hq⟩
    · rcases moved hq' with ⟨rfl, rfl⟩ | ⟨hqp', hq'⟩
      · rfl
      · rw [hsole hins q' c₂ hqp' hq'] at hins'
        cases hins'
    · rcases moved hq' with ⟨rfl, rfl⟩ | ⟨_, hq'⟩
      · rw [hsole hins' q c₁ hqp hq] at hins
        cases hins
      · exact hx.sole q q' c₁ c₂ hq hq' hins hins'

theorem distinct_goto {pc : SubmitPc} (hx : x.Distinct account key) (hp : x.calls p = some c)
    (hpc : pc.inserted = false)
    (hkeyed : ∀ row, pc = .flush row → row.uniqueKey = some (account, key)) :
    (x.goto p c pc).Distinct account key :=
  distinct_put hx rfl (hx.carried p c hp) hkeyed hx.guarded (fun _ _ _ ha => ha)
    (fun hins => by simp [hpc] at hins) (fun hins => by simp [hpc] at hins)

theorem distinct_raise {error : SubmitError} (hx : x.Distinct account key)
    (hp : x.calls p = some c) : (x.raise p c error).Distinct account key := by
  refine distinct_put hx rfl (hx.carried p c hp) (fun _ hrow => by cases hrow)
    (Store.guarded_rollback hx.guarded) ?_ (fun hins => by cases hins) (fun hins => by cases hins)
  intro q hq a ha
  rw [view_eq] at ha ⊢
  have hsame : (x.raise p c error).db.writes q = x.db.writes q := Store.rollback_writes_ne hq
  rw [hsame]
  exact ha

theorem sole_of_inserted (hx : x.Distinct account key) (hp : x.calls p = some c)
    (hins : c.pc.inserted) : ∀ q c', q ≠ p → x.calls q = some c' → c'.pc.inserted = false := by
  intro q c' hqp hq
  rw [← Bool.not_eq_true]
  exact fun hins' => hqp (hx.sole q p c' c hq hp hins' hins)

/-- The INSERT goes through only while no other call has inserted the key. -/
theorem distinct_insert {row : BulkAction} (hx : x.Distinct account key) (hp : x.calls p = some c)
    (hpc : c.pc = .flush row)
    (hfree : ∀ k, row.uniqueKey = some k → x.db.free p k ∧ ∀ a ∈ x.view p, a.uniqueKey ≠ some k) :
    (x.insert p c row).Distinct account key := by
  have hkey := hx.keyed p c row hp hpc
  obtain ⟨hlock, hnone⟩ := hfree _ hkey
  refine distinct_put hx rfl (hx.carried p c hp) (fun _ hrow => by cases hrow)
    (Store.guarded_write hx.guarded ?_) ?_ (fun _ => ⟨row, ?_, hkey⟩) ?_
  · intro k hk
    cases hkey.symm.trans hk
    exact hlock
  · intro q hq a ha
    rw [view_eq] at ha ⊢
    have hsame : (x.insert p c row).db.writes q = x.db.writes q := Store.write_writes_ne hq
    rw [hsame]
    exact ha
  · rw [view_eq]
    have hself : (x.insert p c row).db.writes p = x.db.writes p ++ [row] := Store.write_writes_self
    rw [hself]
    simp
  · intro _ q c' hqp hq
    rw [← Bool.not_eq_true]
    intro hins
    obtain ⟨a, ha, hakey⟩ := hx.present q c' hq hins
    rw [view_eq] at ha
    rcases List.mem_append.mp ha with ha | ha
    · exact hnone a (by rw [view_eq]; exact List.mem_append_left _ ha) hakey
    · have hheld := hx.guarded q a _ ha hakey
      rw [Store.free, hheld] at hlock
      simp [hqp] at hlock

theorem distinct_commit {ret : SubmitReturn} (hx : x.Distinct account key)
    (hp : x.calls p = some c) (hpc : c.pc = .commit ret) :
    (x.commit p c ret).Distinct account key := by
  have hself : (x.commit p c ret).db.writes p = [] := Store.commit_writes_self
  have hcommitted : (x.commit p c ret).db.committed = x.db.committed ++ x.db.writes p :=
    replay_insert _ _
  have hins : c.pc.inserted = ret.created := by rw [hpc]; rfl
  refine distinct_put hx rfl (hx.carried p c hp) (fun _ hrow => by cases hrow)
    (Store.guarded_commit hx.guarded) ?_ ?_ ?_
  · intro q hq a ha
    have hsame : (x.commit p c ret).db.writes q = x.db.writes q := Store.commit_writes_ne hq
    rw [view_eq] at ha ⊢
    rw [hsame, hcommitted]
    rcases List.mem_append.mp ha with ha | ha
    · exact List.mem_append_left _ (List.mem_append_left _ ha)
    · exact List.mem_append_right _ ha
  · intro hcreated
    obtain ⟨a, ha, hkey⟩ := hx.present p c hp (hins.trans hcreated)
    refine ⟨a, ?_, hkey⟩
    rw [view_eq] at ha ⊢
    rw [hself, hcommitted, List.append_nil]
    exact ha
  · exact fun hcreated => sole_of_inserted hx hp (hins.trans hcreated)

theorem distinct_step (hx : x.Distinct account key) (hcarries : Carries account key l)
    (h : x.step settings l = some x') : x'.Distinct account key := by
  cases step_takes h with
  | call hp =>
    exact distinct_put hx rfl hcarries (fun _ hrow => by cases hrow) hx.guarded
      (fun _ _ _ ha => ha) (fun hins => by cases hins) (fun hins => by cases hins)
  | accountMissing hp _ _ | ambiguous hp _ _ | denied hp _ _ | conflict hp _ _ _ _ =>
    exact distinct_raise hx hp
  | account hp _ _ | missed hp _ _ | found hp _ _ =>
    exact distinct_goto hx hp rfl (fun _ hrow => by cases hrow)
  | @admitted p d c limit hp _ _ =>
    obtain ⟨haccount, hkey⟩ := hx.carried p c hp
    refine distinct_goto hx hp rfl (fun row hrow => ?_)
    cases hrow
    simp [BulkAction.uniqueKey, SubmitRequest.row, haccount, hkey]
  | inserted hp hpc hfree => exact distinct_insert hx hp hpc hfree
  | @enqueued p d c row hp hpc =>
    have hins : c.pc.inserted := by rw [hpc]; rfl
    exact distinct_put hx rfl (hx.carried p c hp) (fun _ hrow => by cases hrow) hx.guarded
      (fun _ _ _ ha => ha) (fun _ => hx.present p c hp hins)
      (fun _ => sole_of_inserted hx hp hins)
  | committed hp hpc => exact distinct_commit hx hp hpc

/-- A call that has found nothing creates the action or raises. -/
theorem passed_step (hp : ∃ c, x.calls p = some c ∧ c.pc.passed)
    (h : x.step settings l = some x') : ∃ c, x'.calls p = some c ∧ c.pc.passed := by
  obtain ⟨c, hc, hpassed⟩ := hp
  by_cases hl : p = l.pid
  · cases step_takes h with
    | call hq =>
      cases hl
      cases hc.symm.trans hq
    | accountMissing hq hpc _ | account hq hpc _ | missed hq hpc _ | found hq hpc _
    | ambiguous hq hpc _ | admitted hq hpc _ | denied hq hpc _ | inserted hq hpc _
    | conflict hq hpc _ _ _ | enqueued hq hpc | committed hq hpc =>
      cases hl
      cases hc.symm.trans hq
      exact ⟨_, put_calls_self, by simp_all [SubmitPc.passed]⟩
  · exact ⟨c, by rw [calls_step_ne h hl, hc], hpassed⟩

theorem distinct_begins (h : x.Begins account key) : x.Distinct account key where
  carried := by simp [h.calls]
  keyed := by simp [h.calls]
  guarded := fun p w r hw => by simp [h.closed p] at hw
  present := by simp [h.calls]
  sole := by simp [h.calls]

/-- Of two calls that have both looked up in vain, or skipped the lookup, at most one ever
returns. -/
theorem both_passed_one_returns {x₀ : Intake} {q : Pid} {c' : Call}
    (hbegins : x₀.Begins account key)
    (h : Runs.Reaches (step settings) (fun _ l => Carries account key l) x₀ x)
    (hp : x.calls p = some c) (hq : x.calls q = some c') (hpq : p ≠ q) (hpassed : c.pc.passed)
    (hpassed' : c'.pc.passed)
    (h' : Runs.Reaches (step settings) (fun _ l => Carries account key l) x x') :
    ¬ ∃ d d' ret ret', x'.calls p = some d ∧ d.pc = .done ret ∧ x'.calls q = some d' ∧
      d'.pc = .done ret' := by
  rintro ⟨d, d', ret, ret', hd, hret, hd', hret'⟩
  have distinct : x'.Distinct account key :=
    h'.invariant (fun hy hl hs => distinct_step hy hl hs)
      (h.invariant (fun hy hl hs => distinct_step hy hl hs) (distinct_begins hbegins))
  have created : ∀ {r e b ret}, x.calls r = some e → e.pc.passed → x'.calls r = some b →
      b.pc = .done ret → b.pc.inserted := by
    intro r e b ret hr he hb hdone
    obtain ⟨b', hb', hpassed⟩ := h'.invariant (P := fun y => ∃ c, y.calls r = some c ∧ c.pc.passed)
      (fun hy _ hs => passed_step hy hs) ⟨e, hr, he⟩
    cases hb.symm.trans hb'
    rw [hdone] at hpassed ⊢
    exact hpassed
  exact hpq (distinct.sole p q d d' hd hd' (created hp hpassed hd hret)
    (created hq hpassed' hd' hret'))

end Overlap

end Intake

end BulkActions
