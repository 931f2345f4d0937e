import BulkActions.Intake

namespace BulkActions

open ReadCommitted RateLimiter

/-- How far the one submission of a key has come, with the call that makes it. -/
inductive Stage where
  | unsubmitted
  | admitted (creator : Pid)
  | inserted (creator : Pid) (row : BulkAction)
  | enqueued (creator : Pid) (row : BulkAction)
  | created (creator : Pid) (row : BulkAction)

def SubmitPc.beforeLookup : SubmitPc → Bool
  | .getAccount => true
  | .lookup _ => true
  | _ => false

def SubmitPc.looksUp : SubmitPc → Bool
  | .lookup _ => true
  | _ => false

/-- Between a lookup that has found nothing and the commit. -/
def SubmitPc.creating : SubmitPc → Bool
  | .consumeSubmission _ => true
  | .flush _ => true
  | .enqueue _ => true
  | .commit ret => ret.created
  | _ => false

namespace Stage

def creator : Stage → Option Pid
  | .unsubmitted => none
  | .admitted p => some p
  | .inserted p _ => some p
  | .enqueued p _ => some p
  | .created p _ => some p

/-- Where the creator stands. -/
def creates (account : Uuid) (key : String) : Stage → SubmitPc → Prop
  | .unsubmitted, _ => False
  | .admitted _, pc => (∃ limit, pc = .consumeSubmission limit) ∨
    ∃ row, pc = .flush row ∧ row.uniqueKey = some (account, key)
  | .inserted _ row, pc => pc = .enqueue row
  | .enqueued _ row, pc => pc = .commit ⟨row, true⟩
  | .created _ row, pc => pc = .done ⟨row, true⟩

/-- Where the other calls stand. -/
def replays : Stage → SubmitPc → Prop
  | .created _ row, pc => pc.beforeLookup ∨ pc = .commit ⟨row, false⟩ ∨ pc = .done ⟨row, false⟩
  | _, pc => pc.beforeLookup

/-- What a transaction has inserted. -/
def writes : Stage → Pid → List BulkAction
  | .inserted creator row, p => if p = creator then [row] else []
  | .enqueued creator row, p => if p = creator then [row] else []
  | _, _ => []

def row : Stage → Option BulkAction
  | .inserted _ row => some row
  | .enqueued _ row => some row
  | .created _ row => some row
  | _ => none

/-- The committed rows of the key. -/
def rows : Stage → List BulkAction
  | .created _ row => [row]
  | _ => []

def jobs : Stage → List Uuid
  | .enqueued _ row => [row.id]
  | .created _ row => [row.id]
  | _ => []

variable {stage : Stage} {account : Uuid} {key : String} {p : Pid} {pc : SubmitPc}

theorem replays_of_beforeLookup (h : pc.beforeLookup) : stage.replays pc := by
  cases stage <;> first | exact h | exact Or.inl h

theorem creates_not_beforeLookup (h : stage.creates account key pc) : pc.beforeLookup = false := by
  cases stage with
  | unsubmitted => exact h.elim
  | admitted _ => rcases h with ⟨_, rfl⟩ | ⟨_, rfl, _⟩ <;> rfl
  | inserted _ _ => cases h; rfl
  | enqueued _ _ => cases h; rfl
  | created _ _ => cases h; rfl

theorem writes_eq_nil (h : stage.creator ≠ some p) : stage.writes p = [] := by
  cases stage with
  | inserted q row => exact if_neg (fun he => h (congrArg some he.symm))
  | enqueued q row => exact if_neg (fun he => h (congrArg some he.symm))
  | _ => rfl

end Stage

namespace Intake

/-- The state is that of one submission. -/
structure Safe (account : Uuid) (key : String) (stage : Stage) (x : Intake) : Prop where
  carried : ∀ p c, x.calls p = some c →
    c.request.accountId = account ∧ c.request.idempotencyKey = some key
  creator : ∀ p, stage.creator = some p →
    ∃ c, x.calls p = some c ∧ stage.creates account key c.pc
  others : ∀ p c, stage.creator ≠ some p → x.calls p = some c → stage.replays c.pc
  limited : (x.rateLimits account).isSome
  owned : x.db.Owned BulkAction.uniqueKey
  writes : ∀ p, x.db.writes p = stage.writes p
  rows : x.db.committed.filter (BulkAction.replays account key) = stage.rows
  keyed : ∀ row, stage.row = some row → row.uniqueKey = some (account, key)
  jobs : x.planJobs = stage.jobs

section States

variable {account : Uuid} {key : String} {stage : Stage} {x : Intake} {p : Pid} {c : Call}
  {pc : SubmitPc} {row : BulkAction}

theorem replay_insert (ws rows : List BulkAction) : replay insertRow ws rows = rows ++ ws := by
  induction ws generalizing rows with
  | nil => simp
  | cons w ws ih =>
    rw [replay_cons, ih]
    simp [insertRow]

theorem view_eq (x : Intake) (p : Pid) : x.view p = x.db.committed ++ x.db.writes p :=
  replay_insert _ _

@[simp] theorem put_calls_self : (x.put p c).calls p = some c := by
  simp [put]

theorem put_calls_ne {q : Pid} (h : q ≠ p) : (x.put p c).calls q = x.calls q := by
  simp [put, h]

/-- A call after one of them has moved: that one, or a call that was there. -/
theorem put_calls_eq_some {q : Pid} {c' : Call} (h : (x.put p c).calls q = some c') :
    (q = p ∧ c' = c) ∨ (q ≠ p ∧ x.calls q = some c') := by
  by_cases hqp : q = p
  · subst hqp
    rw [put_calls_self] at h
    exact Or.inl ⟨rfl, (Option.some.inj h).symm⟩
  · rw [put_calls_ne hqp] at h
    exact Or.inr ⟨hqp, h⟩

/-- A call is the creator of the submission or replays it. -/
theorem creates_or_replays (hx : x.Safe account key stage) (hp : x.calls p = some c) :
    (stage.creator = some p ∧ stage.creates account key c.pc) ∨
      (stage.creator ≠ some p ∧ stage.replays c.pc) := by
  by_cases hcreator : stage.creator = some p
  · obtain ⟨c', hc', hcreates⟩ := hx.creator p hcreator
    cases hp.symm.trans hc'
    exact Or.inl ⟨hcreator, hcreates⟩
  · exact Or.inr ⟨hcreator, hx.others p c hcreator hp⟩

/-- The creator of a submission is the only call past the lookup until its row is committed. -/
theorem creator_of_creating (hx : x.Safe account key stage) (hp : x.calls p = some c)
    (hc : c.pc.creating) : stage.creator = some p ∧ stage.creates account key c.pc := by
  rcases creates_or_replays hx hp with hcreates | ⟨_, hreplays⟩
  · exact hcreates
  · have hbefore : c.pc.beforeLookup = false := by
      cases hpc : c.pc <;> simp_all [SubmitPc.creating, SubmitPc.beforeLookup]
    cases stage with
    | created _ _ =>
      rcases hreplays with h | h | h
      · simp [hbefore] at h
      · simp [h, SubmitPc.creating] at hc
      · simp [h, SubmitPc.creating] at hc
    | _ => simp [Stage.replays, hbefore] at hreplays

/-- What a call finds under the key. -/
theorem existing_eq (hx : x.Safe account key stage) (hp : x.calls p = some c)
    (hcreator : stage.creator ≠ some p) :
    x.existing p c.request = if key = "" then [] else stage.rows := by
  obtain ⟨haccount, hkey⟩ := hx.carried p c hp
  simp only [existing, hkey, haccount, view_eq, hx.writes, Stage.writes_eq_nil hcreator,
    List.append_nil, hx.rows]

/-- A call other than the creator comes or moves on. -/
theorem safe_put (hx : x.Safe account key stage)
    (hcarried : c.request.accountId = account ∧ c.request.idempotencyKey = some key)
    (hcreator : stage.creator ≠ some p) (hreplays : stage.replays c.pc) :
    (x.put p c).Safe account key stage where
  carried := by
    intro q c' hq
    rcases put_calls_eq_some hq with ⟨_, rfl⟩ | ⟨_, hq⟩
    · exact hcarried
    · exact hx.carried q c' hq
  creator := by
    intro q hq
    have hqp : q ≠ p := fun he => hcreator (he ▸ hq)
    rw [put_calls_ne hqp]
    exact hx.creator q hq
  others := by
    intro q c' hq hc'
    rcases put_calls_eq_some hc' with ⟨_, rfl⟩ | ⟨_, hc'⟩
    · exact hreplays
    · exact hx.others q c' hq hc'
  limited := hx.limited
  owned := hx.owned
  writes := hx.writes
  rows := hx.rows
  keyed := hx.keyed
  jobs := hx.jobs

theorem safe_goto (hx : x.Safe account key stage) (hp : x.calls p = some c)
    (hcreator : stage.creator ≠ some p) (hpc : stage.replays pc) :
    (x.goto p c pc).Safe account key stage :=
  safe_put hx (hx.carried p c hp) hcreator hpc

/-- The creator moves on, to the next stage of the submission. -/
theorem safe_create {x' : Intake} {stage' : Stage} (hx : x.Safe account key stage)
    (hp : x.calls p = some c) (hcalls : x'.calls = (x.goto p c pc).calls)
    (hlimits : x'.rateLimits = x.rateLimits) (hsole : ∀ q, stage.creator = some q → q = p)
    (hcreator : stage'.creator = some p) (hcreates : stage'.creates account key pc)
    (hothers : ∀ pc, stage.replays pc → stage'.replays pc)
    (howned : x'.db.Owned BulkAction.uniqueKey) (hwrites : ∀ q, x'.db.writes q = stage'.writes q)
    (hrows : x'.db.committed.filter (BulkAction.replays account key) = stage'.rows)
    (hkeyed : ∀ row, stage'.row = some row → row.uniqueKey = some (account, key))
    (hjobs : x'.planJobs = stage'.jobs) : x'.Safe account key stage' where
  carried := by
    intro q c' hq
    rw [hcalls, goto] at hq
    rcases put_calls_eq_some hq with ⟨_, rfl⟩ | ⟨_, hq⟩
    · exact hx.carried p c hp
    · exact hx.carried q c' hq
  creator := by
    intro q hq
    cases Option.some.inj (hcreator.symm.trans hq)
    exact ⟨_, by rw [hcalls, goto, put_calls_self], hcreates⟩
  others := by
    intro q c' hq hc'
    have hqp : q ≠ p := fun he => hq (he ▸ hcreator)
    rw [hcalls, goto, put_calls_ne hqp] at hc'
    exact hothers _ (hx.others q c' (fun he => hqp (hsole q he)) hc')
  limited := hlimits ▸ hx.limited
  owned := howned
  writes := hwrites
  rows := hrows
  keyed := hkeyed
  jobs := hjobs

/-- While nothing is inserted, the key is free. -/
theorem free_of_writes (hx : x.Safe account key stage) (hwrites : ∀ q, stage.writes q = [])
    (p : Pid) (k : Uuid × String) : x.db.free p k := by
  have hlock : x.db.lock k = none := by
    cases hlock : x.db.lock k with
    | none => rfl
    | some q =>
      obtain ⟨a, ha, _⟩ := hx.owned q k hlock
      rw [hx.writes, hwrites] at ha
      cases ha
  simp [Store.free, hlock]

end States

/-- Valid requests with one key on one account, admitted by the submission limiter. -/
def Carries (account : Uuid) (key : String) : IntakeLabel → Prop
  | .call _ r => r.accountId = account ∧ r.idempotencyKey = some key
  | .run _ d => d.allowed

/-- A call looks its key up while no other is on its way from an empty lookup to its commit;
with the empty key, no second call gets to the lookup. -/
def Apart (key : String) (x : Intake) : IntakeLabel → Prop
  | .call _ _ => True
  | .run p _ => ∀ c limit, x.calls p = some c → c.pc = .lookup limit →
    ∀ q c', x.calls q = some c' → c'.pc.creating = false ∧ (key = "" → c'.pc.beforeLookup)

section Steps

variable {settings : Settings} {account : Uuid} {key : String} {stage : Stage} {x x' : Intake}
  {l : IntakeLabel} {p : Pid} {c : Call}

theorem not_creator_of_beforeLookup (hx : x.Safe account key stage) (hp : x.calls p = some c)
    (hc : c.pc.beforeLookup) : stage.creator ≠ some p := by
  rcases creates_or_replays hx hp with ⟨_, hcreates⟩ | ⟨hcreator, _⟩
  · simp [Stage.creates_not_beforeLookup hcreates] at hc
  · exact hcreator

/-- A lookup that finds nothing is the first one. -/
theorem missed_first {limit : Nat} {d : Decision} (hx : x.Safe account key stage)
    (hok : Apart key x (.run p d)) (hp : x.calls p = some c) (hpc : c.pc = .lookup limit)
    (hnone : x.existing p c.request = []) : stage = .unsubmitted := by
  have hother : stage.creator ≠ some p :=
    not_creator_of_beforeLookup hx hp (by rw [hpc]; rfl)
  rw [existing_eq hx hp hother] at hnone
  have apart := hok c limit hp hpc
  cases stage with
  | unsubmitted => rfl
  | admitted q =>
    obtain ⟨c', hc', hcreates⟩ := hx.creator q rfl
    have hcreating := (apart q c' hc').1
    rcases hcreates with ⟨_, he⟩ | ⟨_, he, _⟩ <;> simp [he, SubmitPc.creating] at hcreating
  | inserted q row =>
    obtain ⟨c', hc', hcreates⟩ := hx.creator q rfl
    have hcreating := (apart q c' hc').1
    simp [show c'.pc = .enqueue row from hcreates, SubmitPc.creating] at hcreating
  | enqueued q row =>
    obtain ⟨c', hc', hcreates⟩ := hx.creator q rfl
    have hcreating := (apart q c' hc').1
    simp [show c'.pc = .commit ⟨row, true⟩ from hcreates, SubmitPc.creating] at hcreating
  | created q row =>
    obtain ⟨c', hc', hcreates⟩ := hx.creator q rfl
    by_cases hempty : key = ""
    · have hbefore := (apart q c' hc').2 hempty
      rw [Stage.creates_not_beforeLookup hcreates] at hbefore
      cases hbefore
    · simp [hempty, Stage.rows] at hnone

theorem stage_of_consume {limit : Nat} (hx : x.Safe account key stage) (hp : x.calls p = some c)
    (hpc : c.pc = .consumeSubmission limit) : stage = .admitted p := by
  obtain ⟨hcreator, hcreates⟩ := creator_of_creating hx hp (by rw [hpc]; rfl)
  rw [hpc] at hcreates
  cases stage <;> simp_all [Stage.creator, Stage.creates]

theorem stage_of_flush {row : BulkAction} (hx : x.Safe account key stage)
    (hp : x.calls p = some c) (hpc : c.pc = .flush row) :
    stage = .admitted p ∧ row.uniqueKey = some (account, key) := by
  obtain ⟨hcreator, hcreates⟩ := creator_of_creating hx hp (by rw [hpc]; rfl)
  rw [hpc] at hcreates
  cases stage <;> simp_all [Stage.creator, Stage.creates]

theorem stage_of_enqueue {row : BulkAction} (hx : x.Safe account key stage)
    (hp : x.calls p = some c) (hpc : c.pc = .enqueue row) : stage = .inserted p row := by
  obtain ⟨hcreator, hcreates⟩ := creator_of_creating hx hp (by rw [hpc]; rfl)
  rw [hpc] at hcreates
  cases stage <;> simp_all [Stage.creator, Stage.creates]

/-- A session is committed by the creator, or by a call that replays. -/
theorem stage_of_commit {ret : SubmitReturn} (hx : x.Safe account key stage)
    (hp : x.calls p = some c) (hpc : c.pc = .commit ret) :
    (stage = .enqueued p ret.action ∧ ret.created = true) ∨
      (stage.creator ≠ some p ∧ stage.replays (.done ret)) := by
  obtain ⟨action, created⟩ := ret
  rcases creates_or_replays hx hp with ⟨hcreator, hcreates⟩ | ⟨hcreator, hreplays⟩
  · left
    rw [hpc] at hcreates
    cases stage <;> simp_all [Stage.creator, Stage.creates]
  · right
    rw [hpc] at hreplays
    refine ⟨hcreator, ?_⟩
    cases stage with
    | created q row => simpa [Stage.replays, SubmitPc.beforeLookup] using hreplays
    | _ => cases hreplays

theorem safe_call {r : SubmitRequest} (hx : x.Safe account key stage)
    (hr : r.accountId = account ∧ r.idempotencyKey = some key) (hp : x.calls p = none) :
    (x.put p ⟨r, .getAccount⟩).Safe account key stage := by
  refine safe_put hx hr ?_ (Stage.replays_of_beforeLookup rfl)
  intro hcreator
  obtain ⟨c', hc', _⟩ := hx.creator p hcreator
  cases hp.symm.trans hc'

theorem safe_insert {row : BulkAction} (hx : x.Safe account key stage) (hp : x.calls p = some c)
    (hpc : c.pc = .flush row) : (x.insert p c row).Safe account key (.inserted p row) := by
  obtain ⟨rfl, hkey⟩ := stage_of_flush hx hp hpc
  refine safe_create hx hp rfl rfl (fun q hq => (Option.some.inj hq).symm) rfl rfl
    (fun _ h => h) (Store.owned_write hx.owned) ?_ hx.rows ?_ hx.jobs
  · intro q
    have hself : x.db.writes p = [] := hx.writes p
    by_cases hq : q = p
    · subst hq
      simp [insert, hself, Stage.writes]
    · have hne : (x.insert p c row).db.writes q = x.db.writes q := Store.write_writes_ne hq
      rw [hne, hx.writes]
      simp [Stage.writes, hq]
  · intro row' hrow
    cases hrow
    exact hkey

/-- The unique constraint is not violated. -/
theorem no_conflict {row a : BulkAction} (hx : x.Safe account key stage) (hp : x.calls p = some c)
    (hpc : c.pc = .flush row) (ha : a ∈ x.view p) : a.uniqueKey ≠ row.uniqueKey := by
  obtain ⟨rfl, hkey⟩ := stage_of_flush hx hp hpc
  intro hsame
  rw [view_eq, hx.writes] at ha
  have hmem : a ∈ x.db.committed.filter (BulkAction.replays account key) :=
    List.mem_filter.mpr ⟨by simpa [Stage.writes] using ha, replays_iff.mpr (hsame.trans hkey)⟩
  rw [hx.rows] at hmem
  cases hmem

theorem safe_enqueue {row : BulkAction} (hx : x.Safe account key stage) (hp : x.calls p = some c)
    (hpc : c.pc = .enqueue row) : (x.enqueue p c row).Safe account key (.enqueued p row) := by
  obtain rfl := stage_of_enqueue hx hp hpc
  refine safe_create hx hp rfl rfl (fun q hq => (Option.some.inj hq).symm) rfl rfl
    (fun _ h => h) hx.owned hx.writes hx.rows hx.keyed ?_
  have hjobs : x.planJobs = [] := hx.jobs
  simp [enqueue, hjobs, Stage.jobs]

theorem safe_commit {ret : SubmitReturn} (hx : x.Safe account key stage) (hp : x.calls p = some c)
    (hpc : c.pc = .commit ret) : ∃ stage', (x.commit p c ret).Safe account key stage' := by
  have hself : (x.commit p c ret).db.writes p = [] := Store.commit_writes_self
  have hne : ∀ q, q ≠ p → (x.commit p c ret).db.writes q = x.db.writes q :=
    fun q hq => Store.commit_writes_ne hq
  have hcommitted : (x.commit p c ret).db.committed = x.db.committed ++ x.db.writes p :=
    replay_insert _ _
  rcases stage_of_commit hx hp hpc with ⟨rfl, hcreated⟩ | ⟨hcreator, hreplays⟩
  · obtain ⟨row, created⟩ := ret
    cases hcreated
    have hkey := hx.keyed row rfl
    have hreplays : row.replays account key := replays_iff.mpr hkey
    refine ⟨.created p row, safe_create hx hp rfl rfl (fun q hq => (Option.some.inj hq).symm)
      rfl rfl (fun _ h => Or.inl h) (Store.owned_commit hx.owned) ?_ ?_ hx.keyed hx.jobs⟩
    · intro q
      by_cases hq : q = p
      · rw [hq]
        exact hself
      · rw [hne q hq, hx.writes]
        simp [Stage.writes, hq]
    · rw [hcommitted, hx.writes, List.filter_append, hx.rows]
      simp [Stage.writes, Stage.rows, hreplays]
  · have hgoto := safe_goto hx hp hcreator hreplays
    have hnil : x.db.writes p = [] := by rw [hx.writes, Stage.writes_eq_nil hcreator]
    refine ⟨stage, hgoto.carried, hgoto.creator, hgoto.others, hx.limited,
      Store.owned_commit hx.owned, ?_, ?_, hx.keyed, hx.jobs⟩
    · intro q
      by_cases hq : q = p
      · rw [hq, hself, Stage.writes_eq_nil hcreator]
      · rw [hne q hq]
        exact hx.writes q
    · rw [hcommitted, hnil, List.append_nil]
      exact hx.rows

theorem safe_step (hx : x.Safe account key stage) (hcarries : Carries account key l)
    (hok : Apart key x l) (h : x.step settings l = some x') :
    ∃ stage', x'.Safe account key stage' := by
  cases step_takes h with
  | call hp => exact ⟨stage, safe_call hx hcarries hp⟩
  | @accountMissing p d c hp hpc hnone =>
    have hlimited := hx.limited
    rw [← (hx.carried p c hp).1, hnone] at hlimited
    cases hlimited
  | @account p d c limit hp hpc _ =>
    have hother := not_creator_of_beforeLookup hx hp (by rw [hpc]; rfl)
    exact ⟨stage, safe_goto hx hp hother (Stage.replays_of_beforeLookup rfl)⟩
  | @missed p d c limit hp hpc hnone =>
    obtain rfl := missed_first hx hok hp hpc hnone
    exact ⟨.admitted p, safe_create hx hp rfl rfl (fun _ hq => by cases hq) rfl
      (Or.inl ⟨limit, rfl⟩) (fun _ h => h) hx.owned hx.writes hx.rows (fun _ hrow => by cases hrow)
      hx.jobs⟩
  | @found p d c limit a hp hpc hone =>
    have hother := not_creator_of_beforeLookup hx hp (by rw [hpc]; rfl)
    rw [existing_eq hx hp hother] at hone
    refine ⟨stage, safe_goto hx hp hother ?_⟩
    split at hone
    next => cases hone
    next =>
      cases stage with
      | created q row =>
        cases hone
        exact Or.inr (Or.inl rfl)
      | _ => cases hone
  | @ambiguous p d c limit hp hpc hmany =>
    have hother := not_creator_of_beforeLookup hx hp (by rw [hpc]; rfl)
    rw [existing_eq hx hp hother] at hmany
    split at hmany
    next => cases hmany
    next => cases stage <;> simp [Stage.rows] at hmany
  | @admitted p d c limit hp hpc _ =>
    obtain rfl := stage_of_consume hx hp hpc
    obtain ⟨haccount, hkey⟩ := hx.carried p c hp
    exact ⟨.admitted p, safe_create hx hp rfl rfl (fun q hq => (Option.some.inj hq).symm) rfl
      (Or.inr ⟨_, rfl, by simp [BulkAction.uniqueKey, SubmitRequest.row, haccount, hkey]⟩)
      (fun _ h => h) hx.owned hx.writes hx.rows hx.keyed hx.jobs⟩
  | denied _ _ hdenied => exact absurd (hcarries.symm.trans hdenied) (by simp)
  | inserted hp hpc _ => exact ⟨_, safe_insert hx hp hpc⟩
  | conflict hp hpc ha _ hsame => exact absurd hsame (no_conflict hx hp hpc ha)
  | enqueued hp hpc => exact ⟨_, safe_enqueue hx hp hpc⟩
  | committed hp hpc => exact safe_commit hx hp hpc

/-- A call that has returned tells who has created the action. -/
theorem stage_of_done {ret : SubmitReturn} (hx : x.Safe account key stage)
    (hp : x.calls p = some c) (hpc : c.pc = .done ret) :
    ∃ creator, stage = .created creator ret.action ∧ (ret.created = true ↔ p = creator) := by
  obtain ⟨action, created⟩ := ret
  rcases creates_or_replays hx hp with ⟨hcreator, hcreates⟩ | ⟨hcreator, hreplays⟩
  · rw [hpc] at hcreates
    cases stage <;> simp_all [Stage.creator, Stage.creates]
  · rw [hpc] at hreplays
    cases stage with
    | created q row =>
      have hret : action = row ∧ created = false := by
        simpa [Stage.replays, SubmitPc.beforeLookup] using hreplays
      refine ⟨q, by rw [hret.1], ?_⟩
      rw [hret.2]
      simpa [Stage.creator, eq_comm] using hcreator
    | _ => cases hreplays

theorem not_raised {error : SubmitError} (hx : x.Safe account key stage)
    (hp : x.calls p = some c) : c.pc ≠ .raised error := by
  intro hpc
  rcases creates_or_replays hx hp with ⟨_, hcreates⟩ | ⟨_, hreplays⟩
  · rw [hpc] at hcreates
    cases stage <;> simp_all [Stage.creates]
  · rw [hpc] at hreplays
    cases stage <;> simp_all [Stage.replays, SubmitPc.beforeLookup]

end Steps

end Intake

/-- The statements that a call has still to send, at most. -/
def SubmitPc.remaining : SubmitPc → Nat
  | .getAccount => 6
  | .lookup _ => 5
  | .consumeSubmission _ => 4
  | .flush _ => 3
  | .enqueue _ => 2
  | .commit _ => 1
  | .done _ => 0
  | .raised _ => 0

namespace Intake

section Progress

variable {settings : Settings} {x x' : Intake} {p : Pid} {d : Decision} {c : Call}

/-- Every statement brings a call closer to its end. -/
theorem takes_remaining (hp : x.calls p = some c) (h : Takes settings x (.run p d) x') :
    ∃ c', x'.calls p = some c' ∧ c'.pc.remaining < c.pc.remaining := by
  cases h with
  | accountMissing hq hpc _ | account hq hpc _ | missed hq hpc _ | found hq hpc _
  | ambiguous hq hpc _ | admitted hq hpc _ | denied hq hpc _ | inserted hq hpc _
  | conflict hq hpc _ _ _ | enqueued hq hpc | committed hq hpc =>
    cases hp.symm.trans hq
    exact ⟨_, put_calls_self, by simp [hpc, SubmitPc.remaining]⟩

/-- A call waits for nothing but another transaction that has inserted its key. -/
theorem next_isSome (hc : 0 < c.pc.remaining)
    (hfree : ∀ row k, c.pc = .flush row → row.uniqueKey = some k → x.db.free p k) :
    (x.next settings p d c).isSome := by
  unfold next
  split
  next => split <;> rfl
  next => split <;> rfl
  next => split <;> rfl
  next row hpc =>
    unfold flush
    split
    next => rfl
    next k hk =>
      rw [if_pos (hfree row k hpc hk)]
      split <;> rfl
  next => rfl
  next => rfl
  next hpc => simp [hpc, SubmitPc.remaining] at hc
  next hpc => simp [hpc, SubmitPc.remaining] at hc

end Progress

/-- Nothing has been submitted under the key. -/
structure Begins (account : Uuid) (key : String) (x : Intake) : Prop where
  calls : ∀ p, x.calls p = none
  closed : ∀ p, x.db.writes p = []
  unlocked : ∀ k, x.db.lock k = none
  limited : (x.rateLimits account).isSome
  rows : x.db.committed.filter (BulkAction.replays account key) = []
  jobs : x.planJobs = []

/-- Every call gets to its end without waiting and none raises; those that have returned return
one action, which one of them has created, with one row under the key and one plan job. -/
structure Idempotent (settings : Settings) (account : Uuid) (key : String) (x : Intake) :
    Prop where
  proceeds : ∀ p c d, x.calls p = some c → 0 < c.pc.remaining →
    ∃ x' c', x.step settings (.run p d) = some x' ∧ x'.calls p = some c' ∧
      c'.pc.remaining < c.pc.remaining
  answered : ∀ p c error, x.calls p = some c → c.pc ≠ .raised error
  once : ∀ p c ret, x.calls p = some c → c.pc = .done ret → ∃ creator a,
    (∃ c', x.calls creator = some c' ∧ c'.pc = .done ⟨a, true⟩) ∧
    (∀ q c' ret', x.calls q = some c' → c'.pc = .done ret' →
      ret'.action = a ∧ (ret'.created = true ↔ q = creator)) ∧
    x.db.committed.filter (BulkAction.replays account key) = [a] ∧ x.planJobs = [a.id]

theorem safe_begins {account : Uuid} {key : String} {x : Intake} (h : x.Begins account key) :
    x.Safe account key .unsubmitted where
  carried := by simp [h.calls]
  creator := by simp [Stage.creator]
  others := by simp [h.calls]
  limited := h.limited
  owned := by
    intro p k hk
    rw [h.unlocked] at hk
    cases hk
  writes := h.closed
  rows := h.rows
  keyed := by simp [Stage.row]
  jobs := h.jobs

theorem idempotent_of_safe {settings : Settings} {account : Uuid} {key : String} {stage : Stage}
    {x : Intake} (hx : x.Safe account key stage) : x.Idempotent settings account key where
  proceeds := by
    intro p c d hp hc
    have hsome : (x.next settings p d c).isSome := by
      refine next_isSome hc (fun row k hpc _ => free_of_writes hx ?_ p k)
      obtain ⟨rfl, _⟩ := stage_of_flush hx hp hpc
      exact fun _ => rfl
    obtain ⟨x', hnext⟩ := Option.isSome_iff_exists.mp hsome
    obtain ⟨c', hc', hlt⟩ := takes_remaining hp (next_takes hp hnext)
    exact ⟨x', c', by simp [step, hp, hnext], hc', hlt⟩
  answered := fun p c error hp => not_raised hx hp
  once := by
    intro p c ret hp hpc
    obtain ⟨creator, rfl, _⟩ := stage_of_done hx hp hpc
    refine ⟨creator, ret.action, hx.creator creator rfl, ?_, hx.rows, hx.jobs⟩
    intro q c' ret' hq hqc
    obtain ⟨creator', hstage, hcreated⟩ := stage_of_done hx hq hqc
    obtain ⟨rfl, haction⟩ := Stage.created.inj hstage
    exact ⟨haction.symm, hcreated⟩

/-- Resubmission is idempotent in every run in which a call looks its key up while no other is on
its way from an empty lookup to its commit, and in which the empty key is used once. -/
theorem resubmission_idempotent {settings : Settings} {account : Uuid} {key : String}
    {x₀ x : Intake} (hbegins : x₀.Begins account key)
    (h : Runs.Reaches (step settings) (fun y l => Carries account key l ∧ Apart key y l) x₀ x) :
    x.Idempotent settings account key := by
  have safe : ∃ stage, x.Safe account key stage := by
    refine h.invariant (P := fun y => ∃ stage, y.Safe account key stage) ?_
      ⟨_, safe_begins hbegins⟩
    rintro y y' l ⟨stage, hy⟩ ⟨hcarries, hapart⟩ hstep
    exact safe_step hy hcarries hapart hstep
  obtain ⟨stage, hx⟩ := safe
  exact idempotent_of_safe hx

/-- A platform with no action and one limit for all accounts. -/
def emptyIntake : Intake where
  db := ⟨[], fun _ => [], fun _ => none⟩
  rateLimits _ := some 10000
  planJobs := []
  calls _ := none

theorem emptyIntake_begins (account : Uuid) (key : String) : emptyIntake.Begins account key :=
  ⟨fun _ => rfl, fun _ => rfl, fun _ => rfl, rfl, rfl, rfl⟩

/-- A submission of account 1 under a key; each attempt brings an id of its own. -/
def attempt (key : String) (id : Uuid) : SubmitRequest where
  id := id
  accountId := 1
  entityType := .contact
  config := deactivateContacts
  idempotencyKey := some key

def proceed (p : Pid) : IntakeLabel := .run p ⟨true, 0, 0⟩

/-- What a call has answered: the id of the action and whether it is new, or nothing when it
has raised. -/
def answer (x : Intake) (p : Pid) : Option (Option (Uuid × Bool)) :=
  match (x.calls p).map Call.pc with
  | some (.done ret) => some (some (ret.action.id, ret.created))
  | some (.raised _) => some none
  | _ => none

/-- A check that the first `n` calls carry the key and keep apart. -/
def apartBelow (n : Nat) (key : String) (x : Intake) : IntakeLabel → Bool
  | .call p r => p < n && r.accountId = 1 && r.idempotencyKey = some key
  | .run p d => p < n && d.allowed &&
    (!(x.calls p).any (fun c => c.pc.looksUp) ||
      (List.range n).all (fun q => (x.calls q).all (fun c => !c.pc.creating)))

theorem apart_of_check {n : Nat} {key : String} {x : Intake} {l : IntakeLabel} (hkey : key ≠ "")
    (hx : ∀ q : Nat, n ≤ q → x.calls q = none) (h : x.apartBelow n key l) :
    Carries 1 key l ∧ Apart key x l := by
  cases l with
  | call p r =>
    simp only [apartBelow, Bool.and_eq_true, decide_eq_true_eq] at h
    exact ⟨⟨h.1.2, h.2⟩, trivial⟩
  | run p d =>
    simp only [apartBelow, Bool.and_eq_true, Bool.or_eq_true, Bool.not_eq_true',
      List.all_eq_true, List.mem_range] at h
    refine ⟨h.1.2, fun c limit hp hpc q c' hq => ⟨?_, fun hempty => absurd hempty hkey⟩⟩
    have hlookup : (x.calls p).any (fun c => c.pc.looksUp) = true := by
      simp [hp, hpc, SubmitPc.looksUp]
    have hlt : q < n := by
      by_contra hge
      rw [hx q (Nat.le_of_not_lt hge)] at hq
      cases hq
    rcases h.2 with hnot | hall
    · rw [hlookup] at hnot
      cases hnot
    · simpa [hq] using hall q hlt

theorem calls_step_ne {settings : Settings} {x x' : Intake} {l : IntakeLabel} {q : Pid}
    (h : x.step settings l = some x') (hq : q ≠ l.pid) : x'.calls q = x.calls q := by
  cases step_takes h <;> exact put_calls_ne hq

theorem below_of_check {settings : Settings} {n : Nat} {key : String} {x x' : Intake}
    {l : IntakeLabel} (hx : ∀ q : Nat, n ≤ q → x.calls q = none) (h : x.apartBelow n key l)
    (hstep : x.step settings l = some x') : ∀ q : Nat, n ≤ q → x'.calls q = none := by
  have hpid : l.pid < n := by
    cases l with
    | call p r =>
      simp only [apartBelow, Bool.and_eq_true, decide_eq_true_eq] at h
      exact h.1.1
    | run p d =>
      simp only [apartBelow, Bool.and_eq_true, decide_eq_true_eq] at h
      exact h.1.1
  intro q hq
  rw [calls_step_ne hstep (Nat.ne_of_gt (Nat.lt_of_lt_of_le hpid hq))]
  exact hx q hq

/-- A submission and, after its commit, the first statements of one under the same key. -/
def resubmitted (key : String) (statements : Nat) : List IntakeLabel :=
  .call 0 (attempt key 7) :: List.replicate 6 (proceed 0) ++
    .call 1 (attempt key 8) :: List.replicate statements (proceed 1)

/-- The second submission returns the action of the first. -/
theorem resubmission_idempotent_replay :
    ∃ x, Runs.Reaches (step {}) (fun y l => Carries 1 "submit-42" l ∧ Apart "submit-42" y l)
        emptyIntake x ∧
      x.answer 0 = some (some (7, true)) ∧ x.answer 1 = some (some (7, false)) ∧
      x.Idempotent {} 1 "submit-42" := by
  obtain ⟨x, hx, hanswers⟩ : ∃ x,
      Runs.checkedSteps (step {}) (apartBelow 2 "submit-42") emptyIntake
        (resubmitted "submit-42" 3) = some x ∧
      (x.answer 0, x.answer 1) = (some (some (7, true)), some (some (7, false))) :=
    Option.map_eq_some_iff.mp (by decide)
  simp only [Prod.mk.injEq] at hanswers
  have hr : Runs.Reaches (step {}) (fun y l => Carries 1 "submit-42" l ∧ Apart "submit-42" y l)
      emptyIntake x :=
    Runs.reaches_of_checked (P := fun y => ∀ q : Nat, 2 ≤ q → y.calls q = none)
      (fun hy hc => apart_of_check (by decide) hy hc) (fun hy hc hs => below_of_check hy hc hs)
      (fun _ _ => rfl) hx
  exact ⟨x, hr, hanswers.1, hanswers.2,
    resubmission_idempotent (emptyIntake_begins 1 "submit-42") hr⟩

instance (account : Uuid) (key : String) : DecidablePred (Carries account key)
  | .call _ _ => inferInstanceAs (Decidable (_ ∧ _))
  | .run _ d => inferInstanceAs (Decidable (d.allowed = true))

/-- Two submissions whose lookups both come before the first commit. -/
def overlapping (key : String) : List IntakeLabel :=
  [.call 0 (attempt key 7), .call 1 (attempt key 8), proceed 0, proceed 0, proceed 1, proceed 1] ++
    List.replicate 4 (proceed 0) ++ List.replicate 2 (proceed 1)

/-- A call that has raised in a run of valid submissions of one key. -/
theorem not_idempotent (key : String) (labels : List IntakeLabel)
    (hcarries : ∀ l ∈ labels, Carries 1 key l)
    (hraised : (Runs.steps (step {}) emptyIntake labels).map (fun x => x.answer 1) =
      some (some none)) :
    ∃ x, Runs.Reaches (step {}) (fun _ l => Carries 1 key l) emptyIntake x ∧
      ¬ x.Idempotent {} 1 key := by
  obtain ⟨x, hx, hanswer⟩ := Option.map_eq_some_iff.mp hraised
  refine ⟨x, Runs.reaches_of_allowed hcarries hx, ?_⟩
  intro hidempotent
  unfold answer at hanswer
  split at hanswer
  next => cases hanswer
  next error hpc =>
    obtain ⟨c, hc, hce⟩ := Option.map_eq_some_iff.mp hpc
    exact hidempotent.answered 1 c error hc hce
  next => cases hanswer

/-- The INSERT of the overlapping submission raises instead of returning the action. -/
theorem resubmission_raises :
    ¬ ∀ (settings : Settings) (account : Uuid) (key : String) (x₀ x : Intake),
      x₀.Begins account key →
      Runs.Reaches (step settings) (fun _ l => Carries account key l) x₀ x →
      x.Idempotent settings account key := by
  intro always
  obtain ⟨x, hr, hnot⟩ := not_idempotent "submit-42" (overlapping "submit-42") (by decide)
    (by decide)
  exact hnot (always {} 1 "submit-42" emptyIntake x (emptyIntake_begins 1 "submit-42") hr)

/-- The empty key is not looked up, so that a submission raises also after the first commit. -/
theorem empty_key_raises :
    ∃ x, Runs.Reaches (step {}) (fun _ l => Carries 1 "" l) emptyIntake x ∧
      ¬ x.Idempotent {} 1 "" :=
  not_idempotent "" (resubmitted "" 4) (by decide) (by decide)

end Intake

end BulkActions
