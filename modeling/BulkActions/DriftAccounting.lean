import BulkActions.BatchRows
import BulkActions.EntityAction
import BulkActions.AuditTrail
import BulkActions.OneShot

namespace BulkActions

open Keyset

/-- The rows of the target set in the range of a batch, when it executes. -/
def EntityAction.inRange (a : EntityAction) (batch : BulkActionBatch) (t : EntityTable) : Nat :=
  t.rows.countP (fun r => a.clause.holds a.sql r && FilterAction.inRange batch r.id)

theorem length_loadRows {a : EntityAction} {batch : BulkActionBatch}
    (range : batch.entityIds = none)
    (t : EntityTable) : (a.loadRows batch t).length = a.inRange batch t := by
  rw [EntityAction.loadRows, EntityTable.loadBatchRows, List.length_map, EntityTable.select,
    ← List.countP_eq_length_filter]
  refine List.countP_congr (fun r _ => ?_)
  simp only [EntityTable.batchWhere, range, FilterAction.inRange]

/-- The entity count that a delivery has in scope. -/
def BatchPc.charged : BatchPc → Option Nat
  | .loadAccount n => some n
  | .rateLimit _ n => some n
  | .recordAttempt n => some n
  | .attemptCommit n => some n
  | .markBatch n _ => some n
  | .markOutcomes n _ => some n
  | .markRecord n _ => some n
  | .markCommit n _ => some n
  | pc => pc.tryCount

/-- A finished row accounts for the entities it was planned with. -/
def BulkActionBatch.Exact (b : BulkActionBatch) : Prop :=
  (b.status = .completed → b.successCount + b.failureCount + b.skippedCount = b.entityCount) ∧
    (b.status = .failed → b.failureCount = b.entityCount)

/-- What a delivery has in scope is the entity count of its row, and its result has as many
outcomes. -/
structure BatchPc.Exact (c : Tables) (i : Nat) (pc : BatchPc) : Prop where
  count : ∀ n, pc.charged = some n → ∃ b, c.batches i = some b ∧ b.entityCount = n
  reloaded : ∀ n a b, pc = .runBatch n a b → b.entityCount = n
  result : ∀ n r, pc.charged = some n → pc.result = some r → r.processedCount = n

/-- The rows that a planning pass has yet to commit are pending. -/
def PlanPc.Fresh : PlanPc → Prop
  | .nextBatch loop => ∀ row ∈ loop.pending, row.status = .pending
  | .insertRows loop _ => ∀ row ∈ loop.pending, row.status = .pending
  | .rowsCommit loop _ => ∀ row ∈ loop.pending, row.status = .pending
  | .enqueueJobs loop _ _ => ∀ row ∈ loop.pending, row.status = .pending
  | _ => True

def Proc.Exact (c : Tables) : Proc → Prop
  | .batch job pc => pc.Exact c job.index
  | .plan pc => pc.Fresh
  | _ => True

/-- When a batch executes, the rows it loads are no more than it was planned with. -/
def withinPlan (s : Sys) (l : Label) : Bool :=
  match l, s.procs l.pid with
  | .run _ ext, .batch _ (.runBatch _ _ b) => ext.rows.length ≤ b.entityCount
  | _, _ => true

structure DriftSafe (env : Env) (s : Sys) : Prop where
  consistent : Consistent env s
  procs : ∀ p, (s.procs p).Exact s.world.committed
  rows : ∀ i b, s.world.committed.batches i = some b → b.Exact

theorem exact_of_uncharged {c : Tables} {i : Nat} {pc : BatchPc} (h : pc.charged = none)
    (hrun : ∀ n a b, pc ≠ .runBatch n a b) : pc.Exact c i where
  count := fun n hn => by simp [h] at hn
  reloaded := fun n a b he => absurd he (hrun n a b)
  result := fun n r hn => by simp [h] at hn

/-- A point that has the count of another in scope, and no result. -/
theorem exact_of_charged {c : Tables} {i : Nat} {pc next : BatchPc} (h : pc.Exact c i)
    (hcount : next.charged = pc.charged) (hresult : next.result = none)
    (hrun : ∀ n a b, next ≠ .runBatch n a b) : next.Exact c i where
  count := fun n hn => h.count n (hcount ▸ hn)
  reloaded := fun n a b he => absurd he (hrun n a b)
  result := fun n r _ hr => by simp [hresult] at hr

theorem exact_of_result {c : Tables} {i : Nat} {pc next : BatchPc} (h : pc.Exact c i)
    (hcount : next.charged = pc.charged) (hresult : next.result = pc.result)
    (hrun : ∀ n a b, next ≠ .runBatch n a b) : next.Exact c i where
  count := fun n hn => h.count n (hcount ▸ hn)
  reloaded := fun n a b he => absurd he (hrun n a b)
  result := fun n r hn hr => h.result n r (hcount ▸ hn) (hresult ▸ hr)

theorem batchMove_exact {text : PyText} {job : BatchJob} {ext : External} {c : Tables}
    {ws : List Write} {pc next : BatchPc} (hm : BatchMove text job ext c ws pc next)
    (h : pc.Exact c job.index)
    (within : ∀ n a b, pc = .runBatch n a b → ext.rows.length ≤ b.entityCount) :
    next.Exact c job.index := by
  cases hm with
  | @loadedBatch a b hb _ _ =>
    refine ⟨?_, by simp, by simp [BatchPc.result]⟩
    intro n hn
    exact ⟨b, hb, Option.some.inj hn⟩
  | @reloadedBatch n a b hb _ =>
    refine ⟨h.count, ?_, by simp [BatchPc.result]⟩
    intro n' a' b' he
    cases he
    obtain ⟨b₀, hb₀, hn⟩ := h.count n rfl
    cases Option.some.inj (hb.symm.trans hb₀)
    exact hn
  | @runBatch n a b =>
    refine ⟨h.count, by simp, ?_⟩
    intro n' r hn hr
    cases Option.some.inj hn
    cases Option.some.inj hr
    have hlen := within n a b rfl
    have hb := h.reloaded n a b rfl
    rw [BatchResult.processedCount, length_runBatch]
    omega
  | @writeOutcomes n r => exact exact_of_result h rfl rfl (by simp)
  | @updateBatch n r => exact exact_of_result h rfl rfl (by simp)
  | @recordCompletion n r => exact exact_of_result h rfl rfl (by simp)
  | @notFinalizable after _ =>
    cases after with
    | batchDone n r => exact exact_of_charged h rfl rfl (by simp [BatchPc.afterFinalize])
    | batchFailed error => exact exact_of_uncharged rfl (by simp [BatchPc.afterFinalize])
  | @finalizable after a _ _ =>
    cases after with
    | batchDone n r => exact exact_of_charged h rfl rfl (by simp)
    | batchFailed error => exact exact_of_uncharged rfl (by simp)
  | @finalizeUpdate after st _ =>
    cases after with
    | batchDone n r => exact exact_of_charged h rfl rfl (by simp [BatchPc.afterFinalize])
    | batchFailed error => exact exact_of_uncharged rfl (by simp [BatchPc.afterFinalize])
  | _ => first
    | exact exact_of_uncharged rfl (by simp)
    | exact exact_of_charged h rfl rfl (by simp)

theorem handler_exact {env : Env} {error : String} {job : BatchJob} {pc : BatchPc} {c : Tables}
    (h : pc.Exact c job.index) : ((Proc.batch job pc).handler env error).Exact c := by
  rcases handler_batch env error job pc with ⟨hl, _⟩ | ⟨n, hn, _, hm⟩
  · rw [hl]
    trivial
  · rw [hm]
    refine ⟨?_, by simp, by simp [BatchPc.result]⟩
    intro n' hn'
    cases Option.some.inj hn'
    apply h.count n
    cases pc <;> first | exact hn | simp [BatchPc.tryCount] at hn

theorem planMove_fresh {pc next : PlanPc} {ext : External} {reply : Reply} (h : pc.Fresh)
    (hn : pc.resume ext reply = .ok next) : next.Fresh := by
  cases pc with
  | loadAction =>
    simp only [PlanPc.resume] at hn
    split at hn <;> cases Except.ok.inj hn
    · trivial
    · split_ifs <;> trivial
  | planningCommit a =>
    cases Except.ok.inj hn
    simp [PlanPc.Fresh, PlanLoop.start]
  | nextBatch loop =>
    cases Except.ok.inj hn
    unfold PlanPc.afterPage
    split
    · split
      · trivial
      · exact h
    · rename_i planned source _
      have happ : ∀ row ∈ (loop.append planned source).pending, row.status = .pending := by
        intro row hrow
        rcases List.mem_append.mp hrow with hrow | hrow
        · exact h row hrow
        · rw [List.mem_singleton.mp hrow]
          rfl
      dsimp only
      split_ifs
      · exact happ
      · exact happ
  | rowsCommit loop last =>
    cases Except.ok.inj hn
    simp [PlanPc.Fresh]
  | enqueueJobs loop rows last =>
    cases rows with
    | nil =>
      cases Except.ok.inj hn
      unfold PlanPc.afterFlush
      split_ifs
      · trivial
      · exact h
    | cons row rows => cases Except.ok.inj hn; exact h
  | failCommit error => simp [PlanPc.resume] at hn
  | _ => cases Except.ok.inj hn; exact h

theorem exact_mono {c c' : Tables} {proc : Proc} (h : proc.Exact c)
    (hrows : ∀ i b, c.batches i = some b → ∃ b', c'.batches i = some b' ∧
      b'.entityCount = b.entityCount) : proc.Exact c' := by
  cases proc with
  | batch job pc =>
    refine ⟨?_, h.reloaded, h.result⟩
    intro n hn
    obtain ⟨b, hb, hcount⟩ := h.count n hn
    obtain ⟨b', hb', heq⟩ := hrows job.index b hb
    exact ⟨b', hb', heq.trans hcount⟩
  | _ => exact h

/-- A commit of an exact delivery or pass leaves exact rows. -/
theorem effect_exact {settings : Settings} {c c' : Tables} {proc : Proc}
    (h : Effect settings c proc c') (hp : proc.Exact c)
    (hrows : ∀ i b, c.batches i = some b → b.Exact) : ∀ i b, c'.batches i = some b → b.Exact := by
  intro i b' hb'
  rcases effect_row h i with hsame | ⟨loop, last, row, rfl, hrow, _, _, hnew⟩ |
    ⟨job, pc, u, now, rfl, rfl, hu, hnew⟩
  · exact hrows i b' (hsame ▸ hb')
  · cases Option.some.inj (hb'.symm.trans hnew)
    have hpending : b'.status = .pending := hp b' hrow
    exact ⟨by simp [hpending], by simp [hpending]⟩
  · rw [hnew] at hb'
    obtain ⟨b, hb, rfl⟩ := Option.map_eq_some_iff.mp hb'
    cases pc with
    | cancelCommit =>
      cases Option.some.inj hu
      exact ⟨by simp [BatchUpdate.set], by simp [BatchUpdate.set]⟩
    | attemptCommit n =>
      cases Option.some.inj hu
      exact ⟨by simp [BatchUpdate.set], by simp [BatchUpdate.set]⟩
    | workCommit n r =>
      cases Option.some.inj hu
      obtain ⟨b₀, hb₀, hcount⟩ := hp.count n rfl
      cases Option.some.inj (hb.symm.trans hb₀)
      have hr := hp.result n r rfl rfl
      have hsum := r.processedCount_eq
      refine ⟨fun _ => ?_, by simp [BatchUpdate.set, BatchResult.completeUpdate]⟩
      simp only [BatchResult.completeUpdate, BatchUpdate.set]
      omega
    | markCommit n error =>
      cases Option.some.inj hu
      obtain ⟨b₀, hb₀, hcount⟩ := hp.count n rfl
      cases Option.some.inj (hb.symm.trans hb₀)
      exact ⟨by simp [BatchUpdate.set], fun _ => hcount.symm⟩
    | _ => cases hu

theorem withinPlan_run {s : Sys} {p : Pid} {ext : External} {job : BatchJob} {n : Nat}
    {a : BulkAction} {b : BulkActionBatch} (h : withinPlan s (.run p ext))
    (hp : s.procs p = .batch job (.runBatch n a b)) : ext.rows.length ≤ b.entityCount := by
  simpa [withinPlan, Label.pid, hp] using h

theorem driftSafe_set {env : Env} {s : Sys} {p : Pid} {w : World} {proc : Proc}
    (hs : DriftSafe env s) (hc : Consistent env (s.set w p proc))
    (hpub : w.committed = s.world.committed ∨
      Effect env.settings s.world.committed (s.procs p) w.committed)
    (hp : proc.Exact s.world.committed) : DriftSafe env (s.set w p proc) := by
  rcases hpub with hw | heff
  · refine ⟨hc, ?_, hw ▸ hs.rows⟩
    rw [set_world, hw]
    exact forall_procs_set hp (fun q _ => hs.procs q)
  · have mono : ∀ proc : Proc, proc.Exact s.world.committed → proc.Exact w.committed :=
      fun proc h => exact_mono h (fun i b hb => effect_entityCount heff hb)
    exact ⟨hc, forall_procs_set (mono proc hp) (fun q _ => mono _ (hs.procs q)),
      effect_exact heff (hs.procs p) hs.rows⟩

theorem job_exact (job : Job) (c : Tables) : job.proc.Exact c := by
  cases job with
  | plan => trivial
  | batch job => exact exact_of_uncharged rfl (by simp)

theorem publishes_effect {env : Env} {c c' : Tables} {proc : Proc} (h : Publishes env c proc c') :
    c' = c ∨ Effect env.settings c proc c' := by
  rcases h with ⟨hc, _⟩ | ⟨_, heff⟩
  · exact Or.inl hc
  · exact Or.inr heff

theorem driftSafe_step {env : Env} {s s' : Sys} {l : Label} (hs : DriftSafe env s)
    (ok : withinPlan s l) (h : s.step env l = some s') : DriftSafe env s' := by
  have hc := consistent_step hs.consistent h
  cases step_moves hs.consistent h with
  | deliver _ _ => exact driftSafe_set hs hc (Or.inl rfl) (job_exact _ _)
  | duplicate _ => exact driftSafe_set hs hc (Or.inl rfl) (job_exact _ _)
  | redeliver _ => exact driftSafe_set hs hc (Or.inl rfl) (job_exact _ _)
  | cancel _ => exact driftSafe_set hs hc (Or.inl rfl) trivial
  | @batch p ext job pc next w reply hp _ hm hpub =>
    have hexact := hs.procs p
    rw [hp] at hexact
    refine driftSafe_set hs hc (hp ▸ publishes_effect hpub) (batchMove_exact hm hexact ?_)
    rintro n a b rfl
    exact withinPlan_run ok hp
  | refused _ => exact driftSafe_set hs hc (Or.inl rfl) trivial
  | @plan p ext pc next w reply hp _ _ hn hpub =>
    have hfresh := hs.procs p
    rw [hp] at hfresh
    exact driftSafe_set hs hc (hp ▸ publishes_effect hpub) (planMove_fresh hfresh hn)
  | @planFailed p ext error w reply hp _ hpub =>
    exact driftSafe_set hs hc (hp ▸ publishes_effect hpub) trivial
  | @cancelling p ext pc w reply hp _ _ hpub =>
    exact driftSafe_set hs hc (hp ▸ publishes_effect hpub) trivial
  | @raise p error hr _ =>
    refine driftSafe_set hs hc (Or.inl rfl) ?_
    have hexact := hs.procs p
    cases hp : s.procs p with
    | batch job pc =>
      rw [hp] at hexact
      exact handler_exact hexact
    | plan pc => cases pc <;> trivial
    | _ => trivial
  | @swallow p job n r payload error hp =>
    have hexact := hs.procs p
    rw [hp] at hexact
    exact driftSafe_set hs hc (Or.inl rfl) (exact_of_charged hexact rfl rfl (by simp))
  | @crash p hr =>
    refine driftSafe_set hs hc (Or.inl rfl) ?_
    cases s.procs p <;> trivial

theorem driftSafe_submitted {env : Env} {s : Sys} {a : BulkAction} (h : Submitted s a) :
    DriftSafe env s where
  consistent := consistent_atRest h.toAtRest
  procs := fun p => by simp [h.idle p, Proc.Exact]
  rows := fun i b hb => by simp [h.batches i] at hb

/-- What a finished row has added to `processed_count`, when it was counted once. -/
def recordedValue : Option BulkActionBatch → Nat
  | none => 0
  | some b =>
    match b.status with
    | .completed => b.successCount + b.failureCount + b.skippedCount
    | .failed => b.failureCount
    | _ => 0

def plannedValue : Option BulkActionBatch → Nat
  | none => 0
  | some b => b.entityCount

theorem recordedValue_le {o : Option BulkActionBatch} (h : ∀ b, o = some b → b.Exact) :
    recordedValue o ≤ plannedValue o := by
  cases o with
  | none => exact le_refl _
  | some b =>
    obtain ⟨hcompleted, hfailed⟩ := h b rfl
    simp only [recordedValue, plannedValue]
    split
    next hst => exact le_of_eq (hcompleted hst)
    next hst => exact le_of_eq (hfailed hst)
    next => exact Nat.zero_le _

/-- A batch records what it was planned with, and executes no more, exactly when its range
holds no more matching rows than that; and while all batches are so, an action that has
counted each batch once has not processed more than its total, and no batch executes more
rows than it was charged for. -/
theorem drift_accounting_iff (action : EntityAction) (seq : Nat) (batch : BulkActionBatch)
    (ledger : String → Bool) (now : Timestamp) (t : EntityTable) (range : batch.entityIds = none) :
    (((action.runBatch seq batch ledger now t).result.outcomes.length = batch.entityCount ∧
      (action.executed batch ledger t).length ≤ batch.entityCount) ↔
      action.inRange batch t ≤ batch.entityCount) ∧
    ∀ (env : Env) (s₀ s : Sys) (a₀ a : BulkAction) (n : Nat), Submitted s₀ a₀ →
      Sys.Reaches env (fun s l => withinPlan s l) s₀ s → s.world.committed.action = some a →
      (a.processedCount = rowSum n recordedValue s.world.committed.batches →
        a.totalEntities = rowSum n plannedValue s.world.committed.batches →
        a.processedCount ≤ a.totalEntities) ∧
      ∀ p ext job k act b, withinPlan s (.run p ext) → s.procs p = .batch job (.runBatch k act b) →
        (executedRows env.text act.configuration ext.rows ext.claimed).length ≤ k := by
  constructor
  · have hloaded : (action.loadRows batch t).length = action.inRange batch t :=
      length_loadRows range t
    have hrun : (action.runBatch seq batch ledger now t).result.outcomes.length =
        max batch.entityCount (action.loadRows batch t).length := length_runBatch ..
    have hsplit := length_executedRows action.text action.config (action.claimed batch ledger t)
      (action.loadRows batch t)
    rw [hrun, EntityAction.executed]
    omega
  · intro env s₀ s a₀ a n new h ha
    have safe : DriftSafe env s := h.invariant driftSafe_step (driftSafe_submitted new)
    constructor
    · intro hcount htotal
      rw [hcount, htotal]
      exact Finset.sum_le_sum (fun i _ => recordedValue_le (safe.rows i))
    · intro p ext job k act b hok hp
      have hexact := safe.procs p
      rw [hp] at hexact
      have hlen := withinPlan_run hok hp
      have hb := hexact.reloaded k act b rfl
      have hsplit := length_executedRows env.text act.configuration ext.claimed ext.rows
      omega

/-- An action of the planner's walk, as `run_batch` sees it. -/
def FilterAction.entityAction (a : FilterAction)
    (keys : "id" ∉ a.config.updatedFields ∧ "account_id" ∉ a.config.updatedFields) :
    EntityAction where
  sql := a.sql
  text := a.text
  entity := a.entity
  accountId := a.accountId
  config := a.config
  clause := a.clause
  compiled := a.compiled
  accepted := a.accepted
  keys := keys

def deactivateActive : EntityAction := deactivateOneByOne.entityAction (by decide)

/-- Contacts 5 and 7, before contact 6 is inserted and after it. -/
def twoContacts : EntityTable where
  rows := [contactRecord 5 "active", contactRecord 7 "active"]
  sorted := by simp [Increasing, contactRecord]

def withContact6 : EntityTable where
  rows := [contactRecord 5 "active", contactRecord 6 "active", contactRecord 7 "active"]
  sorted := by simp [Increasing, contactRecord]

/-- Contact 7 has left the target set and contact 6 is in it, and a run that finds its one
contact missing has processed one entity out of one. -/
theorem drift_accounting_removal :
    (deactivateActive.runBatch 1 (plannedRow (plannedPage 0 [5, 7])) (fun _ => false) 3
      threeContacts).result.outcomes.length = 2 ∧
    ∃ s a, Sys.Reaches defaultEnv (fun s l => withinPlan s l) submittedContacts s ∧
      s.world.committed.action = some a ∧ a.processedCount = 1 ∧
        a.processedCount ≤ a.totalEntities := by
  constructor
  · exact ((drift_accounting_iff deactivateActive 1 (plannedRow (plannedPage 0 [5, 7]))
      (fun _ => false) 3 threeContacts rfl).1.mpr (by decide)).1
  · obtain ⟨s, hs, hv⟩ : ∃ s, Runs.checkedSteps (Sys.step defaultEnv) withinPlan submittedContacts
        oneMissingContact = some s ∧
        (s.world.committed.action.map (fun a => (a.processedCount, a.totalEntities)),
          rowSum 1 recordedValue s.world.committed.batches,
          rowSum 1 plannedValue s.world.committed.batches) = (some (1, 1), 1, 1) := by
      have hd : (Runs.checkedSteps (Sys.step defaultEnv) withinPlan submittedContacts
          oneMissingContact).map (fun s =>
            (s.world.committed.action.map (fun a => (a.processedCount, a.totalEntities)),
              rowSum 1 recordedValue s.world.committed.batches,
              rowSum 1 plannedValue s.world.committed.batches)) = some (some (1, 1), 1, 1) := by
        decide
      exact Option.map_eq_some_iff.mp hd
    have hr : Sys.Reaches defaultEnv (fun s l => withinPlan s l) submittedContacts s :=
      Runs.reaches_checked (fun h => h) hs
    simp only [Prod.mk.injEq] at hv
    obtain ⟨hv, hrecorded, hplanned⟩ := hv
    obtain ⟨a, ha, hcounts⟩ := Option.map_eq_some_iff.mp hv
    simp only [Prod.mk.injEq] at hcounts
    refine ⟨s, a, hr, ha, hcounts.1, ?_⟩
    exact ((drift_accounting_iff deactivateActive 1 (plannedRow (plannedPage 0 [5, 7]))
      (fun _ => false) 3 threeContacts rfl).2 defaultEnv submittedContacts s _ a 1
      submittedContacts_submitted hr ha).1 (hcounts.1.trans hrecorded.symm)
      (hcounts.2.trans hplanned.symm)

/-- A contact inserted between the ends of a page is a third outcome of a batch of two. -/
theorem drift_accounting_insertion :
    ¬ ∀ (a : EntityAction) (batchSize seq : Nat) (planned : PlannedBatch) (next : PlanSource)
      (ledger : String → Bool) (now : Timestamp) (t₀ t : EntityTable),
      (PlanSource.start a.config batchSize).next batchSize
        (t₀.selectPage a.sql a.clause batchSize none) = some (planned, next) →
      planned.entityIds = none →
      (a.runBatch seq (plannedRow planned) ledger now t).result.outcomes.length =
        (plannedRow planned).entityCount := by
  intro always
  have h := always deactivateActive 2 1 (plannedPage 0 [5, 7]) (.filter (some 7) 1)
    (fun _ => false) 3 twoContacts withContact6 rfl rfl
  revert h
  decide

end BulkActions
