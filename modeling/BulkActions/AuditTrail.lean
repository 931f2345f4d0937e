import BulkActions.Moves
import BulkActions.Stats

namespace BulkActions

/-- The number of log rows with a status. -/
def logged (logs : List BulkActionLog) (status : EntityLogStatus) : Nat :=
  logs.countP (fun l => l.status = status)

/-- The counters of an action agree with its log rows. -/
structure BulkAction.Agrees (a : BulkAction) (logs : List BulkActionLog) : Prop where
  success : a.successCount = logged logs .success
  failure : a.failureCount = logged logs .failed
  skipped : a.skippedCount = logged logs .skipped
  processed : a.processedCount = a.successCount + a.failureCount + a.skippedCount

structure Tables.Audited (c : Tables) : Prop where
  reasons : ∀ l ∈ c.logs, l.Reasoned
  counters : ∀ a, c.action = some a → a.Agrees c.logs

/-- Every outcome says why. -/
def BatchResult.Reasoned (r : BatchResult) : Prop := ∀ o ∈ r.outcomes, o.reasonCode.isSome

theorem execute_reasoned (config : Config) (rows : List EntityRow) (affected : List Uuid) :
    (config.execute rows affected).Reasoned := by
  intro o ho
  cases config with
  | update config =>
    simp only [Config.execute, BulkUpdateAction.execute, List.mem_append, List.mem_map] at ho
    rcases ho with ⟨row, _, rfl⟩ | ⟨id, _, rfl⟩
    · rfl
    · unfold BulkUpdateAction.written
      split <;> rfl
  | delete config =>
    simp only [Config.execute, BulkDeleteAction.execute, List.mem_map] at ho
    obtain ⟨id, _, rfl⟩ := ho
    unfold BulkDeleteAction.removed
    split <;> rfl

theorem runBatch_reasoned (text : PyText) (config : Config) (entityCount : Nat)
    (rows : List EntityRow) (claimed : List String) (affected : List Uuid) :
    (runBatch text config entityCount rows claimed affected).Reasoned := by
  intro o ho
  simp only [runBatch, List.mem_append] at ho
  rcases ho with (ho | ho) | ho
  · rw [List.eq_of_mem_replicate ho]
    rfl
  · unfold duplicateOutcomes at ho
    split at ho
    next =>
      obtain ⟨d, _, rfl⟩ := List.mem_map.mp ho
      rfl
    next => simp at ho
  · exact execute_reasoned _ _ _ o ho

/-- The result a delivery carries from `run_batch` to the commit of its work. -/
def BatchPc.result : BatchPc → Option BatchResult
  | .writeOutcomes _ r => some r
  | .updateBatch _ r => some r
  | .recordCompletion _ r => some r
  | .workCommit _ r => some r
  | _ => none

def Proc.result : Proc → Option BatchResult
  | .batch _ pc => pc.result
  | _ => none

theorem Job.proc_result (job : Job) : job.proc.result = none := by
  cases job <;> rfl

theorem handler_result (env : Env) (error : String) (proc : Proc) :
    (proc.handler env error).result = none := by
  cases proc with
  | plan pc => cases pc <;> rfl
  | batch job pc =>
    rcases handler_batch env error job pc with ⟨hl, _⟩ | ⟨n, _, _, hm⟩
    · rw [hl]
      rfl
    · rw [hm]
      rfl
  | _ => rfl

theorem killed_result (proc : Proc) : proc.killed.result = none := by
  cases proc <;> rfl

theorem batchMove_result {text : PyText} {job : BatchJob} {ext : External} {c : Tables}
    {ws : List Write} {pc next : BatchPc} (h : BatchMove text job ext c ws pc next)
    {r : BatchResult} (hr : next.result = some r) : pc.result = some r ∨ r.Reasoned := by
  cases h with
  | runBatch =>
    cases hr
    exact Or.inr (runBatch_reasoned _ _ _ _ _ _)
  | @notFinalizable after _ => cases after <;> simp [BatchPc.result, BatchPc.afterFinalize] at hr
  | @finalizeUpdate after _ _ => cases after <;> simp [BatchPc.result, BatchPc.afterFinalize] at hr
  | _ => first | exact Or.inl hr | simp [BatchPc.result] at hr

def ReasonedResults (s : Sys) : Prop := ∀ p r, (s.procs p).result = some r → r.Reasoned

theorem reasonedResults_set {s : Sys} {w : World} {p : Pid} {proc : Proc} (hs : ReasonedResults s)
    (hp : ∀ r, proc.result = some r → r.Reasoned) : ReasonedResults (s.set w p proc) := by
  intro q r hr
  by_cases hq : q = p
  · subst hq
    exact hp r (by simpa using hr)
  · exact hs q r (by rwa [set_procs_ne _ _ _ hq] at hr)

theorem reasonedResults_step {env : Env} {s s' : Sys} {l : Label} (hc : Consistent env s)
    (hs : ReasonedResults s) (h : s.step env l = some s') : ReasonedResults s' := by
  have silent : ∀ {w p proc}, Proc.result proc = none → ReasonedResults (s.set w p proc) :=
    fun hn => reasonedResults_set hs (fun r hr => by simp [hn] at hr)
  cases step_happens h with
  | deliver _ _ => exact silent (Job.proc_result _)
  | duplicate _ => exact silent (Job.proc_result _)
  | redeliver _ => exact silent (Job.proc_result _)
  | cancel _ => exact silent rfl
  | @run p ext w reply next hrun he hn =>
    have hw := hc.wrote p
    have hres := hs p
    cases hp : s.procs p with
    | batch job pc =>
      rw [hp] at hw hrun he hn hres
      obtain ⟨pc', hpc, rfl⟩ := batch_resume_ok hn
      apply reasonedResults_set hs
      intro r hr
      rcases batchMove_result (batch_moves hw hrun he hpc) hr with hp | hr
      · exact hres r hp
      · exact hr
    | plan pc =>
      rw [hp] at hn
      obtain ⟨pc', _, rfl⟩ := plan_resume_ok hn
      exact silent rfl
    | _ =>
      rw [hp] at hn
      cases Except.ok.inj hn
      exact silent rfl
  | fail _ _ _ => exact silent (handler_result _ _ _)
  | raise _ _ => exact silent (handler_result _ _ _)
  | swallow _ => exact silent rfl
  | crash _ => exact silent (killed_result _)

theorem mem_logRows {seq i : Nat} {outcomes : List EntityOutcome} {l : BulkActionLog}
    (h : l ∈ World.logRows seq i outcomes) : ∃ o ∈ outcomes, ∃ id, l = outcomeLog i id o := by
  obtain ⟨k, hk, rfl⟩ := List.mem_mapIdx.mp h
  exact ⟨_, List.getElem_mem hk, _, rfl⟩

theorem outcomeLog_reasoned {o : EntityOutcome} (h : o.reasonCode.isSome) (i id : Nat) :
    (outcomeLog i id o).Reasoned := by
  obtain ⟨reason, hr⟩ := Option.isSome_iff_exists.mp h
  exact ⟨reason, by simp [outcomeLog, hr]⟩

theorem logged_logRows (seq i : Nat) (outcomes : List EntityOutcome) (status : EntityLogStatus) :
    logged (World.logRows seq i outcomes) status = BatchResult.count ⟨outcomes⟩ status := by
  induction outcomes generalizing seq with
  | nil => rfl
  | cons o os ih =>
    have := ih (seq + 1)
    simp_all [logged, World.logRows, BatchResult.count, List.mapIdx_cons, List.countP_cons,
      outcomeLog, Nat.add_assoc, Nat.add_comm 1]

theorem logged_append (ls ms : List BulkActionLog) (status : EntityLogStatus) :
    logged (ls ++ ms) status = logged ls status + logged ms status :=
  List.countP_append

/-- The UPDATEs that leave the counters alone. -/
def ActionUpdate.silent : ActionUpdate → Bool
  | .recordBatchCompletion .. => false
  | _ => true

theorem agrees_set {a : BulkAction} {logs : List BulkActionLog} {u : ActionUpdate}
    (h : a.Agrees logs) (hu : u.silent) (now : Timestamp) : (u.set now a).Agrees logs := by
  obtain ⟨h1, h2, h3, h4⟩ := h
  cases u <;> first | exact ⟨h1, h2, h3, h4⟩ | simp [ActionUpdate.silent] at hu

theorem agrees_record {a : BulkAction} {logs : List BulkActionLog} (h : a.Agrees logs)
    (r : BatchResult) (seq i : Nat) (now : Timestamp) :
    (r.recordUpdate.set now a).Agrees (logs ++ World.logRows seq i r.outcomes) where
  success := by
    rw [logged_append, logged_logRows, ← h.success]
    rfl
  failure := by
    rw [logged_append, logged_logRows, ← h.failure]
    rfl
  skipped := by
    rw [logged_append, logged_logRows, ← h.skipped]
    rfl
  processed := by
    have hp := h.processed
    have hr := r.processedCount_eq
    simp only [BatchResult.recordUpdate, ActionUpdate.set]
    omega

theorem audited_updateAction {c : Tables} (hc : c.Audited) {u : ActionUpdate} (hu : u.silent)
    (now : Timestamp) : (c.updateAction u now).Audited where
  reasons := hc.reasons
  counters := by
    intro a' ha'
    obtain ⟨a, ha, rfl⟩ := Option.map_eq_some_iff.mp ha'
    exact agrees_set (hc.counters a ha) hu now

theorem audited_updateBatch {c : Tables} (hc : c.Audited) (i : Nat) (u : BatchUpdate)
    (now : Timestamp) : (c.updateBatch i u now).Audited :=
  ⟨hc.reasons, hc.counters⟩

theorem audited_record {c : Tables} (hc : c.Audited) {r : BatchResult} (hr : r.Reasoned)
    (seq i : Nat) (now : Timestamp) :
    ((c.addLogs (World.logRows seq i r.outcomes)).updateAction r.recordUpdate now).Audited where
  reasons := by
    intro l hl
    rcases List.mem_append.mp hl with hl | hl
    · exact hc.reasons l hl
    · obtain ⟨o, ho, id, rfl⟩ := mem_logRows hl
      exact outcomeLog_reasoned (hr o ho) i id
  counters := by
    intro a' ha'
    obtain ⟨a, ha, rfl⟩ := Option.map_eq_some_iff.mp ha'
    exact agrees_record (hc.counters a ha) r seq i now

theorem failedResult_reasoned (settings : Settings) (n : Nat) (error : String) :
    (failedResult settings n error).Reasoned := by
  intro o ho
  rw [List.eq_of_mem_replicate ho]
  rfl

theorem audited_effect {settings : Settings} {c c' : Tables} {proc : Proc} (hc : c.Audited)
    (hr : ∀ r, proc.result = some r → r.Reasoned) (h : Effect settings c proc c') :
    c'.Audited := by
  cases h with
  | planning => exact audited_updateAction hc rfl _
  | rows _ _ => exact ⟨by simpa using hc.reasons, by simpa using hc.counters⟩
  | totals => exact audited_updateAction hc rfl _
  | @started e b now now' u hu _ =>
    have hs : u.silent := by rw [hu]; split <;> rfl
    exact audited_updateAction (audited_updateAction hc rfl now) hs now'
  | planFailed hu _ => exact audited_updateAction hc (by rw [hu]; rfl) _
  | planFailedLate => exact hc
  | batchCancelled => exact audited_updateBatch hc _ _ _
  | attempt _ => exact audited_updateBatch hc _ _ _
  | attemptLate => exact hc
  | @work job n seq r now now' =>
    exact audited_updateBatch (audited_record hc (hr r rfl) seq job.index now') job.index
      r.completeUpdate now
  | finalized _ => exact audited_updateAction hc rfl _
  | notFinalized => exact hc
  | @batchFailed job n seq error now now' =>
    have hf := audited_record hc (failedResult_reasoned settings n error) seq job.index now'
    exact audited_updateBatch hf job.index (.fail n error) now
  | cancelled _ => exact audited_updateAction hc rfl _

/-- The invariant behind the audit trail. -/
structure AuditSafe (env : Env) (s : Sys) : Prop where
  consistent : Consistent env s
  present : s.world.committed.action.isSome
  results : ReasonedResults s
  audited : s.world.committed.Audited

theorem auditSafe_step {env : Env} {ok : Sys → Label → Prop} {s s' : Sys} {l : Label}
    (hs : AuditSafe env s) (_ : ok s l) (h : s.step env l = some s') : AuditSafe env s' where
  consistent := consistent_step hs.consistent h
  present := step_action_isSome hs.consistent h ▸ hs.present
  results := reasonedResults_step hs.consistent hs.results h
  audited := by
    rcases step_effect hs.consistent h with hc | ⟨p, ext, _, _, heff⟩
    · exact hc ▸ hs.audited
    · exact audited_effect hs.audited (hs.results p) heff

/-- The row `create_bulk_action` inserts: nothing planned, counted or logged yet. -/
structure Submitted (s : Sys) (a : BulkAction) : Prop extends s.AtRest where
  action : s.world.committed.action = some a
  status : a.status = .queued ∨ a.status = .scheduled
  totals : a.totalEntities = 0 ∧ a.totalBatches = 0 ∧ a.completedBatches = 0
  counters : a.processedCount = 0 ∧ a.successCount = 0 ∧ a.failureCount = 0 ∧ a.skippedCount = 0
  batches : ∀ i, s.world.committed.batches i = none
  logs : s.world.committed.logs = []

theorem auditSafe_submitted {env : Env} {s : Sys} {a : BulkAction} (h : Submitted s a) :
    AuditSafe env s where
  consistent := consistent_atRest h.toAtRest
  present := by simp [h.action]
  results := fun p r hr => by simp [h.idle p, Proc.result] at hr
  audited := by
    refine ⟨by simp [h.logs], ?_⟩
    intro a' ha'
    cases Option.some.inj (h.action.symm.trans ha')
    obtain ⟨h1, h2, h3, h4⟩ := h.counters
    exact ⟨by simp [h2, h.logs, logged], by simp [h3, h.logs, logged],
      by simp [h4, h.logs, logged], by omega⟩

/-- In every committed state of every run the counters equal the audit trail, and the
breakdowns of `get_stats` add up to them. -/
theorem counters_equal_audit_trail {env : Env} {s₀ s : Sys} {a₀ : BulkAction}
    (new : Submitted s₀ a₀) (h : Sys.Reaches env Runs.anyStep s₀ s) :
    ∃ a, s.world.committed.action = some a ∧
      a.successCount = logged s.world.committed.logs .success ∧
      a.failureCount = logged s.world.committed.logs .failed ∧
      a.skippedCount = logged s.world.committed.logs .skipped ∧
      a.processedCount = a.successCount + a.failureCount + a.skippedCount ∧
      ∀ now groups, groups.Perm (logGroups s.world.committed.logs) →
        total (getStats now a groups).failureBreakdown = a.failureCount ∧
        total (getStats now a groups).skipBreakdown = a.skippedCount := by
  have safe : AuditSafe env s := h.invariant auditSafe_step (auditSafe_submitted new)
  obtain ⟨a, ha⟩ := Option.isSome_iff_exists.mp safe.present
  have agrees := safe.audited.counters a ha
  refine ⟨a, ha, agrees.success, agrees.failure, agrees.skipped, agrees.processed, ?_⟩
  intro now groups hperm
  have hb := total_breakdowns safe.audited.reasons hperm
  exact ⟨hb.1.trans agrees.failure.symm, hb.2.trans agrees.skipped.symm⟩

/-- One contact planned, loaded and found missing by the UPDATE. -/
def oneMissingContact : List Label :=
  [.deliver 0 .plan] ++ List.replicate 3 (.run 0 {}) ++ [.run 0 { page := [5] }] ++
    List.replicate 8 (.run 0 {}) ++ [.deliver 1 (.batch ⟨0, 0, 1⟩)] ++
    List.replicate 8 (.run 1 {}) ++
    [.run 1 { rows := [⟨5, [("status", .str "active")]⟩] }] ++ List.replicate 4 (.run 1 {})

def submittedContacts : Sys := Tables.sys ⟨some (contactsAction .queued), fun _ => none, []⟩ [.plan]

theorem submittedContacts_submitted : Submitted submittedContacts (contactsAction .queued) where
  toAtRest := Tables.sys_atRest _ _
  action := rfl
  status := Or.inl rfl
  totals := ⟨rfl, rfl, rfl⟩
  counters := ⟨rfl, rfl, rfl, rfl⟩
  batches := fun _ => rfl
  logs := rfl

/-- The failed entity is counted, logged and broken down. -/
theorem counters_equal_audit_trail_missing :
    ∃ s a, Sys.Reaches defaultEnv Runs.anyStep submittedContacts s ∧
      s.world.committed.action = some a ∧ a.failureCount = 1 ∧
      logged s.world.committed.logs .failed = 1 ∧
      total (getStats 0 a (logGroups s.world.committed.logs)).failureBreakdown = 1 := by
  obtain ⟨s, hs, hfail⟩ : ∃ s,
      Runs.steps (Sys.step defaultEnv) submittedContacts oneMissingContact = some s ∧
      logged s.world.committed.logs .failed = 1 := by
    have hd : (Runs.steps (Sys.step defaultEnv) submittedContacts oneMissingContact).map
        (fun s => logged s.world.committed.logs .failed) = some 1 := by decide
    exact Option.map_eq_some_iff.mp hd
  obtain ⟨a, ha, _, hf, _, _, hb⟩ := counters_equal_audit_trail submittedContacts_submitted
    (Runs.reaches_of_steps hs)
  exact ⟨s, a, Runs.reaches_of_steps hs, ha, hf.trans hfail, hfail,
    (hb 0 _ (.refl _)).1.trans (hf.trans hfail)⟩

end BulkActions
