import BulkActions.StepCases

namespace BulkActions

open ReadCommitted

/-- The write set after `write_outcomes`. -/
def LogWrites (index : Nat) (outcomes : List EntityOutcome) (ws : List Write) : Prop :=
  (outcomes = [] ∧ ws = []) ∨ ∃ seq, ws = [.logs (World.logRows seq index outcomes)]

def BatchResult.completeUpdate (r : BatchResult) : BatchUpdate :=
  .complete r.successCount r.failureCount r.skippedCount

def BatchResult.recordUpdate (r : BatchResult) : ActionUpdate :=
  .recordBatchCompletion r.processedCount r.successCount r.failureCount r.skippedCount true

def FinalizeWrites (ws : List Write) : Prop :=
  ws = [] ∨ ∃ k now, ws = [.action (.finalize (finalStatus k)) now]

/-- What a batch delivery has written in its open transaction, from the point it stands at. -/
def BatchPc.Wrote (settings : Settings) (job : BatchJob) : BatchPc → List Write → Prop
  | .cancelCommit, ws => ∃ now, ws = [.batch job.index .cancel now]
  | .attemptCommit _, ws => ws = [] ∨ ∃ now, ws = [.batch job.index .recordAttempt now]
  | .updateBatch _ r, ws => LogWrites job.index r.outcomes ws
  | .recordCompletion _ r, ws =>
    ∃ ls now, LogWrites job.index r.outcomes ls ∧
      ws = ls ++ [.batch job.index r.completeUpdate now]
  | .workCommit _ r, ws =>
    ∃ ls now now', LogWrites job.index r.outcomes ls ∧
      ws = ls ++ [.batch job.index r.completeUpdate now, .action r.recordUpdate now']
  | .refresh _ _, ws => FinalizeWrites ws
  | .publish _ _ _, ws => FinalizeWrites ws
  | .finalizeCommit _, ws => FinalizeWrites ws
  | .markOutcomes n error, ws => ∃ now, ws = [.batch job.index (.fail n error) now]
  | .markRecord n error, ws =>
    ∃ ls now, LogWrites job.index (List.replicate n (batchErrorOutcome settings error)) ls ∧
      ws = .batch job.index (.fail n error) now :: ls
  | .markCommit n error, ws =>
    ∃ ls now now', LogWrites job.index (List.replicate n (batchErrorOutcome settings error)) ls ∧
      ws = .batch job.index (.fail n error) now :: ls ++
        [.action (.recordBatchCompletion n 0 n 0 true) now']
  | _, ws => ws = []

def PlanPc.Wrote : PlanPc → List Write → Prop
  | .planningCommit _, ws => ∃ now, ws = [.action .setPlanning now]
  | .rowsCommit loop _, ws => 
    ∃ rows : List BulkActionBatch, rows.Sublist loop.pending ∧ ws = rows.map .insertBatch
  | .closeOrStart e b, ws => ∃ now, ws = [.action (.setTotals e b) now]
  | .totalsCommit e b, ws =>
    ∃ now, ws = [.action (.setTotals e b) now] ∨
      ∃ now', ws = [.action (.setTotals e b) now,
        .action (if b = 0 then .closeEmpty else .markStarted) now']
  | .failCommit error, ws =>
    ws = [] ∨ ∃ now, ws = [.action (.failAction ("Planning failed: " ++ error)) now]
  | _, ws => ws = []

def CancelPc.Wrote : CancelPc → List Write → Prop
  | .commit, ws => ∃ now, ws = [.action .cancel now]
  | _, ws => ws = []

def Proc.Wrote (env : Env) : Proc → List Write → Prop
  | .batch job pc, ws => pc.Wrote env.settings job ws
  | .plan pc, ws => pc.Wrote ws
  | .cancel pc, ws => pc.Wrote ws
  | .idle, ws => ws = []
  | .lost _, ws => ws = []

/-- The rows a delivery has seen are there for good. -/
def BatchPc.Present (job : BatchJob) (c : Tables) : BatchPc → Prop
  | .loadAction => True
  | .done _ => True
  | .loadBatch _ => c.action.isSome
  | .finalizeUpdate _ status =>
    c.action.isSome ∧ (c.batches job.index).isSome ∧ ∃ k, status = finalStatus k
  | _ => c.action.isSome ∧ (c.batches job.index).isSome

def PlanPc.Present (c : Tables) : PlanPc → Prop
  | .loadAction => True
  | .done _ => True
  | _ => c.action.isSome

def CancelPc.Present (c : Tables) : CancelPc → Prop
  | .update => c.action.isSome
  | .commit => c.action.isSome
  | _ => True

def Proc.Present (c : Tables) : Proc → Prop
  | .batch job pc => pc.Present job c
  | .plan pc => pc.Present c
  | .cancel pc => pc.Present c
  | .idle => True
  | .lost _ => True

/-- The WHERE clause an uncommitted write was found to satisfy still holds of the
committed row. -/
def Write.Applies (c : Tables) : Write → Prop
  | .action u _ => ∀ a, c.action = some a → u.applies a
  | .batch i u _ => ∀ b, c.batches i = some b → u.applies b
  | .insertBatch row => c.batches row.batchIndex = none
  | .logs _ => True

/-- The invariant every result about interleavings starts from. -/
structure Consistent (env : Env) (s : Sys) : Prop where
  guarded : s.world.db.Guarded Write.row
  wrote : ∀ p, (s.procs p).Wrote env (s.world.db.writes p)
  present : ∀ p, (s.procs p).Present s.world.committed
  applied : ∀ p, ∀ v ∈ s.world.db.writes p, v.Applies s.world.committed

theorem consistent_atRest {env : Env} {s : Sys} (h : s.AtRest) : Consistent env s where
  guarded := fun p w r hw => by simp [h.closed p] at hw
  wrote := fun p => by simp [h.idle p, h.closed p, Proc.Wrote]
  present := fun p => by simp [h.idle p, Proc.Present]
  applied := fun p v hv => by simp [h.closed p] at hv

theorem Proc.Present.mono {c c' : Tables} {proc : Proc} (h : proc.Present c)
    (ha : c.action.isSome → c'.action.isSome)
    (hb : ∀ i, (c.batches i).isSome → (c'.batches i).isSome) : proc.Present c' := by
  cases proc with
  | batch job pc =>
    cases pc <;> simp only [Proc.Present, BatchPc.Present] at h ⊢ <;> grind
  | plan pc => cases pc <;> simp only [Proc.Present, PlanPc.Present] at h ⊢ <;> grind
  | cancel pc => cases pc <;> simp only [Proc.Present, CancelPc.Present] at h ⊢ <;> grind
  | idle => trivial
  | lost job => trivial

theorem exec_action_isSome {w w' : World} {p : Pid} {now : Timestamp} {st : Stmt} {reply : Reply}
    (h : w.exec p now st = some (w', reply)) :
    w'.committed.action.isSome = w.committed.action.isSome := by
  rcases exec_committed h with ⟨hc, _⟩ | ⟨_, hc⟩
  · rw [hc]
  · rw [hc, replay_action_isSome]

theorem exec_batch_isSome {w w' : World} {p : Pid} {now : Timestamp} {st : Stmt} {reply : Reply}
    (h : w.exec p now st = some (w', reply)) {i : Nat} (hi : (w.committed.batches i).isSome) :
    (w'.committed.batches i).isSome := by
  rcases exec_committed h with ⟨hc, _⟩ | ⟨_, hc⟩
  · rwa [hc]
  · rw [hc]
    exact replay_batch_isSome _ hi

/-- A write on a row that another transaction holds cannot be committed meanwhile, so the
WHERE clause of the holder's write survives the commit. -/
theorem applies_commit {w : World} {p q : Pid} {v : Write} (hg : w.db.Guarded Write.row)
    (hv : v ∈ w.db.writes q) (ha : v.Applies w.committed) (hne : p ≠ q) :
    v.Applies (replay Write.apply (w.db.writes p) w.committed) := by
  have batch : ∀ {i}, v.row = some (.batch i) →
      (replay Write.apply (w.db.writes p) w.committed).batches i = w.committed.batches i :=
    fun {i} hrow => Store.commit_proj_of_locked (f := fun c : Tables => c.batches i) hg
      (fun v c hr => apply_batch_of_row c hr) hv hrow hne
  cases v with
  | action u now =>
    have hsame : (replay Write.apply (w.db.writes p) w.committed).action = w.committed.action :=
      Store.commit_proj_of_locked (f := Tables.action) hg
        (fun v c hr => apply_action_of_row c hr) hv rfl hne
    simpa only [Write.Applies, hsame] using ha
  | batch i u now => simpa only [Write.Applies, batch rfl] using ha
  | insertBatch row => simpa only [Write.Applies, batch rfl] using ha
  | logs rows => trivial

end BulkActions
