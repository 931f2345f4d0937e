import BulkActions.Admission
import BulkActions.ControlLocks
import BulkActions.CrashRecovery
import BulkActions.Lifecycle
import BulkActions.Totals
import Mathlib.Data.Fintype.EquivFin

namespace BulkActions

open Totals

/-- The most statements that a delivery has still to execute; a denied one enqueues its job
again. -/
def BatchPc.left : BatchPc → Nat
  | .loadAction => 19
  | .loadBatch _ => 18
  | .cancelBatch => 2
  | .cancelCommit => 1
  | .loadAccount _ => 17
  | .rateLimit _ _ => 16
  | .enqueueDeferred _ => 21
  | .recordAttempt _ => 15
  | .attemptCommit _ => 14
  | .reloadAction _ => 13
  | .reloadBatch _ _ => 12
  | .runBatch _ _ _ => 11
  | .writeOutcomes _ _ => 10
  | .updateBatch _ _ => 9
  | .recordCompletion _ _ => 8
  | .workCommit _ _ => 7
  | .finalizeSelect _ => 6
  | .finalizeUpdate _ _ => 5
  | .refresh _ _ => 4
  | .publish _ _ _ => 3
  | .finalizeCommit _ => 2
  | .logCompleted _ _ => 1
  | .markBatch _ _ => 10
  | .markOutcomes _ _ => 9
  | .markRecord _ _ => 8
  | .markCommit _ _ => 7
  | .done _ => 0

def Proc.left : Proc → Nat
  | .batch _ pc => pc.left
  | .lost _ => 20
  | _ => 0

/-- Workers take jobs, go on with them and take up interrupted ones; every token is granted. Of the
queue it is assumed that it hands an interrupted job out again until it returns, however often that
takes and whatever has interrupted it; arq gives up after `max_tries`. -/
def Label.resumes : Label → Bool
  | .deliver _ (.batch _) => true
  | .redeliver _ => true
  | .run _ ext => ext.decision.allowed
  | _ => false

/-- The steps that are left to the jobs queued and under way. -/
def Sys.Weighs (s : Sys) (n : Nat) : Prop :=
  ∃ m, Total (fun p => (s.procs p).left) m ∧ n = 20 * s.world.queue.length + m

/-- Every batch has reported, and the action has been closed. -/
structure Sys.Finished (s : Sys) : Prop where
  quiescent : s.Quiescent
  rows : ∀ i b, s.world.committed.batches i = some b → b.finished
  status : s.status = some .completed ∨ s.status = some .completedWithErrors

/-- What holds while the batches of a planned action are executed. -/
structure Underway (env : Env) (size : Nat) (s : Sys) : Prop where
  recoverable : Recoverable env s
  owned : s.world.db.Owned Write.row
  sized : s.Sized size
  limit : size ≤ s.world.rateLimitPerMinute
  workers : ∃ ps : Finset Pid, ∀ p ∉ ps, s.procs p = .idle
  status : ∀ a, s.world.committed.action = some a →
    a.status = .processing ∨ a.status = .completed ∨ a.status = .completedWithErrors

section Steps

variable {env : Env} {size : Nat} {s s' : Sys} {p : Pid} {l : Label}

/-- A move that is not a denial brings a delivery closer to its end. -/
theorem batchMove_left {text : PyText} {job : BatchJob} {ext : External} {c : Tables}
    {ws : List Write} {pc next : BatchPc} (h : BatchMove text job ext c ws pc next)
    (hallowed : ext.decision.allowed) : next.left < pc.left := by
  cases h with
  | deferred hdenied => simp [hallowed] at hdenied
  | @notFinalizable after _ => cases after <;> simp [BatchPc.afterFinalize, BatchPc.left]
  | @finalizeUpdate after st _ => cases after <;> simp [BatchPc.afterFinalize, BatchPc.left]
  | _ => simp [BatchPc.left]

/-- Only a denied delivery puts a job on the queue. -/
theorem batch_queue {settings : Settings} {job : BatchJob} {pc : BatchPc} {w w' : World}
    {now : Timestamp} {reply : Reply} (h : w.exec p now (pc.stmt settings job) = some (w', reply)) :
    w'.queue = w.queue ∨
      (∃ ms, pc = .enqueueDeferred ms) ∧ w'.queue.length = w.queue.length + 1 := by
  rcases exec_queue h with hqueue | ⟨job', hst, hqueue⟩
  · exact Or.inl hqueue
  · refine Or.inr ⟨?_, by simp [hqueue]⟩
    cases pc with
    | enqueueDeferred ms => exact ⟨ms, rfl⟩
    | writeOutcomes n r =>
      simp only [BatchPc.stmt, writeOutcomes] at hst
      split_ifs at hst
    | markOutcomes n error =>
      simp only [BatchPc.stmt, writeOutcomes] at hst
      split_ifs at hst
    | _ => cases hst

/-- A batch that fits the limit is not refused. -/
theorem admitted_goes_on {job : BatchJob} {limit n : Nat} {ext : External}
    (hp : s.procs p = .batch job (.rateLimit limit n)) (hle : n ≤ limit)
    (h : s.step env (.run p ext) = some s') : ∃ pc, s'.procs p = .batch job pc := by
  cases step_happens h with
  | run _ _ hn =>
    rw [hp] at hn
    obtain ⟨pc, _, rfl⟩ := batch_resume_ok hn
    exact ⟨pc, set_procs_self _ _ _ _⟩
  | fail _ _ hn =>
    have hconsume : ∃ d, consume limit n ext.decision = .ok d := by
      unfold consume
      split_ifs with hzero hlt
      · exact ⟨_, rfl⟩
      · exact absurd hlt (Nat.not_lt.mpr hle)
      · exact ⟨_, rfl⟩
    obtain ⟨d, hd⟩ := hconsume
    simp [hp, Proc.resume, BatchPc.resume, hd, Except.map] at hn

/-- The process that moves takes off more than its step puts on the queue. -/
theorem resumes_left (hs : Recoverable env s) (hsized : s.Sized size) (hl : l.resumes)
    (h : s.step env l = some s') :
    ∃ w proc, s' = s.set w l.pid proc ∧
      20 * w.queue.length + proc.left < 20 * s.world.queue.length + (s.procs l.pid).left := by
  cases step_moves hs.finalisable.consistent h with
  | @deliver p job hp hj =>
    cases job with
    | plan => cases hl
    | batch job =>
      have hpos := List.length_pos_of_mem hj
      have herase := List.length_erase_of_mem hj
      refine ⟨_, _, rfl, ?_⟩
      simp only [Job.proc, Label.pid, hp, Proc.left, BatchPc.left, herase]
      omega
  | @redeliver p job hp =>
    have hruns := hs.runs p
    cases job with
    | plan => simp [hp, Proc.runsBatch] at hruns
    | batch job =>
      refine ⟨_, _, rfl, ?_⟩
      simp [Job.proc, Job.again, Label.pid, hp, Proc.left, BatchPc.left]
  | @batch p ext job pc next w reply hp he hm hpub =>
    refine ⟨_, _, rfl, ?_⟩
    have hleft := batchMove_left hm hl
    rw [Label.pid, hp]
    rcases batch_queue he with hqueue | ⟨⟨ms, rfl⟩, hqueue⟩
    · rw [hqueue]
      exact Nat.add_lt_add_left hleft _
    · cases hm
      simp only [hqueue, Proc.left, BatchPc.left]
      omega
  | @refused p ext job limit n hp =>
    have hfits := hsized.procs p
    rw [hp] at hfits
    obtain ⟨pc, hpc⟩ := admitted_goes_on hp hfits h
    rw [set_procs_self] at hpc
    cases hpc
  | @plan p ext pc next w reply hp _ _ _ _ =>
    have hruns := hs.runs p
    simp [hp, Proc.runsBatch] at hruns
  | @planFailed p ext error w reply hp _ _ =>
    have hruns := hs.runs p
    simp [hp, Proc.runsBatch] at hruns
  | @cancelling p ext pc w reply hp _ _ _ =>
    have hruns := hs.runs p
    simp [hp, Proc.runsBatch] at hruns
  | _ => cases hl

theorem weighs_step {n : Nat} (hs : Recoverable env s) (hsized : s.Sized size) (hn : s.Weighs n)
    (hl : l.resumes) (h : s.step env l = some s') : ∃ m < n, s'.Weighs m := by
  obtain ⟨left, htotal, rfl⟩ := hn
  obtain ⟨w, proc, rfl, hlt⟩ := resumes_left hs hsized hl h
  obtain ⟨left', htotal', hchange⟩ := htotal.change (x := l.pid)
    (g := fun p => ((s.set w l.pid proc).procs p).left)
    (fun q hq => by rw [set_procs_ne _ _ _ hq])
  rw [set_procs_self] at hchange
  refine ⟨_, ?_, left', htotal', rfl⟩
  rw [set_world]
  omega

theorem batch_of_commit {proc : Proc} (h : proc.stmt env = .commit) (hruns : proc.runsBatch) :
    ∃ job pc, proc = .batch job pc := by
  cases proc with
  | batch job pc => exact ⟨job, pc, rfl⟩
  | idle => cases h
  | lost job => cases h
  | plan pc => cases hruns
  | cancel pc => cases hruns

theorem edge_worker {st st' : BulkActionStatus} (h : BulkActionStatus.Edge .worker st st') :
    st' = .completed ∨ st' = .completedWithErrors := by
  cases h <;> simp

/-- A step of a batch job or of its interruption. -/
theorem underway_step (hs : Underway env size s) (ok : l.executes ∧ KeepsFinaliser env s l)
    (h : s.step env l = some s') : Underway env size s' where
  recoverable := recoverable_step hs.recoverable ok h
  owned := step_owned hs.owned h
  sized := by
    refine sized_step hs.sized hs.limit (fun p ext loop _ hp => ?_) h
    have hruns := hs.recoverable.runs p
    simp [hp, Proc.runsBatch] at hruns
  limit := (step_rateLimit h).symm ▸ hs.limit
  workers := by
    obtain ⟨ps, hidle⟩ := hs.workers
    refine ⟨insert l.pid ps, fun q hq => ?_⟩
    obtain ⟨hne, hq⟩ := not_or.mp (Finset.mem_insert.not.mp hq)
    rw [step_procs_ne h hne, hidle q hq]
  status := by
    intro a' ha'
    obtain ⟨a, ha⟩ := Option.isSome_iff_exists.mp hs.recoverable.finalisable.present
    have hst := hs.status a ha
    rcases step_effect hs.recoverable.finalisable.consistent h with hsame | ⟨p, ext, rfl, hr, heff⟩
    · exact hs.status a' (hsame ▸ ha')
    · obtain ⟨job, pc, hp⟩ := batch_of_commit hr (hs.recoverable.runs p)
      obtain ⟨a'', ha'', hedge⟩ := effect_status heff ha
      cases Option.some.inj (ha'.symm.trans ha'')
      rcases hedge with hsame | ⟨actor, hactor, hedge⟩
      · exact hsame ▸ hst
      · rw [hp] at hactor
        cases Option.some.inj hactor
        exact Or.inr (edge_worker hedge)

theorem underway_reaches {ok : Sys → Label → Prop}
    (hok : ∀ {s l}, ok s l → l.executes ∧ KeepsFinaliser env s l) (hs : Underway env size s)
    (h : Sys.Reaches env ok s s') : Underway env size s' :=
  h.invariant (fun hs ok hstep => underway_step hs (hok ok) hstep) hs

theorem resumes_executes (hl : l.resumes) : l.executes ∧ KeepsFinaliser env s l := by
  cases l with
  | deliver p job => cases job <;> first | exact ⟨rfl, trivial⟩ | cases hl
  | redeliver p => exact ⟨rfl, trivial⟩
  | run p ext => exact ⟨rfl, trivial⟩
  | _ => cases hl

/-- As long as a job is queued, under way or interrupted, the workers can go on. -/
theorem resumes_possible (hs : Underway env size s) (h : ¬ s.Quiescent) :
    ∃ l : Label, l.resumes ∧ (s.step env l).isSome := by
  by_cases hqueue : ∃ job, .batch job ∈ s.world.queue
  · obtain ⟨job, hj⟩ := hqueue
    obtain ⟨ps, hidle⟩ := hs.workers
    obtain ⟨p, hp⟩ := Infinite.exists_notMem_finset ps
    refine ⟨.deliver p (.batch job), rfl, ?_⟩
    simp [Sys.step, hj, Sys.start, Sys.dequeue, hidle p hp]
  by_cases hlost : ∃ p job, s.procs p = .lost job
  · obtain ⟨p, job, hp⟩ := hlost
    exact ⟨.redeliver p, rfl, by simp [Sys.step, hp]⟩
  by_cases hrunning : ∃ p, (s.procs p).running
  · obtain ⟨p, hp⟩ := hrunning
    obtain ⟨q, _, _, hrun⟩ := some_task_runs hs.recoverable.finalisable.consistent hs.owned hp
    exact ⟨.run q {}, rfl, hrun {}⟩
  refine absurd ⟨?_, ?_, ?_⟩ h
  · exact fun job hj => hqueue ⟨job, hj⟩
  · exact fun p hp => hrunning ⟨p, hp⟩
  · exact fun p job hp => hlost ⟨p, job, hp⟩

theorem Sys.Quiescent.no_token {i : Nat} (h : s.Quiescent) : ¬ s.Token i := by
  rintro (⟨job, hj, _⟩ | ⟨p, hold⟩)
  · exact h.queue job hj
  · have hreturned := h.returned p
    cases hp : s.procs p with
    | lost job => exact h.settled p job hp
    | batch job pc =>
      rw [hp] at hold hreturned
      cases pc <;> first | exact hreturned rfl | cases hold.2
    | plan pc =>
      rw [hp] at hold hreturned
      cases pc <;> first | exact hreturned rfl | exact hold.elim
    | _ => simp [hp, Proc.holds] at hold

theorem finished_of_quiescent (hs : Underway env size s) (h : s.Quiescent) : s.Finished where
  quiescent := h
  rows := by
    intro i b hb
    by_contra hf
    exact h.no_token (hs.recoverable.finalisable.tokens i b hb hf)
  status := by
    obtain ⟨a, ha⟩ := Option.isSome_iff_exists.mp hs.recoverable.finalisable.present
    have hstatus : s.status = some a.status := by rw [Sys.status, ha]; rfl
    rw [hstatus]
    rcases hs.status a ha with hst | hst | hst
    · exact absurd (hs.recoverable.finalisable.live a ha hst) h.not_live
    · exact Or.inl (congrArg some hst)
    · exact Or.inr (congrArg some hst)

theorem underway_plannedOut {a : BulkAction} (start : PlannedOut s a)
    (hsized : s.world.committed.Sized size) (hlimit : size ≤ s.world.rateLimitPerMinute) :
    Underway env size s where
  recoverable := ⟨finalisable_plannedOut start, fun p => by rw [start.idle p]; rfl⟩
  owned := by
    intro p r hlock
    rw [start.unlocked r] at hlock
    cases hlock
  sized := by
    refine ⟨⟨hsized, fun p v hv => ?_⟩, fun p => by rw [start.idle p]; trivial⟩
    rw [start.closed p] at hv
    cases hv
  limit := hlimit
  workers := ⟨∅, fun p _ => start.idle p⟩
  status := by
    intro a' ha'
    cases Option.some.inj (start.action.symm.trans ha')
    exact Or.inl start.status

/-- Let the queue hand every interrupted job out again until it returns, and let no batch hold more
entities than the limit. Whatever was interrupted, denied or delivered twice before: once the
workers take up what is left without another fault, they are done after a bounded number of steps,
whichever of them goes first, and until then one of them can go on. When they are done, every batch
has reported and the action is closed. -/
theorem workers_always_finish {a : BulkAction} (start : PlannedOut s a)
    (hsized : s.world.committed.Sized size) (hlimit : size ≤ s.world.rateLimitPerMinute)
    (h : Sys.Reaches env (fun s l => l.executes ∧ KeepsFinaliser env s l) s s') :
    ∃ bound, ∀ (ls : List Label) (s'' : Sys), (∀ l ∈ ls, l.resumes) →
      Runs.steps (Sys.step env) s' ls = some s'' →
        ls.length ≤ bound ∧
          (s''.Finished ∨ ∃ l : Label, l.resumes ∧ (s''.step env l).isSome) := by
  have hunder : Underway env size s' :=
    underway_reaches id (underway_plannedOut start hsized hlimit) h
  obtain ⟨ps, hidle⟩ := hunder.workers
  have hworked : ∃ left, Total (fun p => (s'.procs p).left) left :=
    exists_total (fun p (hp : p ∉ ps) => by simp [hidle p hp, Proc.left])
  obtain ⟨left, htotal⟩ := hworked
  refine ⟨20 * s'.world.queue.length + left, fun ls s'' hls hsteps => ?_⟩
  have hlast : Underway env size s'' :=
    underway_reaches (fun hl => resumes_executes hl) hunder (Runs.reaches_of_allowed hls hsteps)
  refine ⟨?_, ?_⟩
  · refine Runs.length_le_weight (fun s n => Underway env size s ∧ s.Weighs n) ?_
      ⟨hunder, left, htotal, rfl⟩ hls hsteps
    rintro s s' l n ⟨hs, hn⟩ hl hstep
    obtain ⟨m, hm, hweighs⟩ := weighs_step hs.recoverable hs.sized hn hl hstep
    exact ⟨m, hm, underway_step hs (resumes_executes hl) hstep, hweighs⟩
  · by_cases hquiet : s''.Quiescent
    · exact Or.inl (finished_of_quiescent hlast hquiet)
    · exact Or.inr (resumes_possible hlast hquiet)

end Steps

theorem twoBatches_plannedOut : ∃ a, PlannedOut twoBatches a := by
  refine ⟨{ contactsAction .processing with batchSize := 1, totalEntities := 2, totalBatches := 2 },
    Tables.sys_atRest _ _, rfl, rfl, ?_, ?_, ?_, 0, _, rfl, by decide⟩
  · intro i
    rcases i with _ | _ | i
    · exact iff_of_true rfl Nat.two_pos
    · exact iff_of_true rfl Nat.one_lt_two
    · exact iff_of_false (fun hrow => by cases hrow) (Nat.not_lt.mpr (Nat.le_add_left 2 i))
  · intro n
    refine Nat.le_of_eq (rowSum_zero ?_)
    intro i
    rcases i with _ | _ | i <;> rfl
  · intro i b hb _
    rcases i with _ | _ | i
    · exact ⟨⟨0, 0, 1⟩, by simp [twoBatches, Tables.sys], rfl⟩
    · exact ⟨⟨1, 0, 1⟩, by simp [twoBatches, Tables.sys], rfl⟩
    · cases hb

theorem twoBatches_sized : twoBatches.world.committed.Sized 1 := by
  refine ⟨fun a ha => by cases ha; rfl, fun i b hb => ?_⟩
  rcases i with _ | _ | i
  · cases hb
    decide
  · cases hb
    decide
  · cases hb

/-- The worker of contact 5 is denied a token and dies the next time, in its work transaction; the
one of contact 6 dies there too, and its job is handed out again. -/
def interruptedPair : List Label :=
  .deliver 0 (.batch ⟨0, 0, 1⟩) :: List.replicate 3 (.run 0 {}) ++
    .run 0 { decision := ⟨false, 500⟩ } :: .run 0 {} :: .deliver 1 (.batch ⟨0, 1, 1⟩) ::
    List.replicate 8 (.run 1 {}) ++ .crash 1 :: .deliver 2 (.batch ⟨1, 0, 1⟩) ::
    List.replicate 8 (.run 2 {}) ++ [.crash 2, .redeliver 2]

/-- What is left: the second try of contact 6, and the job of contact 5 once more. -/
def resumedPair : List Label :=
  List.replicate 8 (.run 2 {}) ++ .run 2 { rows := [⟨6, [("status", .str "active")]⟩] } ::
    List.replicate 9 (.run 2 {}) ++ .redeliver 1 :: List.replicate 8 (.run 1 {}) ++
    .run 1 activeContact :: List.replicate 10 (.run 1 {})

theorem workers_always_finish_interrupted :
    ∃ s' bound, Sys.Reaches defaultEnv (fun s l => l.executes ∧ KeepsFinaliser defaultEnv s l)
        twoBatches s' ∧ s'.status = some .processing ∧
      (∃ s'', Runs.steps (Sys.step defaultEnv) s' resumedPair = some s'' ∧
        resumedPair.length ≤ bound ∧ s''.Finished) ∧
      ∀ (ls : List Label) (s'' : Sys), (∀ l ∈ ls, l.resumes) →
        Runs.steps (Sys.step defaultEnv) s' ls = some s'' →
          ls.length ≤ bound ∧
            (s''.Finished ∨ ∃ l : Label, l.resumes ∧ (s''.step defaultEnv l).isSome) := by
  obtain ⟨s', hs, hst, s'', hs'', hquiet⟩ : ∃ s',
      Runs.checkedSteps (Sys.step defaultEnv) crashesAtWork twoBatches interruptedPair = some s' ∧
        s'.status = some .processing ∧
          ∃ s'', Runs.steps (Sys.step defaultEnv) s' resumedPair = some s'' ∧ s''.Quiescent :=
    ⟨_, rfl, rfl, _, rfl,
      quiescent_of_returned rfl (fun p => by rcases p with _ | _ | _ | p <;> rfl)⟩
  have hr : Sys.Reaches defaultEnv (fun s l => l.executes ∧ KeepsFinaliser defaultEnv s l)
      twoBatches s' :=
    Runs.reaches_checked (fun hc => crashesAtWork_allowed hc) hs
  obtain ⟨a, start⟩ := twoBatches_plannedOut
  obtain ⟨bound, hbound⟩ := workers_always_finish start twoBatches_sized (by decide) hr
  have hresumes : ∀ l ∈ resumedPair, l.resumes := by decide
  have hunder : Underway defaultEnv 1 s' :=
    underway_reaches id (underway_plannedOut start twoBatches_sized (by decide)) hr
  have hlast : Underway defaultEnv 1 s'' :=
    underway_reaches (fun hl => resumes_executes hl) hunder
      (Runs.reaches_of_allowed hresumes hs'')
  exact ⟨s', bound, hr, hst, ⟨s'', hs'', (hbound resumedPair s'' hresumes hs'').1,
    finished_of_quiescent hlast hquiet⟩, hbound⟩

end BulkActions
