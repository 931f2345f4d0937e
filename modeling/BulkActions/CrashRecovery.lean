import BulkActions.Finalisers

namespace BulkActions

/-- The condition on the steps that interrupt a job. -/
def KeepsFinaliser (env : Env) (s : Sys) : Label → Prop
  | .crash p => LeavesFinaliser s p
  | .raise p error => (∃ job, (s.procs p).handler env error = .lost job) → LeavesFinaliser s p
  | _ => True

/-- Deliveries, exceptions and crashes of batch jobs. -/
def Label.executes : Label → Bool
  | .deliver _ (.batch _) => true
  | .duplicate _ (.batch _) => true
  | .redeliver _ => true
  | .run _ _ => true
  | .raise _ _ => true
  | .crash _ => true
  | _ => false

def Proc.runsBatch : Proc → Bool
  | .idle => true
  | .batch _ _ => true
  | .lost (.batch _) => true
  | _ => false

/-- Planning has finished and the jobs of the unfinished rows are queued. -/
structure PlannedOut (s : Sys) (a : BulkAction) : Prop extends s.AtRest where
  action : s.world.committed.action = some a
  status : a.status = .processing
  rows : ∀ i, (s.world.committed.batches i).isSome ↔ i < a.totalBatches
  counted : ∀ n, rowSum n finishedValue s.world.committed.batches ≤ a.completedBatches
  queued : ∀ i b, s.world.committed.batches i = some b → ¬ b.finished →
    ∃ job : BatchJob, .batch job ∈ s.world.queue ∧ job.index = i
  unfinished : ∃ i b, s.world.committed.batches i = some b ∧ ¬ b.finished

theorem finalisable_plannedOut {env : Env} {s : Sys} {a : BulkAction} (h : PlannedOut s a) :
    Finalisable env s where
  consistent := consistent_atRest h.toAtRest
  present := by simp [h.action]
  uncancelled := fun a' ha' => by
    cases Option.some.inj (h.action.symm.trans ha')
    simp [h.status]
  path := fun p job pc hp => by simp [h.idle p] at hp
  counted := fun n a' ha' => by
    cases Option.some.inj (h.action.symm.trans ha')
    exact h.counted n
  rows := fun a' ha' _ i hi => by
    cases Option.some.inj (h.action.symm.trans ha')
    exact (h.rows i).mpr hi
  tokens := fun i b hb hf => Or.inl (h.queued i b hb hf)
  live := fun _ _ _ => by
    obtain ⟨i, b, hb, hf⟩ := h.unfinished
    refine Or.inl ⟨i, b, hb, ?_, Or.inl (h.queued i b hb hf)⟩
    intro hc
    simp [BulkActionBatch.finished, hc] at hf

/-- The invariant of crash recovery. -/
structure Recoverable (env : Env) (s : Sys) : Prop where
  finalisable : Finalisable env s
  runs : ∀ p, (s.procs p).runsBatch

theorem runsBatch_set {s : Sys} {w : World} {p : Pid} {proc : Proc}
    (hs : ∀ q, (s.procs q).runsBatch) (hp : proc.runsBatch) :
    ∀ q, ((s.set w p proc).procs q).runsBatch := by
  intro q
  by_cases hq : q = p
  · subst hq
    rwa [set_procs_self]
  · rw [set_procs_ne _ _ _ hq]
    exact hs q

theorem handler_runsBatch {env : Env} {error : String} {proc : Proc} (h : proc.runsBatch) :
    (proc.handler env error).runsBatch := by
  cases proc with
  | batch job pc =>
    rcases handler_batch env error job pc with ⟨hl, _⟩ | ⟨n, _, _, hm⟩
    · rw [hl]
      rfl
    · rw [hm]
      rfl
  | plan pc => cases h
  | cancel pc => cases h
  | _ => exact h

theorem batch_of_running {proc : Proc} (hr : proc.running) (hruns : proc.runsBatch) :
    ∃ job pc, proc = .batch job pc := by
  cases proc with
  | batch job pc => exact ⟨job, pc, rfl⟩
  | idle => cases hr
  | lost job => cases hr
  | plan pc => cases hruns
  | cancel pc => cases hruns

theorem recoverable_raise {env : Env} {s : Sys} {p : Pid} {job : BatchJob} {pc : BatchPc}
    {error : String} (hs : Finalisable env s)
    (hc : Consistent env (s.set (s.world.rollback p) p ((s.procs p).handler env error)))
    (hp : s.procs p = .batch job pc)
    (hleft : (∃ job, (s.procs p).handler env error = .lost job) → LeavesFinaliser s p) :
    Finalisable env (s.set (s.world.rollback p) p ((s.procs p).handler env error)) := by
  rcases handler_batch env error job pc with ⟨hl, _⟩ | ⟨n, _, _, hm⟩
  · rw [← hp] at hl
    rw [hl] at hc hleft ⊢
    exact finalisable_lost hs hc hp (hleft ⟨_, rfl⟩)
  · rw [← hp] at hm
    rw [hm] at hc ⊢
    refine finalisable_quiet hs hc rfl (fun q hq => rollback_writes_ne _ hq) ?_ ?_ ?_
    · intro job' pc' he
      cases he
      simp
    · intro i ht
      refine token_set ht (fun job' hi hj => hi ▸ token_queue hj) ?_
      intro hold
      rw [hp] at hold
      exact token_self ⟨hold.1, rfl⟩
    · intro _
      refine Or.inr ⟨p, ?_⟩
      rw [set_procs_self]
      trivial

theorem recoverable_step {env : Env} {s s' : Sys} {l : Label} (hs : Recoverable env s)
    (ok : l.executes ∧ KeepsFinaliser env s l) (h : s.step env l = some s') :
    Recoverable env s' := by
  obtain ⟨hf, hruns⟩ := hs
  have hc := consistent_step hf.consistent h
  obtain ⟨hex, hkeep⟩ := ok
  cases step_moves hf.consistent h with
  | @deliver p job hp hj =>
    cases job with
    | plan => cases hex
    | batch job =>
      refine ⟨finalisable_start hf hc rfl ?_ (by simp [hp, Proc.holds])
        (by simp [hp, Proc.finalising]), runsBatch_set hruns rfl⟩
      intro job' hne hj'
      refine (List.mem_erase_of_ne ?_).mpr hj'
      rintro he
      cases he
      exact hne rfl
  | @duplicate p job hp =>
    cases job with
    | plan => cases hex
    | batch job =>
      exact ⟨finalisable_start hf hc rfl (fun _ _ hj => hj) (by simp [hp, Proc.holds])
        (by simp [hp, Proc.finalising]), runsBatch_set hruns rfl⟩
  | @redeliver p job hp =>
    have hrun := hruns p
    rw [hp] at hrun
    cases job with
    | plan => cases hrun
    | batch job =>
      exact ⟨finalisable_start hf hc rfl (fun _ _ hj => hj) (by simp [hp, Proc.holds])
        (by simp [hp, Proc.finalising]), runsBatch_set hruns rfl⟩
  | cancel _ => cases hex
  | @batch p ext job pc next w reply hp he hm hpub =>
    exact ⟨finalisable_batch hf hc hp he hm hpub, runsBatch_set hruns rfl⟩
  | @refused p ext job limit n hp =>
    refine ⟨finalisable_lost hf hc hp ?_, runsBatch_set hruns rfl⟩
    intro job' pc' hp' hfin
    cases hp.symm.trans hp'
    exact hfin.elim
  | @plan p ext pc next w reply hp _ _ _ _ => simpa [hp, Proc.runsBatch] using hruns p
  | @planFailed p ext error w reply hp _ _ => simpa [hp, Proc.runsBatch] using hruns p
  | @cancelling p ext pc w reply hp _ _ _ => simpa [hp, Proc.runsBatch] using hruns p
  | @raise p error hr _ =>
    obtain ⟨job, pc, hp⟩ := batch_of_running hr (hruns p)
    exact ⟨recoverable_raise hf hc hp hkeep, runsBatch_set hruns (handler_runsBatch (hruns p))⟩
  | @swallow p job n r payload error hp =>
    refine ⟨finalisable_quiet hf hc rfl (fun _ _ => rfl) ?_ ?_ ?_, runsBatch_set hruns rfl⟩
    · intro job' pc' he
      cases he
      simp
    · intro i ht
      refine token_set ht (fun job' hi hj => hi ▸ token_queue hj) ?_
      intro hold
      simp [hp, Proc.holds, BatchPc.beforeCount] at hold
    · intro hfin
      rw [hp] at hfin
      exact Or.inr ⟨p, by rw [set_procs_self]; exact hfin⟩
  | @crash p hr =>
    obtain ⟨job, pc, hp⟩ := batch_of_running hr (hruns p)
    rw [hp] at hc ⊢
    exact ⟨finalisable_lost hf hc hp hkeep, runsBatch_set hruns rfl⟩

/-- Whatever jobs are interrupted and redelivered, as long as each interruption leaves
somebody to finalise, an action whose jobs have all returned is not left in processing. -/
theorem crash_recovery_finalises {env : Env} {s₀ s : Sys} {a₀ : BulkAction}
    (start : PlannedOut s₀ a₀)
    (h : Sys.Reaches env (fun s l => l.executes ∧ KeepsFinaliser env s l) s₀ s)
    (quiet : s.Quiescent) : s.status ≠ some .processing := by
  have safe : Recoverable env s := by
    refine h.invariant recoverable_step ⟨finalisable_plannedOut start, ?_⟩
    intro p
    rw [start.idle p]
    rfl
  intro hst
  obtain ⟨a, ha, hst⟩ := Option.map_eq_some_iff.mp hst
  exact quiet.not_live (safe.finalisable.live a ha hst)

theorem plannedContacts_plannedOut :
    ∃ a, PlannedOut (plannedContacts [contactsJob]) a := by
  refine ⟨{ contactsAction .processing with totalEntities := 1, totalBatches := 1 },
    Tables.sys_atRest _ _, rfl, rfl, ?_, ?_, ?_, 0, contactsBatch .pending, rfl, by decide⟩
  · intro i
    cases i <;> simp [plannedContacts, Tables.sys, World.committed]
  · intro n
    refine Nat.le_of_eq (rowSum_zero ?_)
    intro i
    cases i <;> rfl
  · intro i b hb _
    cases i with
    | zero => exact ⟨⟨0, 0, 1⟩, List.mem_singleton.mpr rfl, rfl⟩
    | succ i => simp [plannedContacts, Tables.sys, World.committed] at hb

/-- Workers die in their work transactions only. -/
def crashesAtWork (s : Sys) (l : Label) : Bool :=
  l.executes && match l, s.procs l.pid with
    | .crash _, .batch _ (.runBatch _ _ _) => true
    | .crash _, _ => false
    | .raise _ _, _ => false
    | _, _ => true

theorem crashesAtWork_allowed {env : Env} {s : Sys} {l : Label} (h : crashesAtWork s l) :
    l.executes ∧ KeepsFinaliser env s l := by
  unfold crashesAtWork at h
  obtain ⟨hexecutes, h⟩ := Bool.and_eq_true_iff.mp h
  refine ⟨hexecutes, ?_⟩
  cases l with
  | crash p =>
    intro job pc hp hfin
    simp only [Label.pid, hp] at h
    cases pc <;> first | exact hfin.elim | cases h
  | raise p error => cases h
  | _ => trivial

/-- A worker dies in its work transaction, and the redelivered job finalises the action. -/
theorem crash_recovery_finalises_redelivered :
    ∃ s, Sys.Reaches defaultEnv (fun s l => l.executes ∧ KeepsFinaliser defaultEnv s l)
      (plannedContacts [contactsJob]) s ∧ s.Quiescent ∧ s.status ≠ some .processing := by
  let labels : List Label := .deliver 0 contactsJob :: List.replicate 8 (.run 0 {}) ++
    [.crash 0, .redeliver 0] ++ List.replicate 8 (.run 0 {}) ++ .run 0 activeContact ::
    List.replicate 10 (.run 0 {})
  obtain ⟨a, start⟩ := plannedContacts_plannedOut
  obtain ⟨s, hs, quiet⟩ : ∃ s,
      Runs.checkedSteps (Sys.step defaultEnv) crashesAtWork (plannedContacts [contactsJob]) labels =
        some s ∧ s.Quiescent :=
    ⟨_, rfl, quiescent_of_returned rfl (Nat.rec rfl fun _ _ => rfl)⟩
  have hr : Sys.Reaches defaultEnv (fun s l => l.executes ∧ KeepsFinaliser defaultEnv s l)
      (plannedContacts [contactsJob]) s :=
    Runs.reaches_checked (fun hc => crashesAtWork_allowed hc) hs
  exact ⟨s, hr, quiet, crash_recovery_finalises start hr quiet⟩

/-- A worker dies between its work commit and its finalisation; the redelivered job finds the
row completed and returns, and nobody finalises. -/
theorem crashed_action_left_processing :
    ¬ ∀ (s₀ s : Sys) (a₀ : BulkAction), PlannedOut s₀ a₀ →
      Sys.Reaches defaultEnv (fun _ l => l.executes) s₀ s → s.Quiescent →
      (∀ i b, s.world.committed.batches i = some b → b.status = .completed ∨ b.status = .failed) →
      s.status ≠ some .processing := by
  intro always
  let labels : List Label := .deliver 0 contactsJob :: List.replicate 8 (.run 0 {}) ++
    .run 0 activeContact :: List.replicate 4 (.run 0 {}) ++
    [.crash 0, .redeliver 0, .run 0 {}, .run 0 {}]
  obtain ⟨a, start⟩ := plannedContacts_plannedOut
  obtain ⟨s, hs, quiet, hrow, hnone, hst⟩ : ∃ s,
      Runs.steps (Sys.step defaultEnv) (plannedContacts [contactsJob]) labels = some s ∧
        s.Quiescent ∧
      (s.world.committed.batches 0).map BulkActionBatch.status = some .completed ∧
      (∀ i, s.world.committed.batches (i + 1) = none) ∧ s.status = some .processing :=
    ⟨_, rfl, quiescent_of_returned rfl (Nat.rec rfl fun _ _ => rfl), rfl, fun _ => rfl, rfl⟩
  have hr : Sys.Reaches defaultEnv (fun _ l => l.executes) (plannedContacts [contactsJob]) s :=
    Runs.reaches_of_allowed (by simp [labels, contactsJob, Label.executes]) hs
  refine always _ s a start hr quiet ?_ hst
  intro i b hb
  cases i with
  | zero => exact Or.inl (by simpa [hb] using hrow)
  | succ i => simp [hnone i] at hb

end BulkActions
