import BulkActions.Arq

namespace BulkActions

def Tables.Pending (c : Tables) (i : Nat) : Prop :=
  ∃ b, c.batches i = some b ∧ b.status = .pending

/-- The planner enqueues jobs of rows that are there, and a delivery past its attempt has
found the row taken up. -/
def Proc.Sound (c : Tables) (ws : List Write) : Proc → Prop
  | .plan (.rowsCommit loop _) =>
    ∀ row ∈ loop.pending, (c.batches row.batchIndex).isSome ∨ .insertBatch row ∈ ws
  | .plan (.enqueueJobs _ rows _) => ∀ row ∈ rows, (c.batches row.batchIndex).isSome
  | .batch _ (.done _) => True
  | .batch job (.attemptCommit _) => ws ≠ [] ∨ ¬ c.Pending job.index
  | .batch job pc => pc.beforeAttempt ∨ ¬ c.Pending job.index
  | _ => True

/-- A row that was there is pending after a step only if it was before. -/
theorem pending_step {env : Env} {s s' : Sys} {l : Label} (hs : Consistent env s)
    (h : s.step env l = some s') {i : Nat} (hrow : (s.world.committed.batches i).isSome)
    (hp : s'.world.committed.Pending i) : s.world.committed.Pending i := by
  rcases step_effect hs h with hc | ⟨p, ext, _, _, heff⟩
  · rwa [hc] at hp
  · obtain ⟨b', hb', hst⟩ := hp
    rcases effect_row heff i with
      hsame | ⟨_, _, _, _, _, _, hnone, _⟩ | ⟨_, pc, u, now, _, _, hu, hnew⟩
    · exact ⟨b', hsame ▸ hb', hst⟩
    · simp [hnone] at hrow
    · obtain ⟨b, _, rfl⟩ := Option.map_eq_some_iff.mp (hnew.symm.trans hb')
      cases u <;> cases hst

theorem step_batch_isSome {env : Env} {s s' : Sys} {l : Label} (hs : Consistent env s)
    (h : s.step env l = some s') {i : Nat} (hrow : (s.world.committed.batches i).isSome) :
    (s'.world.committed.batches i).isSome := by
  rcases step_effect hs h with hc | ⟨p, ext, _, _, heff⟩
  · rwa [hc]
  · obtain ⟨b, hb⟩ := Option.isSome_iff_exists.mp hrow
    obtain ⟨b', hb', _⟩ := effect_entityCount heff hb
    simp [hb']

theorem sound_mono {c c' : Tables} {ws : List Write} {proc : Proc} (h : proc.Sound c ws)
    (hp : proc.Present c) (rows : ∀ i, (c.batches i).isSome → (c'.batches i).isSome)
    (pending : ∀ i, (c.batches i).isSome → c'.Pending i → c.Pending i) : proc.Sound c' ws := by
  cases proc with
  | plan pc =>
    cases pc with
    | rowsCommit loop last => exact fun row hrow => (h row hrow).imp_left (rows _)
    | enqueueJobs loop rest last => exact fun row hrow => rows _ (h row hrow)
    | _ => trivial
  | batch job pc =>
    cases pc with
    | done ret => trivial
    | loadAction => exact Or.inl rfl
    | loadBatch a => exact Or.inl rfl
    | finalizeUpdate after status =>
      exact Or.imp_right (fun hn hpend => hn (pending _ hp.2.1 hpend)) h
    | _ => exact Or.imp_right (fun hn hpend => hn (pending _ hp.2 hpend)) h
  | _ => trivial

theorem sound_after {job : BatchJob} {c : Tables} {ws : List Write} (pc : BatchPc)
    (h : ¬ c.Pending job.index) : (Proc.batch job pc).Sound c ws := by
  cases pc with
  | done ret => trivial
  | _ => exact Or.inr h

/-- A delivery that goes on has found its row taken up, once it is past its attempt. -/
theorem batchMove_sound {env : Env} {job : BatchJob} {ext : External} {pc next : BatchPc}
    {w w' : World} {p : Pid} {reply : Reply} (hw : pc.Wrote env.settings job (w.db.writes p))
    (hpres : pc.Present job w.committed)
    (he : w.exec p ext.now (pc.stmt env.settings job) = some (w', reply))
    (hm : BatchMove env.text job ext w.committed (w'.db.writes p) pc next)
    (pending : (w.committed.batches job.index).isSome → w'.committed.Pending job.index →
      w.committed.Pending job.index)
    (h : (Proc.batch job pc).Sound w.committed (w.db.writes p)) :
    (Proc.batch job next).Sound w'.committed (w'.db.writes p) := by
  have late : pc.beforeAttempt = false → (∀ n, pc ≠ .attemptCommit n) → (∀ ret, pc ≠ .done ret) →
      (w.committed.batches job.index).isSome →
      (Proc.batch job next).Sound w'.committed (w'.db.writes p) := by
    intro hpc hattempt hdone hrow
    apply sound_after
    intro hpend
    have hor : pc.beforeAttempt ∨ ¬ w.committed.Pending job.index := by
      cases pc <;> first | exact absurd rfl (hattempt _) | exact absurd rfl (hdone _) | exact h
    rcases hor with hb | hn
    · simp [hpc] at hb
    · exact hn (pending hrow hpend)
  cases hm with
  | recordAttempt =>
    rcases exec_updateBatch he with ⟨hnone, rfl⟩ | ⟨b, _, _, _, rfl⟩
    · right
      rintro ⟨b, hb, hst⟩
      rw [view_eq_committed hw, hb] at hnone
      simp [BatchUpdate.applies, hst] at hnone
    · left
      simp
  | attemptCommit =>
    apply sound_after
    rcases hw with hw | ⟨now, hw⟩
    · have hsame : w'.committed = w.committed := by
        rw [exec_commit he]
        simp [World.committed, hw]
      rw [hsame]
      exact h.resolve_left (fun hne => hne hw)
    · rintro ⟨b', hb', hst⟩
      rw [exec_commit he] at hb'
      simp only [World.committed, ReadCommitted.Store.commit_committed, hw,
        ReadCommitted.replay_cons, ReadCommitted.replay_nil, Write.apply,
        Function.update_self] at hb'
      obtain ⟨b, _, rfl⟩ := Option.map_eq_some_iff.mp hb'
      cases hst
  | actionMissing _ | batchMissing _ | finished _ _ | cancelCommit | enqueueDeferred
  | reloadMissing _ | finishedMeanwhile _ _ | failedCommit | logCompleted => trivial
  | loadedAction _ | toCancel _ _ _ | loadedBatch _ _ _ | cancelBatch | loadedAccount
  | admitted | deferred _ => exact Or.inl rfl
  | finalizeUpdate _ => exact late rfl (by simp) (by simp) hpres.2.1
  | _ => exact late rfl (by simp) (by simp) hpres.2

theorem replay_insert_isSome {ws : List Write} {row : BulkActionBatch}
    (h : .insertBatch row ∈ ws) (c : Tables) :
    ((ReadCommitted.replay Write.apply ws c).batches row.batchIndex).isSome := by
  induction ws generalizing c with
  | nil => cases h
  | cons v ws ih =>
    rw [ReadCommitted.replay_cons]
    rcases List.mem_cons.mp h with rfl | h
    · apply replay_batch_isSome
      simp [Write.apply]
    · exact ih h _

/-- The planner that goes on has committed the rows whose jobs it enqueues. -/
theorem planMove_sound {pc next : PlanPc} {w w' : World} {p : Pid} {ext : External}
    {reply : Reply} (hw : pc.Wrote (w.db.writes p))
    (he : w.exec p ext.now pc.stmt = some (w', reply)) (hn : pc.resume ext reply = .ok next)
    (h : (Proc.plan pc).Sound w.committed (w.db.writes p)) :
    (Proc.plan next).Sound w'.committed (w'.db.writes p) := by
  cases pc with
  | insertRows loop last =>
    cases Except.ok.inj hn
    intro row hrow
    obtain ⟨fresh, rfl, _, rfl⟩ := exec_insertBatches he
    by_cases hv : ((w.view p).batches row.batchIndex).isNone
    · right
      rw [insertAll_writes_self]
      refine List.mem_append.mpr (Or.inr (List.mem_map_of_mem ?_))
      exact List.mem_filter.mpr ⟨hrow, hv⟩
    · left
      rw [view_eq_committed hw] at hv
      have hsame : ∀ rows, (w.insertAll p rows).committed = w.committed :=
        fun rows => insertAll_committed w p rows
      rw [hsame]
      simpa [Option.isSome_iff_ne_none] using hv
  | rowsCommit loop last =>
    cases Except.ok.inj hn
    intro row hrow
    rcases h row hrow with hc | hm
    · exact exec_batch_isSome he hc
    · rw [exec_commit he]
      exact replay_insert_isSome hm _
  | enqueueJobs loop rows last =>
    cases rows with
    | nil =>
      cases Except.ok.inj hn
      unfold PlanPc.afterFlush
      split_ifs <;> trivial
    | cons row rows =>
      cases Except.ok.inj hn
      exact fun row' hrow' => exec_batch_isSome he (h row' (List.mem_cons_of_mem _ hrow'))
  | nextBatch loop =>
    cases Except.ok.inj hn
    unfold PlanPc.afterPage PlanPc.afterFlush
    split
    · split_ifs <;> trivial
    · dsimp only
      split_ifs <;> trivial
  | loadAction =>
    simp only [PlanPc.resume] at hn
    split at hn <;> cases Except.ok.inj hn
    · trivial
    · split_ifs <;> trivial
  | failCommit error => cases hn
  | _ =>
    cases Except.ok.inj hn
    trivial

theorem sound_step {env : Env} {s s' : Sys} {l : Label} (hs : Consistent env s)
    (hl : l.raises = false) (h : s.step env l = some s')
    (sound : ∀ p, (s.procs p).Sound s.world.committed (s.world.db.writes p)) :
    ∀ p, (s'.procs p).Sound s'.world.committed (s'.world.db.writes p) := by
  intro q
  by_cases hq : q = l.pid
  · subst hq
    have hw := hs.wrote l.pid
    have hpres := hs.present l.pid
    have hsound := sound l.pid
    cases step_moves hs h with
    | @deliver p job _ _ | @duplicate p job _ | @redeliver p job _ =>
      rw [Label.pid, set_procs_self]
      cases job with
      | plan => trivial
      | batch job => exact Or.inl rfl
    | cancel _ =>
      rw [Label.pid, set_procs_self]
      trivial
    | @batch p ext job pc next w reply hp he hm _ =>
      simp only [Label.pid, hp] at hw hpres hsound
      rw [Label.pid, set_procs_self]
      exact batchMove_sound hw hpres he hm (fun hrow => pending_step hs h hrow) hsound
    | refused _ | planFailed _ _ _ | cancelling _ _ _ _ =>
      rw [Label.pid, set_procs_self]
      trivial
    | @plan p ext pc next w reply hp _ he hn _ =>
      simp only [Label.pid, hp] at hw hsound
      rw [Label.pid, set_procs_self]
      exact planMove_sound hw he hn hsound
    | raise _ _ | swallow _ => cases hl
    | @crash p _ =>
      rw [Label.pid, set_procs_self]
      cases s.procs p <;> trivial
  · have hwrites : s'.world.db.writes q = s.world.db.writes q := step_writes_ne h hq
    rw [step_procs_ne h hq, hwrites]
    exact sound_mono (sound q) (hs.present q) (fun _ => step_batch_isSome hs h)
      (fun _ => pending_step hs h)

end BulkActions
