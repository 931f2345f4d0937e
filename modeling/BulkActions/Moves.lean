import BulkActions.Effects

namespace BulkActions

open ReadCommitted

/-- Every way `process_batch` can get past a point without raising, over the tables it reads;
`ws` is what its transaction has written when it gets there. -/
inductive BatchMove (text : PyText) (job : BatchJob) (ext : External) (c : Tables)
    (ws : List Write) : BatchPc → BatchPc → Prop where
  | actionMissing : c.action = none → BatchMove text job ext c ws .loadAction (.done .missing)
  | loadedAction {a} : c.action = some a → BatchMove text job ext c ws .loadAction (.loadBatch a)
  | batchMissing {a} : c.batches job.index = none →
      BatchMove text job ext c ws (.loadBatch a) (.done .missing)
  | finished {a b} : c.batches job.index = some b → b.status = .completed →
      BatchMove text job ext c ws (.loadBatch a) (.done .alreadyCompleted)
  | toCancel {a b} : c.batches job.index = some b → b.status ≠ .completed →
      a.status = .cancelled → BatchMove text job ext c ws (.loadBatch a) .cancelBatch
  | loadedBatch {a b} : c.batches job.index = some b → b.status ≠ .completed →
      a.status ≠ .cancelled →
        BatchMove text job ext c ws (.loadBatch a) (.loadAccount b.entityCount)
  | cancelBatch : BatchMove text job ext c ws .cancelBatch .cancelCommit
  | cancelCommit : BatchMove text job ext c ws .cancelCommit (.done .cancelled)
  | loadedAccount {n limit} : BatchMove text job ext c ws (.loadAccount n) (.rateLimit limit n)
  | admitted {limit n} : BatchMove text job ext c ws (.rateLimit limit n) (.recordAttempt n)
  | deferred {limit n ms} : ext.decision.allowed = false →
      BatchMove text job ext c ws (.rateLimit limit n) (.enqueueDeferred ms)
  | enqueueDeferred {ms} :
      BatchMove text job ext c ws (.enqueueDeferred ms) (.done (.rateLimited ms))
  | recordAttempt {n} : BatchMove text job ext c ws (.recordAttempt n) (.attemptCommit n)
  | attemptCommit {n} : BatchMove text job ext c ws (.attemptCommit n) (.reloadAction n)
  | reloadMissing {n} : c.action = none →
      BatchMove text job ext c ws (.reloadAction n) (.done .missing)
  | reloadedAction {n a} : c.action = some a →
      BatchMove text job ext c ws (.reloadAction n) (.reloadBatch n a)
  | finishedMeanwhile {n a b} : c.batches job.index = some b → b.status = .completed →
      BatchMove text job ext c ws (.reloadBatch n a) (.done .alreadyCompleted)
  | reloadedBatch {n a b} : c.batches job.index = some b → b.status ≠ .completed →
      BatchMove text job ext c ws (.reloadBatch n a) (.runBatch n a b)
  | runBatch {n a b} : BatchMove text job ext c ws (.runBatch n a b) (.writeOutcomes n
      (BulkActions.runBatch text a.configuration b.entityCount ext.rows ext.claimed ext.affected))
  | writeOutcomes {n r} : BatchMove text job ext c ws (.writeOutcomes n r) (.updateBatch n r)
  | updateBatch {n r} : BatchMove text job ext c ws (.updateBatch n r) (.recordCompletion n r)
  | recordCompletion {n r} : BatchMove text job ext c ws (.recordCompletion n r) (.workCommit n r)
  | workCommit {n r} :
      BatchMove text job ext c ws (.workCommit n r) (.finalizeSelect (.batchDone n r))
  | notFinalizable {after} : (∀ a, c.action = some a → ¬ a.isFinalizable) →
      BatchMove text job ext c ws (.finalizeSelect after) (BatchPc.afterFinalize after)
  | finalizable {after a} : c.action = some a → a.isFinalizable →
      BatchMove text job ext c ws (.finalizeSelect after)
        (.finalizeUpdate after (finalStatus a.failureCount))
  | finalizeUpdate {after st} : ws ≠ [] ∨ (∀ a, c.action = some a → ¬ a.isFinalizable) →
      BatchMove text job ext c ws (.finalizeUpdate after st) (BatchPc.afterFinalize after)
  | refreshMissing {n r} :
      BatchMove text job ext c ws (.refresh n r) (.finalizeCommit (.batchDone n r))
  | refreshed {n r a} :
      BatchMove text job ext c ws (.refresh n r) (.publish n r (progressPayload a))
  | publish {n r payload} :
      BatchMove text job ext c ws (.publish n r payload) (.finalizeCommit (.batchDone n r))
  | finalizeCommit {n r} :
      BatchMove text job ext c ws (.finalizeCommit (.batchDone n r)) (.logCompleted n r)
  | failedCommit {error} :
      BatchMove text job ext c ws (.finalizeCommit (.batchFailed error)) (.done (.failed error))
  | logCompleted {n r} : BatchMove text job ext c ws (.logCompleted n r)
      (.done (.completed r.successCount r.failureCount r.skippedCount))
  | markBatch {n error} : BatchMove text job ext c ws (.markBatch n error) (.markOutcomes n error)
  | markOutcomes {n error} :
      BatchMove text job ext c ws (.markOutcomes n error) (.markRecord n error)
  | markRecord {n error} : BatchMove text job ext c ws (.markRecord n error) (.markCommit n error)
  | markCommit {n error} :
      BatchMove text job ext c ws (.markCommit n error) (.finalizeSelect (.batchFailed error))

theorem batchMove_running {text : PyText} {job : BatchJob} {ext : External} {c : Tables}
    {ws : List Write} {pc next : BatchPc} (h : BatchMove text job ext c ws pc next) :
    (Proc.batch job pc).running := by
  cases h <;> rfl

theorem not_finalizable_of_filter {o : Option BulkAction}
    (h : o.filter BulkAction.isFinalizable = none) : ∀ a, o = some a → ¬ a.isFinalizable := by
  rintro a rfl
  simpa using h

theorem batch_moves {env : Env} {job : BatchJob} {pc next : BatchPc} {w w' : World} {p : Pid}
    {ext : External} {reply : Reply} (hw : pc.Wrote env.settings job (w.db.writes p))
    (hr : (Proc.batch job pc).running)
    (h : w.exec p ext.now (pc.stmt env.settings job) = some (w', reply))
    (hn : pc.resume env.text ext reply = .ok next) :
    BatchMove env.text job ext w.committed (w'.db.writes p) pc next := by
  cases pc with
  | loadAction =>
    have hv := (exec_selectAction h).2
    rw [view_eq_committed hw] at hv
    simp only [BatchPc.resume] at hn
    split at hn <;> cases Except.ok.inj hn
    next ha => exact .actionMissing (hv ▸ ha)
    next a ha => exact .loadedAction (hv ▸ ha)
  | loadBatch a =>
    have hv := (exec_selectBatch h).2
    rw [view_eq_committed hw] at hv
    cases Except.ok.inj hn
    cases hb : reply.batch with
    | none => exact .batchMissing (hv ▸ hb)
    | some b =>
      simp only [BatchPc.afterLoad]
      split_ifs with hc hx
      · exact .finished (hv ▸ hb) hc
      · exact .toCancel (hv ▸ hb) hc hx
      · exact .loadedBatch (hv ▸ hb) hc hx
  | rateLimit limit n =>
    simp only [BatchPc.resume] at hn
    cases hc : consume limit n ext.decision with
    | error e => simp [hc, Except.map] at hn
    | ok d =>
      simp only [hc, Except.map, Except.ok.injEq] at hn
      subst hn
      split_ifs with hd
      · exact .admitted
      · refine .deferred ?_
        unfold consume at hc
        split_ifs at hc
        · cases Except.ok.inj hc
          simp at hd
        · cases Except.ok.inj hc
          simpa using hd
  | reloadAction n =>
    have hv := (exec_selectAction h).2
    rw [view_eq_committed hw] at hv
    simp only [BatchPc.resume] at hn
    split at hn <;> cases Except.ok.inj hn
    next ha => exact .reloadMissing (hv ▸ ha)
    next a ha => exact .reloadedAction (hv ▸ ha)
  | reloadBatch n a =>
    have hv := (exec_selectBatch h).2
    rw [view_eq_committed hw] at hv
    simp only [BatchPc.resume] at hn
    split at hn
    next => simp at hn
    next b hb =>
      cases Except.ok.inj hn
      split_ifs with hc
      · exact .finishedMeanwhile (hv ▸ hb) hc
      · exact .reloadedBatch (hv ▸ hb) hc
  | finalizeSelect after =>
    have hv := (exec_selectFinalizable h).2
    rw [view_eq_committed hw] at hv
    simp only [BatchPc.resume] at hn
    split at hn <;> cases Except.ok.inj hn
    next ha => exact .notFinalizable (not_finalizable_of_filter (hv ▸ ha))
    next a ha =>
      obtain ⟨hca, hfin⟩ := Option.filter_eq_some_iff.mp (hv ▸ ha)
      exact .finalizable hca hfin
  | finalizeUpdate after st =>
    cases Except.ok.inj hn
    apply BatchMove.finalizeUpdate
    rcases exec_updateAction h with ⟨hnone, _, _⟩ | ⟨a, _, _, _, rfl, _⟩
    · rw [view_eq_committed hw] at hnone
      refine Or.inr (not_finalizable_of_filter ?_)
      rwa [show (ActionUpdate.finalize st).applies = BulkAction.isFinalizable from
        funext fun a => finalize_applies_iff] at hnone
    · exact Or.inl (by simp)
  | refresh n r =>
    simp only [BatchPc.resume] at hn
    split at hn <;> cases Except.ok.inj hn
    · exact .refreshMissing
    · exact .refreshed
  | finalizeCommit after =>
    cases after <;> cases Except.ok.inj hn
    · exact .finalizeCommit
    · exact .failedCommit
  | done ret => simp [Proc.running] at hr
  | _ => cases Except.ok.inj hn; constructor

/-- What a statement publishes: nothing, or the effect of a commit. -/
def Publishes (env : Env) (c : Tables) (proc : Proc) (c' : Tables) : Prop :=
  (c' = c ∧ proc.stmt env ≠ .commit) ∨
    (proc.stmt env = .commit ∧ Effect env.settings c proc c')

/-- Everything a step of a consistent state can do. -/
inductive Moves (env : Env) (s : Sys) : Label → Sys → Prop where
  | deliver {p job} : s.procs p = .idle → job ∈ s.world.queue →
      Moves env s (.deliver p job)
        (s.set { s.world with queue := s.world.queue.erase job } p job.proc)
  | duplicate {p job} : s.procs p = .idle →
      Moves env s (.duplicate p job) (s.set s.world p job.proc)
  | redeliver {p job} : s.procs p = .lost job →
      Moves env s (.redeliver p) (s.set s.world p job.again.proc)
  | cancel {p} : s.procs p = .idle →
      Moves env s (.cancel p) (s.set s.world p (.cancel .loadAction))
  | batch {p ext job pc next w reply} : s.procs p = .batch job pc →
      s.world.exec p ext.now (pc.stmt env.settings job) = some (w, reply) →
      BatchMove env.text job ext s.world.committed (w.db.writes p) pc next →
      Publishes env s.world.committed (.batch job pc) w.committed →
      Moves env s (.run p ext) (s.set w p (.batch job next))
  | refused {p ext job limit n} : s.procs p = .batch job (.rateLimit limit n) →
      Moves env s (.run p ext) (s.set (s.world.rollback p) p (.lost (.batch job)))
  | plan {p ext pc next w reply} : s.procs p = .plan pc → (Proc.plan pc).running →
      s.world.exec p ext.now pc.stmt = some (w, reply) → pc.resume ext reply = .ok next →
      Publishes env s.world.committed (.plan pc) w.committed →
      Moves env s (.run p ext) (s.set w p (.plan next))
  | planFailed {p ext error w reply} : s.procs p = .plan (.failCommit error) →
      s.world.exec p ext.now .commit = some (w, reply) →
      Publishes env s.world.committed (.plan (.failCommit error)) w.committed →
      Moves env s (.run p ext) (s.set (w.rollback p) p (.lost .plan))
  | cancelling {p ext pc w reply} : s.procs p = .cancel pc → (Proc.cancel pc).running →
      s.world.exec p ext.now pc.stmt = some (w, reply) →
      Publishes env s.world.committed (.cancel pc) w.committed →
      Moves env s (.run p ext) (s.set w p (.cancel (pc.resume reply)))
  | raise {p error} : (s.procs p).running → ¬ (s.procs p).publishing →
      Moves env s (.raise p error)
        (s.set (s.world.rollback p) p ((s.procs p).handler env error))
  | swallow {p job n r payload error} : s.procs p = .batch job (.publish n r payload) →
      Moves env s (.raise p error)
        (s.set s.world p (.batch job (.finalizeCommit (.batchDone n r))))
  | crash {p} : (s.procs p).running →
      Moves env s (.crash p) (s.set (s.world.rollback p) p (s.procs p).killed)

theorem run_moves {env : Env} {s : Sys} {p : Pid} {ext : External} {w : World} {reply : Reply}
    {next : Proc} (hs : Consistent env s) (hr : (s.procs p).running)
    (he : s.world.exec p ext.now ((s.procs p).stmt env) = some (w, reply))
    (hn : (s.procs p).resume env ext reply = .ok next) :
    Moves env s (.run p ext) (s.set w p next) := by
  have hpub : Publishes env s.world.committed (s.procs p) w.committed := exec_effect hs he
  have hw := hs.wrote p
  cases hp : s.procs p with
  | batch job pc =>
    rw [hp] at hr he hn hpub hw
    obtain ⟨pc', hpc, rfl⟩ := batch_resume_ok hn
    exact .batch hp he (batch_moves hw hr he hpc) hpub
  | plan pc =>
    rw [hp] at hr he hn hpub
    obtain ⟨pc', hpc, rfl⟩ := plan_resume_ok hn
    exact .plan hp hr he hpc hpub
  | cancel pc =>
    rw [hp] at hr he hn hpub
    cases Except.ok.inj hn
    exact .cancelling hp hr he hpub
  | idle => simp [hp, Proc.running] at hr
  | lost job => simp [hp, Proc.running] at hr

theorem fail_moves {env : Env} {s : Sys} {p : Pid} {ext : External} {w : World} {reply : Reply}
    {error : String} (hs : Consistent env s)
    (he : s.world.exec p ext.now ((s.procs p).stmt env) = some (w, reply))
    (hn : (s.procs p).resume env ext reply = .error error) :
    Moves env s (.run p ext) (s.set (w.rollback p) p ((s.procs p).handler env error)) := by
  have hpub : Publishes env s.world.committed (s.procs p) w.committed := exec_effect hs he
  have hpres := hs.present p
  rcases resume_error hn with ⟨e, hp⟩ | ⟨job, limit, n, hp⟩ | ⟨job, n, a, hp, hb⟩
  · rw [hp] at he hpub ⊢
    exact .planFailed hp he hpub
  · rw [hp] at he ⊢
    cases exec_skip he
    exact .refused hp
  · rw [hp] at he hpres
    have hrow := (exec_selectBatch he).2
    have hsome := view_batch_isSome (p := p) hpres.2
    simp [← hrow, hb] at hsome

theorem step_moves {env : Env} {s s' : Sys} {l : Label} (hs : Consistent env s)
    (h : s.step env l = some s') : Moves env s l s' := by
  cases step_happens h with
  | deliver hp hm => exact .deliver hp hm
  | duplicate hp => exact .duplicate hp
  | redeliver hp => exact .redeliver hp
  | cancel hp => exact .cancel hp
  | run hr he hn => exact run_moves hs hr he hn
  | fail _ he hn => exact fail_moves hs he hn
  | raise hr hpub => exact .raise hr hpub
  | swallow hp => exact .swallow hp
  | crash hr => exact .crash hr

end BulkActions
