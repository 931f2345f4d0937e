import BulkActions.Moves
import BulkActions.RowSums

namespace BulkActions

/-- The points at which a delivery has still to count its batch. -/
def BatchPc.beforeCount : BatchPc → Bool
  | .cancelBatch => false
  | .cancelCommit => false
  | .finalizeSelect _ => false
  | .finalizeUpdate _ _ => false
  | .refresh _ _ => false
  | .publish _ _ _ => false
  | .finalizeCommit _ => false
  | .logCompleted _ _ => false
  | .done _ => false
  | _ => true

/-- The points from which a delivery goes on to finalise the action, with `ws` its open
writes. -/
def BatchPc.finalising (ws : List Write) : BatchPc → Prop
  | .finalizeSelect _ => True
  | .finalizeUpdate _ _ => True
  | .refresh _ _ => ws ≠ []
  | .publish _ _ _ => ws ≠ []
  | .finalizeCommit _ => ws ≠ []
  | .markBatch _ _ => True
  | .markOutcomes _ _ => True
  | .markRecord _ _ => True
  | .markCommit _ _ => True
  | _ => False

/-- A process that will run batch `i`, or have it run. -/
def Proc.holds (i : Nat) : Proc → Prop
  | .batch job pc => job.index = i ∧ pc.beforeCount
  | .lost (.batch job) => job.index = i
  | .plan (.enqueueJobs _ rows _) => ∃ row ∈ rows, row.batchIndex = i
  | _ => False

def Proc.finalising (ws : List Write) : Proc → Prop
  | .batch _ pc => pc.finalising ws
  | _ => False

/-- Batch `i` is queued, running before its count, interrupted, or about to be enqueued. -/
def Sys.Token (s : Sys) (i : Nat) : Prop :=
  (∃ job : BatchJob, .batch job ∈ s.world.queue ∧ job.index = i) ∨ ∃ p, (s.procs p).holds i

/-- Somebody is left to finalise the action: a job whose row is not completed, or a
delivery on its way through the finalisation. -/
def Sys.Live (s : Sys) : Prop :=
  (∃ i b, s.world.committed.batches i = some b ∧ b.status ≠ .completed ∧ s.Token i) ∨
    ∃ p, (s.procs p).finalising (s.world.db.writes p)

/-- The invariant of the finalisation. -/
structure Finalisable (env : Env) (s : Sys) : Prop where
  consistent : Consistent env s
  present : s.world.committed.action.isSome
  uncancelled : ∀ a, s.world.committed.action = some a → a.status ≠ .cancelled
  path : ∀ p job pc, s.procs p = .batch job pc →
    pc ≠ .cancelBatch ∧ pc ≠ .cancelCommit ∧ ∀ a, pc = .loadBatch a → a.status ≠ .cancelled
  counted : ∀ n a, s.world.committed.action = some a →
    rowSum n finishedValue s.world.committed.batches ≤ a.completedBatches
  rows : ∀ a, s.world.committed.action = some a → a.status = .processing →
    ∀ i, i < a.totalBatches → (s.world.committed.batches i).isSome
  tokens : ∀ i b, s.world.committed.batches i = some b → ¬ b.finished → s.Token i
  live : ∀ a, s.world.committed.action = some a → a.status = .processing → s.Live

/-- While the action is incomplete, some row is unfinished, and its job finalises later. -/
theorem live_of_incomplete {s : Sys} {a : BulkAction}
    (counted : rowSum a.totalBatches finishedValue s.world.committed.batches ≤ a.completedBatches)
    (rows : ∀ i, i < a.totalBatches → (s.world.committed.batches i).isSome)
    (tokens : ∀ i b, s.world.committed.batches i = some b → ¬ b.finished → s.Token i)
    (hlt : a.completedBatches < a.totalBatches) : s.Live := by
  by_contra hdead
  have all : ∀ i, i < a.totalBatches → finishedValue (s.world.committed.batches i) = 1 := by
    intro i hi
    obtain ⟨b, hb⟩ := Option.isSome_iff_exists.mp (rows i hi)
    by_cases hf : b.finished
    · simp [hb, finishedValue, hf]
    · refine absurd (Or.inl ⟨i, b, hb, ?_, tokens i b hb hf⟩) hdead
      rintro hc
      simp [BulkActionBatch.finished, hc] at hf
  have hsum : rowSum a.totalBatches finishedValue s.world.committed.batches = a.totalBatches := by
    unfold rowSum
    rw [Finset.sum_congr rfl (fun i hi => all i (Finset.mem_range.mp hi))]
    simp
  omega

/-- A job is never dropped before its batch is counted, except when the row turns out to be
completed. -/
theorem batchMove_beforeCount {text : PyText} {job : BatchJob} {ext : External} {c : Tables}
    {ws : List Write} {pc next : BatchPc} {b : BulkActionBatch}
    (h : BatchMove text job ext c ws pc next) (hpc : pc.beforeCount) (ha : c.action.isSome)
    (hb : c.batches job.index = some b) (hpath : ∀ a, pc = .loadBatch a → a.status ≠ .cancelled) :
    next.beforeCount ∨ b.status = .completed ∨ (∃ ms, pc = .enqueueDeferred ms) ∨
      (∃ n r, pc = .workCommit n r) ∨ ∃ n error, pc = .markCommit n error := by
  cases h with
  | actionMissing hn => simp [hn] at ha
  | batchMissing hn => simp [hn] at hb
  | finished hb' hc =>
    cases Option.some.inj (hb.symm.trans hb')
    exact Or.inr (Or.inl hc)
  | toCancel _ _ hx => exact absurd hx (hpath _ rfl)
  | enqueueDeferred => exact Or.inr (Or.inr (Or.inl ⟨_, rfl⟩))
  | reloadMissing hn => simp [hn] at ha
  | finishedMeanwhile hb' hc =>
    cases Option.some.inj (hb.symm.trans hb')
    exact Or.inr (Or.inl hc)
  | workCommit => exact Or.inr (Or.inr (Or.inr (Or.inl ⟨_, _, rfl⟩)))
  | markCommit => exact Or.inr (Or.inr (Or.inr (Or.inr ⟨_, _, rfl⟩)))
  | _ => first | exact Or.inl rfl | simp [BatchPc.beforeCount] at hpc

/-- A delivery leaves the finalisation by committing it, or because the action is not
complete. -/
theorem run_finalising {env : Env} {w w' : World} {p : Pid} {ext : External} {reply : Reply}
    {job : BatchJob} {pc next : BatchPc} (hpc : pc.finalising (w.db.writes p))
    (he : w.exec p ext.now (pc.stmt env.settings job) = some (w', reply))
    (hm : BatchMove env.text job ext w.committed (w'.db.writes p) pc next) :
    next.finalising (w'.db.writes p) ∨
      ((∀ a, w.committed.action = some a → ¬ a.isFinalizable) ∧
        pc.stmt env.settings job ≠ .commit) ∨
      ∃ after, pc = .finalizeCommit after := by
  cases hm with
  | notFinalizable hn => exact Or.inr (Or.inl ⟨hn, by simp [BatchPc.stmt]⟩)
  | finalizable _ _ => exact Or.inl trivial
  | @finalizeUpdate after st hcase =>
    rcases hcase with hws | hn
    · refine Or.inl ?_
      cases after <;> exact hws
    · exact Or.inr (Or.inl ⟨hn, by simp [BatchPc.stmt]⟩)
  | refreshMissing =>
    obtain ⟨rfl, _⟩ := exec_selectAction he
    exact Or.inl hpc
  | refreshed =>
    obtain ⟨rfl, _⟩ := exec_selectAction he
    exact Or.inl hpc
  | publish =>
    cases exec_publish he
    exact Or.inl hpc
  | finalizeCommit => exact Or.inr (Or.inr ⟨_, rfl⟩)
  | failedCommit => exact Or.inr (Or.inr ⟨_, rfl⟩)
  | markBatch => exact Or.inl trivial
  | markOutcomes => exact Or.inl trivial
  | markRecord => exact Or.inl trivial
  | markCommit => exact Or.inl trivial
  | _ => exact hpc.elim

/-- Committing a pending finalisation takes the action out of processing. -/
theorem finalizeCommit_status {w w' : World} {p : Pid} {now : Timestamp} {reply : Reply}
    (hw : FinalizeWrites (w.db.writes p)) (hne : w.db.writes p ≠ [])
    (he : w.exec p now .commit = some (w', reply)) :
    ∀ a, w'.committed.action = some a → a.status ≠ .processing := by
  rcases hw with hnil | ⟨k, now', hws⟩
  · exact absurd hnil hne
  · intro a ha
    rw [exec_commit he] at ha
    simp only [World.committed, ReadCommitted.Store.commit_committed, hws] at ha
    obtain ⟨a₀, _, rfl⟩ := Option.map_eq_some_iff.mp ha
    rcases finalStatus_cases k with hk | hk <;> simp [ActionUpdate.set, hk]

theorem batchMove_path_live {text : PyText} {job : BatchJob} {ext : External} {c : Tables}
    {ws : List Write} {pc next : BatchPc} (h : BatchMove text job ext c ws pc next)
    (hx : ∀ a, c.action = some a → a.status ≠ .cancelled)
    (hpc : pc ≠ .cancelBatch ∧ pc ≠ .cancelCommit ∧
      ∀ a, pc = .loadBatch a → a.status ≠ .cancelled) :
    next ≠ .cancelBatch ∧ next ≠ .cancelCommit ∧
      ∀ a, next = .loadBatch a → a.status ≠ .cancelled := by
  cases h with
  | loadedAction ha =>
    refine ⟨by simp, by simp, ?_⟩
    intro a he
    cases he
    exact hx _ ha
  | toCancel _ _ hst => exact absurd hst (hpc.2.2 _ rfl)
  | cancelBatch => exact absurd rfl hpc.1
  | cancelCommit => exact absurd rfl hpc.2.1
  | @notFinalizable after _ => cases after <;> simp [BatchPc.afterFinalize]
  | @finalizeUpdate after _ _ => cases after <;> simp [BatchPc.afterFinalize]
  | _ => simp

/-- The count of finished rows grows only with `completed_batches`. -/
theorem effect_finished_count {settings : Settings} {c c' : Tables} {job : BatchJob} {pc : BatchPc}
    (h : Effect settings c (.batch job pc) c') (hpc : pc ≠ .cancelCommit)
    (hc : ∀ n a, c.action = some a → rowSum n finishedValue c.batches ≤ a.completedBatches) :
    ∀ n a, c'.action = some a → rowSum n finishedValue c'.batches ≤ a.completedBatches := by
  have done : ∀ o : Option BulkActionBatch, finishedValue o ≤ 1 := by
    intro o
    unfold finishedValue
    split <;> [skip; split] <;> simp
  cases h with
  | batchCancelled => exact absurd rfl hpc
  | attempt _ =>
    intro n a ha
    have hzero : ∀ now,
        finishedValue ((c.batches job.index).map (BatchUpdate.recordAttempt.set now)) = 0 := by
      cases c.batches job.index <;> exact fun _ => rfl
    refine (rowSum_update_le _ _ _ _ _).trans ?_
    rw [hzero]
    exact hc n a ha
  | attemptLate => exact hc
  | work =>
    intro n a ha
    obtain ⟨a₀, ha₀, rfl⟩ := Option.map_eq_some_iff.mp ha
    exact (rowSum_update_le _ _ _ _ _).trans (Nat.add_le_add (hc n a₀ ha₀) (done _))
  | finalized _ =>
    intro n a ha
    obtain ⟨a₀, ha₀, rfl⟩ := Option.map_eq_some_iff.mp ha
    exact hc n a₀ ha₀
  | notFinalized => exact hc
  | batchFailed =>
    intro n a ha
    obtain ⟨a₀, ha₀, rfl⟩ := Option.map_eq_some_iff.mp ha
    exact (rowSum_update_le _ _ _ _ _).trans (Nat.add_le_add (hc n a₀ ha₀) (done _))

theorem token_set {s : Sys} {w : World} {p : Pid} {proc : Proc} {i : Nat} (h : s.Token i)
    (hq : ∀ job : BatchJob, job.index = i → .batch job ∈ s.world.queue →
      (s.set w p proc).Token i)
    (hp : (s.procs p).holds i → (s.set w p proc).Token i) : (s.set w p proc).Token i := by
  rcases h with ⟨job, hj, hi⟩ | ⟨q, hold⟩
  · exact hq job hi hj
  · by_cases hqp : q = p
    · exact hp (hqp ▸ hold)
    · refine Or.inr ⟨q, ?_⟩
      rwa [set_procs_ne _ _ _ hqp]

theorem token_self {s : Sys} {w : World} {p : Pid} {proc : Proc} {i : Nat} (h : proc.holds i) :
    (s.set w p proc).Token i :=
  Or.inr ⟨p, by rwa [set_procs_self]⟩

theorem token_queue {s : Sys} {w : World} {p : Pid} {proc : Proc} {job : BatchJob}
    (h : .batch job ∈ w.queue) : (s.set w p proc).Token job.index :=
  Or.inl ⟨job, h, rfl⟩

/-- A row that is unfinished after a commit of its delivery was so before, or has just been
attempted. -/
theorem effect_unfinished_row {settings : Settings} {c c' : Tables} {job : BatchJob} {pc : BatchPc}
    {b : BulkActionBatch} (h : Effect settings c (.batch job pc) c') (hpc : pc ≠ .cancelCommit)
    (hb : c'.batches job.index = some b) (hf : ¬ b.finished) :
    (∃ n, pc = .attemptCommit n) ∨ (c.batches job.index = some b ∧ ¬ pc.beforeCount) := by
  have closed : ∀ {u : BatchUpdate} {now}, (∀ b, (u.set now b).finished) →
      (c.updateBatch job.index u now).batches job.index ≠ some b := by
    intro u now hu hb
    simp only [Tables.updateBatch_batches, Function.update_self, Option.map_eq_some_iff] at hb
    obtain ⟨b₀, _, rfl⟩ := hb
    exact hf (hu b₀)
  cases h with
  | batchCancelled => exact absurd rfl hpc
  | attempt _ => exact Or.inl ⟨_, rfl⟩
  | attemptLate => exact Or.inl ⟨_, rfl⟩
  | work => exact absurd hb (closed fun _ => rfl)
  | finalized _ => exact Or.inr ⟨hb, by simp [BatchPc.beforeCount]⟩
  | notFinalized => exact Or.inr ⟨hb, by simp [BatchPc.beforeCount]⟩
  | batchFailed => exact absurd hb (closed fun _ => rfl)

/-- A row is completed by a delivery that then finalises. -/
theorem row_completed {env : Env} {job : BatchJob} {ext : External} {c c' : Tables}
    {ws : List Write} {pc next : BatchPc} {i : Nat} {b : BulkActionBatch}
    (hm : BatchMove env.text job ext c ws pc next) (hpub : Publishes env c (.batch job pc) c')
    (hb : c.batches i = some b) (hne : b.status ≠ .completed) :
    (∃ b', c'.batches i = some b' ∧ b'.status ≠ .completed) ∨ next.finalising ws := by
  rcases hpub with ⟨rfl, _⟩ | ⟨_, heff⟩
  · exact Or.inl ⟨b, hb, hne⟩
  · by_cases hi : i = job.index
    · subst hi
      have updated : ∀ (u : BatchUpdate) now, (u.set now b).status ≠ .completed →
          ∃ b', (c.updateBatch job.index u now).batches job.index = some b' ∧
            b'.status ≠ .completed :=
        fun u now hu => ⟨u.set now b, by simp [hb], hu⟩
      cases heff with
      | work => cases hm; exact Or.inr trivial
      | batchCancelled => exact Or.inl (updated _ _ (by simp [BatchUpdate.set]))
      | attempt _ => exact Or.inl (updated _ _ (by simp [BatchUpdate.set]))
      | batchFailed => exact Or.inl (updated _ _ (by simp [BatchUpdate.set]))
      | _ => exact Or.inl ⟨b, hb, hne⟩
    · exact Or.inl ⟨b, by rw [batch_effect_ne heff hi]; exact hb, hne⟩

section

variable {env : Env} {s : Sys} {p : Pid} {ext : External} {job : BatchJob} {pc next : BatchPc}
  {w : World} {reply : Reply}

/-- A step of a delivery loses a job only when it counts the batch or finds it completed. -/
theorem token_batch (hs : Finalisable env s) (hp : s.procs p = .batch job pc)
    (he : s.world.exec p ext.now (pc.stmt env.settings job) = some (w, reply))
    (hm : BatchMove env.text job ext s.world.committed (w.db.writes p) pc next) {i : Nat}
    {b : BulkActionBatch} (hb : s.world.committed.batches i = some b) (ht : s.Token i) :
    (s.set w p (.batch job next)).Token i ∨ b.status = .completed ∨
      (job.index = i ∧ pc.beforeCount ∧ pc.stmt env.settings job = .commit ∧
        next.finalising (w.db.writes p)) := by
  by_cases hold : job.index = i ∧ pc.beforeCount
  · obtain ⟨rfl, hpc⟩ := hold
    rcases batchMove_beforeCount hm hpc hs.present hb (hs.path p job pc hp).2.2 with
      hn | hc | ⟨ms, rfl⟩ | ⟨n, r, rfl⟩ | ⟨n, error, rfl⟩
    · exact Or.inl (token_self ⟨rfl, hn⟩)
    · exact Or.inr (Or.inl hc)
    · rw [exec_enqueue he]
      exact Or.inl (Or.inl ⟨⟨job.index, job.deferrals + 1, 1⟩, by simp, rfl⟩)
    · cases hm
      exact Or.inr (Or.inr ⟨rfl, rfl, rfl, trivial⟩)
    · cases hm
      exact Or.inr (Or.inr ⟨rfl, rfl, rfl, trivial⟩)
  · refine Or.inl (token_set ht ?_ ?_)
    · rintro job' rfl hj
      exact token_queue (exec_queue_mem he hj)
    · intro hh
      rw [hp] at hh
      exact absurd hh hold

theorem tokens_batch (hs : Finalisable env s) (hp : s.procs p = .batch job pc)
    (he : s.world.exec p ext.now (pc.stmt env.settings job) = some (w, reply))
    (hm : BatchMove env.text job ext s.world.committed (w.db.writes p) pc next)
    (hpub : Publishes env s.world.committed (.batch job pc) w.committed) {i : Nat}
    {b : BulkActionBatch} (hb : w.committed.batches i = some b) (hf : ¬ b.finished) :
    (s.set w p (.batch job next)).Token i := by
  have kept : s.world.committed.batches i = some b →
      (pc.stmt env.settings job = .commit → job.index = i → ¬ pc.beforeCount) →
      (s.set w p (.batch job next)).Token i := by
    intro hb hpc
    rcases token_batch hs hp he hm hb (hs.tokens i b hb hf) with ht | hc | ⟨hi, hbc, hst, _⟩
    · exact ht
    · simp [BulkActionBatch.finished, hc] at hf
    · exact absurd hbc (hpc hst hi)
  rcases hpub with ⟨hw, hst⟩ | ⟨hst, heff⟩
  · exact kept (hw ▸ hb) (fun hc => absurd hc hst)
  · by_cases hi : i = job.index
    · subst hi
      rcases effect_unfinished_row heff (hs.path p job pc hp).2.1 hb hf with ⟨n, rfl⟩ | ⟨hb, hpc⟩
      · cases hm
        exact token_self ⟨rfl, rfl⟩
      · exact kept hb (fun _ _ => hpc)
    · rw [batch_effect_ne heff hi] at hb
      exact kept hb (fun _ hi' => absurd hi'.symm hi)

theorem live_batch (hs : Finalisable env s) (hp : s.procs p = .batch job pc)
    (he : s.world.exec p ext.now (pc.stmt env.settings job) = some (w, reply))
    (hm : BatchMove env.text job ext s.world.committed (w.db.writes p) pc next)
    (hpub : Publishes env s.world.committed (.batch job pc) w.committed) {a : BulkAction}
    (ha : w.committed.action = some a) (hst : a.status = .processing) :
    (s.set w p (.batch job next)).Live := by
  have tokens : ∀ i b, w.committed.batches i = some b → ¬ b.finished →
      (s.set w p (.batch job next)).Token i :=
    fun i b hb hf => tokens_batch hs hp he hm hpub hb hf
  have finaliser : next.finalising (w.db.writes p) → (s.set w p (.batch job next)).Live :=
    fun hf => Or.inr ⟨p, by rw [set_procs_self]; exact hf⟩
  obtain ⟨a₀, ha₀, htot, hst₀⟩ : ∃ a₀, s.world.committed.action = some a₀ ∧
      a.totalBatches = a₀.totalBatches ∧ a₀.status = .processing := by
    rcases hpub with ⟨hw, _⟩ | ⟨_, heff⟩
    · exact ⟨a, hw ▸ ha, rfl, hst⟩
    · obtain ⟨a₀, ha₀, htot, hsame | ⟨_, k, hk⟩⟩ := batch_effect_action heff ha
      · exact ⟨a₀, ha₀, htot, hsame ▸ hst⟩
      · rcases finalStatus_cases k with hk' | hk' <;> simp [hk, hk'] at hst
  rcases hs.live a₀ ha₀ hst₀ with ⟨i, b, hb, hne, ht⟩ | ⟨q, hq⟩
  · rcases token_batch hs hp he hm hb ht with ht | hc | ⟨_, _, _, hfin⟩
    · rcases row_completed hm hpub hb hne with ⟨b', hb', hne'⟩ | hfin
      · exact Or.inl ⟨i, b', hb', hne', ht⟩
      · exact finaliser hfin
    · exact absurd hc hne
    · exact finaliser hfin
  · by_cases hqp : q = p
    · subst hqp
      rw [hp] at hq
      rcases run_finalising hq he hm with hfin | ⟨hnot, hstmt⟩ | ⟨after, rfl⟩
      · exact finaliser hfin
      · obtain ⟨hw, _⟩ | ⟨hcommit, _⟩ := hpub
        · rw [hw, ha₀] at ha
          obtain rfl := Option.some.inj ha
          have hlt : a₀.completedBatches < a₀.totalBatches := by
            simpa [BulkAction.isFinalizable, hst] using hnot a₀ ha₀
          exact live_of_incomplete (hw ▸ hs.counted _ a₀ ha₀) (hw ▸ hs.rows a₀ ha₀ hst)
            tokens hlt
        · exact absurd hcommit hstmt
      · have hw := hs.consistent.wrote q
        rw [hp] at hw
        exact absurd hst (finalizeCommit_status hw hq he a ha)
    · refine Or.inr ⟨q, ?_⟩
      rw [set_procs_ne _ _ _ hqp, set_world, exec_writes_ne he hqp]
      exact hq

/-- A step of a delivery keeps the invariant. -/
theorem finalisable_batch (hs : Finalisable env s)
    (hc : Consistent env (s.set w p (.batch job next))) (hp : s.procs p = .batch job pc)
    (he : s.world.exec p ext.now (pc.stmt env.settings job) = some (w, reply))
    (hm : BatchMove env.text job ext s.world.committed (w.db.writes p) pc next)
    (hpub : Publishes env s.world.committed (.batch job pc) w.committed) :
    Finalisable env (s.set w p (.batch job next)) where
  consistent := hc
  present := (exec_action_isSome he).trans hs.present
  uncancelled := by
    rcases hpub with ⟨hw, _⟩ | ⟨_, heff⟩
    · exact hw ▸ hs.uncancelled
    · intro a ha
      obtain ⟨a₀, ha₀, _, hst | ⟨_, k, hk⟩⟩ := batch_effect_action heff ha
      · rw [hst]
        exact hs.uncancelled a₀ ha₀
      · rcases finalStatus_cases k with hk' | hk' <;> simp [hk, hk']
  path := by
    intro q job' pc' hq
    by_cases hqp : q = p
    · subst hqp
      rw [set_procs_self] at hq
      cases hq
      exact batchMove_path_live hm hs.uncancelled (hs.path q job pc hp)
    · rw [set_procs_ne _ _ _ hqp] at hq
      exact hs.path q job' pc' hq
  counted := by
    rcases hpub with ⟨hw, _⟩ | ⟨_, heff⟩
    · exact hw ▸ hs.counted
    · exact effect_finished_count heff (hs.path p job pc hp).2.1 hs.counted
  rows := by
    rcases hpub with ⟨hw, _⟩ | ⟨_, heff⟩
    · exact hw ▸ hs.rows
    · intro a ha hst i hi
      rw [set_world, batch_effect_isSome heff]
      obtain ⟨a₀, ha₀, htot, hst₀ | ⟨_, k, hk⟩⟩ := batch_effect_action heff ha
      · exact hs.rows a₀ ha₀ (hst₀ ▸ hst) i (htot ▸ hi)
      · rcases finalStatus_cases k with hk' | hk' <;> simp [hk, hk'] at hst
  tokens := fun i b hb hf => tokens_batch hs hp he hm hpub hb hf
  live := fun a ha hst => live_batch hs hp he hm hpub ha hst

end

/-- No job is queued, running or interrupted. -/
structure Sys.Quiescent (s : Sys) : Prop where
  queue : ∀ job, .batch job ∉ s.world.queue
  returned : ∀ p, ¬ (s.procs p).running
  settled : ∀ p job, s.procs p ≠ .lost job

def Proc.returned : Proc → Bool
  | .idle => true
  | .plan (.done _) => true
  | .batch _ (.done _) => true
  | .cancel (.done _) => true
  | _ => false

theorem quiescent_of_returned {s : Sys} (hq : s.world.queue = [])
    (h : ∀ p, (s.procs p).returned) : s.Quiescent := by
  refine ⟨by simp [hq], ?_, ?_⟩
  · intro p
    have hp := h p
    unfold Proc.returned at hp
    split at hp <;> simp_all [Proc.running]
  · intro p job hp
    simpa [hp, Proc.returned] using h p

theorem Sys.Quiescent.not_live {s : Sys} (h : s.Quiescent) : ¬ s.Live := by
  have stopped : ∀ p job pc, s.procs p = .batch job pc → ∃ ret, pc = .done ret := by
    intro p job pc hp
    have hr := h.returned p
    rw [hp] at hr
    cases pc <;> simp_all [Proc.running]
  rintro (⟨i, b, _, _, ⟨job, hj, _⟩ | ⟨p, hold⟩⟩ | ⟨p, hfin⟩)
  · exact h.queue job hj
  · cases hp : s.procs p with
    | batch job pc =>
      obtain ⟨ret, rfl⟩ := stopped p job pc hp
      simp [hp, Proc.holds, BatchPc.beforeCount] at hold
    | lost job => exact h.settled p job hp
    | plan pc =>
      have hr := h.returned p
      rw [hp] at hold hr
      cases pc <;> simp_all [Proc.holds, Proc.running]
    | _ => simp [hp, Proc.holds] at hold
  · cases hp : s.procs p with
    | batch job pc =>
      obtain ⟨ret, rfl⟩ := stopped p job pc hp
      simp [hp, Proc.finalising, BatchPc.finalising] at hfin
    | _ => simp [hp, Proc.finalising] at hfin

theorem live_set {s : Sys} {w : World} {p : Pid} {proc : Proc} (h : s.Live)
    (hw : w.committed = s.world.committed)
    (writes : ∀ q, q ≠ p → w.db.writes q = s.world.db.writes q)
    (tokens : ∀ i, s.Token i → (s.set w p proc).Token i)
    (hp : (s.procs p).finalising (s.world.db.writes p) → (s.set w p proc).Live) :
    (s.set w p proc).Live := by
  rcases h with ⟨i, b, hb, hne, ht⟩ | ⟨q, hq⟩
  · exact Or.inl ⟨i, b, by rwa [set_world, hw], hne, tokens i ht⟩
  · by_cases hqp : q = p
    · exact hp (hqp ▸ hq)
    · refine Or.inr ⟨q, ?_⟩
      rw [set_procs_ne _ _ _ hqp, set_world, writes q hqp]
      exact hq

/-- A step that publishes nothing, loses no job and leaves a finaliser. -/
theorem finalisable_quiet {env : Env} {s : Sys} {w : World} {p : Pid} {proc : Proc}
    (hs : Finalisable env s) (hc : Consistent env (s.set w p proc))
    (hw : w.committed = s.world.committed)
    (writes : ∀ q, q ≠ p → w.db.writes q = s.world.db.writes q)
    (path : ∀ job pc, proc = .batch job pc →
      pc ≠ .cancelBatch ∧ pc ≠ .cancelCommit ∧ ∀ a, pc = .loadBatch a → a.status ≠ .cancelled)
    (tokens : ∀ i, s.Token i → (s.set w p proc).Token i)
    (live : (s.procs p).finalising (s.world.db.writes p) → (s.set w p proc).Live) :
    Finalisable env (s.set w p proc) where
  consistent := hc
  present := hw ▸ hs.present
  uncancelled := hw ▸ hs.uncancelled
  path := by
    intro q job pc hq
    by_cases hqp : q = p
    · subst hqp
      exact path job pc (by simpa using hq)
    · rw [set_procs_ne _ _ _ hqp] at hq
      exact hs.path q job pc hq
  counted := hw ▸ hs.counted
  rows := hw ▸ hs.rows
  tokens := fun i b hb hf => tokens i (hs.tokens i b (hw ▸ hb) hf)
  live := fun a ha hst => live_set (hs.live a (hw ▸ ha) hst) hw writes tokens live

/-- An interruption of `p` leaves somebody to finalise: its row is not completed, so that the
redelivered job runs the batch again, or another job is left. -/
def LeavesFinaliser (s : Sys) (p : Pid) : Prop :=
  ∀ job pc, s.procs p = .batch job pc → pc.finalising (s.world.db.writes p) →
    (∀ b, s.world.committed.batches job.index = some b → b.status ≠ .completed) ∨
    (s.set s.world p .idle).Live

theorem finalising_present {job : BatchJob} {pc : BatchPc} {ws : List Write} {c : Tables}
    (h : pc.finalising ws) (hp : pc.Present job c) : (c.batches job.index).isSome := by
  cases pc with
  | finalizeUpdate after st => exact hp.2.1
  | _ => first | exact hp.2 | exact h.elim

theorem set_idle_set (s : Sys) (w w' : World) (p : Pid) (proc : Proc) :
    (s.set w p .idle).set w' p proc = s.set w' p proc := by
  simp [Sys.set]

section

variable {env : Env} {s : Sys} {p : Pid} {w : World} {job : BatchJob} {pc : BatchPc}

/-- A worker that starts a job takes over the job's token. -/
theorem finalisable_start (hs : Finalisable env s)
    (hc : Consistent env (s.set w p (.batch job .loadAction))) (hdb : w.db = s.world.db)
    (hqueue : ∀ job' : BatchJob, job'.index ≠ job.index → .batch job' ∈ s.world.queue →
      .batch job' ∈ w.queue)
    (hidle : ∀ i, (s.procs p).holds i → i = job.index)
    (hfin : ¬ (s.procs p).finalising (s.world.db.writes p)) :
    Finalisable env (s.set w p (.batch job .loadAction)) := by
  apply finalisable_quiet hs hc (by simp [World.committed, hdb]) (fun q _ => by rw [hdb])
  · intro job' pc' he
    cases he
    simp
  · intro i ht
    by_cases hi : i = job.index
    · exact token_self ⟨hi.symm, rfl⟩
    · refine token_set ht ?_ (fun hold => absurd (hidle i hold) hi)
      rintro job' rfl hj
      exact token_queue (hqueue job' hi hj)
  · exact fun hf => absurd hf hfin

/-- An interrupted job is kept for redelivery. -/
theorem finalisable_lost (hs : Finalisable env s)
    (hc : Consistent env (s.set (s.world.rollback p) p (.lost (.batch job))))
    (hp : s.procs p = .batch job pc) (hleft : LeavesFinaliser s p) :
    Finalisable env (s.set (s.world.rollback p) p (.lost (.batch job))) := by
  have tokens : ∀ i, s.Token i → (s.set (s.world.rollback p) p (.lost (.batch job))).Token i := by
    intro i ht
    refine token_set ht (fun job' hi hj => hi ▸ token_queue hj) ?_
    intro hold
    rw [hp] at hold
    exact token_self hold.1
  apply finalisable_quiet hs hc rfl (fun q hq => rollback_writes_ne _ hq)
    (fun _ _ he => by cases he) tokens
  intro hfin
  rw [hp] at hfin
  rcases hleft job pc hp hfin with hopen | hlive
  · have hpres := hs.consistent.present p
    rw [hp] at hpres
    obtain ⟨b, hb⟩ := Option.isSome_iff_exists.mp (finalising_present hfin hpres)
    exact Or.inl ⟨job.index, b, hb, hopen b hb, token_self rfl⟩
  · rw [← set_idle_set s s.world]
    refine live_set hlive rfl (fun q hq => rollback_writes_ne _ hq) ?_ ?_
    · intro i ht
      refine token_set ht (fun job' hi hj => hi ▸ token_queue hj) ?_
      intro hold
      simp [Proc.holds] at hold
    · intro hf
      simp [Proc.finalising] at hf

end

end BulkActions
