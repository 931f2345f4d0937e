import BulkActions.OpenWrites

namespace BulkActions

open ReadCommitted

section

variable {w w' : World} {p : Pid} {now : Timestamp} {reply : Reply}

theorem exec_skip (h : w.exec p now .skip = some (w', reply)) : w' = w := by
  cases Option.some.inj h
  rfl

theorem exec_selectAction (h : w.exec p now .selectAction = some (w', reply)) :
    w' = w ∧ reply.action = (w.view p).action := by
  cases Option.some.inj h
  exact ⟨rfl, rfl⟩

theorem exec_selectFinalizable (h : w.exec p now .selectFinalizable = some (w', reply)) :
    w' = w ∧ reply.action = (w.view p).action.filter BulkAction.isFinalizable := by
  cases Option.some.inj h
  exact ⟨rfl, rfl⟩

theorem exec_selectBatch {i : Nat} (h : w.exec p now (.selectBatch i) = some (w', reply)) :
    w' = w ∧ reply.batch = (w.view p).batches i := by
  cases Option.some.inj h
  exact ⟨rfl, rfl⟩

theorem exec_selectAccount (h : w.exec p now .selectAccount = some (w', reply)) : w' = w := by
  cases Option.some.inj h
  rfl

theorem exec_enqueue {job : Job} (h : w.exec p now (.enqueue job) = some (w', reply)) :
    w' = { w with queue := w.queue ++ [job] } := by
  cases Option.some.inj h
  rfl

theorem exec_publish {payload : ProgressPayload}
    (h : w.exec p now (.publish payload) = some (w', reply)) :
    w' = { w with published := w.published ++ [payload] } := by
  cases Option.some.inj h
  rfl

theorem exec_commit (h : w.exec p now .commit = some (w', reply)) :
    w' = { w with db := w.db.commit Write.apply p } := by
  cases Option.some.inj h
  rfl

theorem exec_commit_writes (h : w.exec p now .commit = some (w', reply)) :
    w'.db.writes p = [] := by
  rw [exec_commit h]
  exact Store.commit_writes_self

theorem view_eq_committed (h : w.db.writes p = []) : w.view p = w.committed := by
  simp [World.view, Store.view, h, World.committed]

theorem view_action_isSome (w : World) (p : Pid) :
    (w.view p).action.isSome = w.committed.action.isSome :=
  replay_action_isSome _ _

theorem view_batch_isSome {i : Nat} (h : (w.committed.batches i).isSome) :
    ((w.view p).batches i).isSome :=
  replay_batch_isSome _ h

/-- An UPDATE by key alone always finds a row that exists. -/
theorem exec_updateBatch_present {i : Nat} {u : BatchUpdate} (hu : ∀ b, u.applies b)
    (hi : (w.committed.batches i).isSome)
    (h : w.exec p now (.updateBatch i u) = some (w', reply)) :
    w' = w.write p (.batch i u now) := by
  rcases exec_updateBatch h with ⟨hn, _⟩ | ⟨b, _, _, _, he⟩
  · obtain ⟨b, hb⟩ := Option.isSome_iff_exists.mp (view_batch_isSome (p := p) hi)
    simp [hb, hu b] at hn
  · exact he

theorem exec_updateAction_present {u : ActionUpdate} (hu : ∀ a, u.applies a)
    (hi : w.committed.action.isSome)
    (h : w.exec p now (.updateAction u) = some (w', reply)) :
    w' = w.write p (.action u now) := by
  rcases exec_updateAction h with ⟨hn, _⟩ | ⟨a, _, _, _, he, _⟩
  · rw [← view_action_isSome w p] at hi
    obtain ⟨a, ha⟩ := Option.isSome_iff_exists.mp hi
    simp [ha, hu a] at hn
  · exact he

theorem exec_writeOutcomes {i : Nat} {outcomes : List EntityOutcome}
    (h : w.exec p now (writeOutcomes i outcomes) = some (w', reply)) :
    ∃ ls, LogWrites i outcomes ls ∧ w'.db.writes p = w.db.writes p ++ ls ∧
      w'.committed = w.committed := by
  unfold writeOutcomes at h
  split at h
  next he =>
    cases exec_skip h
    exact ⟨[], Or.inl ⟨List.isEmpty_iff.mp he, rfl⟩, by simp, rfl⟩
  next =>
    cases Option.some.inj h
    exact ⟨_, Or.inr ⟨w.logSeq, rfl⟩, write_writes_self w p _, rfl⟩

/-- The finalising UPDATE either finds the row still open and complete, or does nothing. -/
theorem exec_finalize {k : Nat} (hws : w.db.writes p = [])
    (h : w.exec p now (.updateAction (.finalize (finalStatus k))) = some (w', reply)) :
    FinalizeWrites (w'.db.writes p) := by
  rcases exec_updateAction h with ⟨_, rfl, _⟩ | ⟨a, _, _, _, rfl, _⟩
  · exact Or.inl hws
  · exact Or.inr ⟨k, now, by simp [hws]⟩

end

theorem rateLimit_next {text : PyText} {ext : External} {reply : Reply} {limit n : Nat}
    {next : BatchPc} (h : (BatchPc.rateLimit limit n).resume text ext reply = .ok next) :
    next = .recordAttempt n ∨ ∃ ms, next = .enqueueDeferred ms := by
  simp only [BatchPc.resume] at h
  cases hc : consume limit n ext.decision with
  | error e => simp [hc, Except.map] at h
  | ok d =>
    simp only [hc, Except.map, Except.ok.injEq] at h
    split at h
    · exact Or.inl h.symm
    · exact Or.inr ⟨_, h.symm⟩

/-- A delivery that takes a step has written what its new point says. -/
theorem batch_run_wrote {env : Env} {job : BatchJob} {pc next : BatchPc} {w w' : World} {p : Pid}
    {ext : External} {reply : Reply}
    (hw : pc.Wrote env.settings job (w.db.writes p)) (hp : pc.Present job w.committed)
    (h : w.exec p ext.now (pc.stmt env.settings job) = some (w', reply))
    (hn : pc.resume env.text ext reply = .ok next) :
    next.Wrote env.settings job (w'.db.writes p) := by
  cases pc with
  | loadAction =>
    obtain ⟨rfl, _⟩ := exec_selectAction h
    simp only [BatchPc.resume] at hn
    split at hn <;> cases Except.ok.inj hn <;> exact hw
  | loadBatch a =>
    obtain ⟨rfl, _⟩ := exec_selectBatch h
    cases Except.ok.inj hn
    unfold BatchPc.afterLoad
    split
    · exact hw
    · split_ifs <;> exact hw
  | cancelBatch =>
    cases exec_updateBatch_present (fun _ => rfl) hp.2 h
    cases Except.ok.inj hn
    have hws : w.db.writes p = [] := hw
    exact ⟨ext.now, by simp [hws]⟩
  | cancelCommit =>
    cases Except.ok.inj hn
    exact exec_commit_writes h
  | loadAccount n =>
    cases exec_selectAccount h
    cases Except.ok.inj hn
    exact hw
  | rateLimit limit n =>
    cases exec_skip h
    rcases rateLimit_next hn with rfl | ⟨ms, rfl⟩ <;> exact hw
  | enqueueDeferred ms =>
    cases exec_enqueue h
    cases Except.ok.inj hn
    exact hw
  | recordAttempt n =>
    cases Except.ok.inj hn
    have hws : w.db.writes p = [] := hw
    rcases exec_updateBatch h with ⟨_, rfl⟩ | ⟨b, _, _, _, rfl⟩
    · exact Or.inl hws
    · exact Or.inr ⟨ext.now, by simp [hws]⟩
  | attemptCommit n =>
    cases Except.ok.inj hn
    exact exec_commit_writes h
  | reloadAction n =>
    obtain ⟨rfl, _⟩ := exec_selectAction h
    simp only [BatchPc.resume] at hn
    split at hn <;> cases Except.ok.inj hn <;> exact hw
  | reloadBatch n a =>
    obtain ⟨rfl, _⟩ := exec_selectBatch h
    simp only [BatchPc.resume] at hn
    split at hn
    · simp at hn
    · cases Except.ok.inj hn
      split_ifs <;> exact hw
  | runBatch n a b =>
    cases exec_skip h
    cases Except.ok.inj hn
    exact hw
  | writeOutcomes n r =>
    cases Except.ok.inj hn
    have hws : w.db.writes p = [] := hw
    obtain ⟨ls, hls, hls', _⟩ := exec_writeOutcomes h
    rw [hls', hws]
    exact hls
  | updateBatch n r =>
    cases exec_updateBatch_present (fun _ => rfl) hp.2 h
    cases Except.ok.inj hn
    exact ⟨_, ext.now, hw, by simp [BatchResult.completeUpdate]⟩
  | recordCompletion n r =>
    cases exec_updateAction_present (fun _ => rfl) hp.1 h
    cases Except.ok.inj hn
    obtain ⟨ls, at', hls, hws⟩ := hw
    exact ⟨ls, at', ext.now, hls, by simp [hws, BatchResult.recordUpdate]⟩
  | workCommit n r =>
    cases Except.ok.inj hn
    exact exec_commit_writes h
  | finalizeSelect after =>
    obtain ⟨rfl, _⟩ := exec_selectFinalizable h
    simp only [BatchPc.resume] at hn
    split at hn
    · cases Except.ok.inj hn
      cases after <;> exact Or.inl hw
    · cases Except.ok.inj hn
      exact hw
  | finalizeUpdate after status =>
    cases Except.ok.inj hn
    obtain ⟨_, _, k, rfl⟩ := hp
    have hf := exec_finalize hw h
    cases after <;> exact hf
  | refresh n r =>
    obtain ⟨rfl, _⟩ := exec_selectAction h
    simp only [BatchPc.resume] at hn
    split at hn <;> cases Except.ok.inj hn <;> exact hw
  | publish n r payload =>
    cases exec_publish h
    cases Except.ok.inj hn
    exact hw
  | finalizeCommit after =>
    have hws := exec_commit_writes h
    cases after <;> cases Except.ok.inj hn <;> exact hws
  | logCompleted n r =>
    cases exec_skip h
    cases Except.ok.inj hn
    exact hw
  | markBatch n error =>
    cases exec_updateBatch_present (fun _ => rfl) hp.2 h
    cases Except.ok.inj hn
    have hws : w.db.writes p = [] := hw
    exact ⟨ext.now, by simp [hws]⟩
  | markOutcomes n error =>
    cases Except.ok.inj hn
    obtain ⟨at', hws⟩ := hw
    obtain ⟨ls, hls, hls', _⟩ := exec_writeOutcomes h
    exact ⟨ls, at', hls, by rw [hls', hws]; rfl⟩
  | markRecord n error =>
    cases exec_updateAction_present (fun _ => rfl) hp.1 h
    cases Except.ok.inj hn
    obtain ⟨ls, at', hls, hws⟩ := hw
    exact ⟨ls, at', ext.now, hls, by simp [hws]⟩
  | markCommit n error =>
    cases Except.ok.inj hn
    exact exec_commit_writes h
  | done ret =>
    cases exec_skip h
    cases Except.ok.inj hn
    exact hw

theorem batch_run_present {env : Env} {job : BatchJob} {pc next : BatchPc} {w w' : World} {p : Pid}
    {ext : External} {reply : Reply}
    (hw : pc.Wrote env.settings job (w.db.writes p)) (hp : pc.Present job w.committed)
    (h : w.exec p ext.now (pc.stmt env.settings job) = some (w', reply))
    (hn : pc.resume env.text ext reply = .ok next) :
    next.Present job w'.committed := by
  have late : w.committed.action.isSome ∧ (w.committed.batches job.index).isSome →
      w'.committed.action.isSome ∧ (w'.committed.batches job.index).isSome :=
    fun hl => ⟨exec_action_isSome h ▸ hl.1, exec_batch_isSome h hl.2⟩
  cases pc with
  | loadAction =>
    obtain ⟨rfl, hr⟩ := exec_selectAction h
    simp only [BatchPc.resume] at hn
    split at hn
    · cases Except.ok.inj hn
      trivial
    next a hra =>
      cases Except.ok.inj hn
      have hv := view_action_isSome w' p
      rw [← hr, hra] at hv
      exact hv.symm
  | loadBatch a =>
    obtain ⟨rfl, hr⟩ := exec_selectBatch h
    cases Except.ok.inj hn
    rw [view_eq_committed hw] at hr
    cases hb : reply.batch with
    | none => trivial
    | some b =>
      have hi : (w'.committed.batches job.index).isSome := by rw [← hr, hb]; rfl
      simp only [BatchPc.afterLoad]
      split_ifs
      · trivial
      · exact ⟨hp, hi⟩
      · exact ⟨hp, hi⟩
  | rateLimit limit n => rcases rateLimit_next hn with rfl | ⟨ms, rfl⟩ <;> exact late hp
  | reloadAction n =>
    simp only [BatchPc.resume] at hn
    split at hn <;> cases Except.ok.inj hn
    · trivial
    · exact late hp
  | reloadBatch n a =>
    simp only [BatchPc.resume] at hn
    split at hn
    · simp at hn
    · cases Except.ok.inj hn
      split_ifs
      · trivial
      · exact late hp
  | finalizeSelect after =>
    simp only [BatchPc.resume] at hn
    split at hn <;> cases Except.ok.inj hn
    · cases after <;> exact late hp
    · exact ⟨(late hp).1, (late hp).2, _, rfl⟩
  | finalizeUpdate after status =>
    cases Except.ok.inj hn
    cases after <;> exact late ⟨hp.1, hp.2.1⟩
  | refresh n r =>
    simp only [BatchPc.resume] at hn
    split at hn <;> cases Except.ok.inj hn <;> exact late hp
  | finalizeCommit after =>
    cases after <;> cases Except.ok.inj hn
    · exact late hp
    · trivial
  | cancelCommit | enqueueDeferred _ | logCompleted _ _ | done _ =>
    cases Except.ok.inj hn
    trivial
  | _ =>
    cases Except.ok.inj hn
    exact late hp

theorem plan_run_wrote {pc next : PlanPc} {w w' : World} {p : Pid} {ext : External} {reply : Reply}
    (hw : pc.Wrote (w.db.writes p)) (hp : pc.Present w.committed)
    (h : w.exec p ext.now pc.stmt = some (w', reply)) (hn : pc.resume ext reply = .ok next) :
    next.Wrote (w'.db.writes p) := by
  cases pc with
  | loadAction =>
    obtain ⟨rfl, _⟩ := exec_selectAction h
    simp only [PlanPc.resume] at hn
    split at hn <;> cases Except.ok.inj hn
    · exact hw
    · split_ifs <;> exact hw
  | setPlanning a =>
    cases exec_updateAction_present (fun _ => rfl) hp h
    cases Except.ok.inj hn
    have hws : w.db.writes p = [] := hw
    exact ⟨ext.now, by simp [hws]⟩
  | planningCommit a =>
    cases Except.ok.inj hn
    exact exec_commit_writes h
  | nextBatch loop =>
    cases exec_skip h
    cases Except.ok.inj hn
    unfold PlanPc.afterPage PlanPc.afterFlush
    split
    · split_ifs <;> exact hw
    · dsimp only
      split_ifs <;> exact hw
  | insertRows loop last =>
    cases Except.ok.inj hn
    have hws : w.db.writes p = [] := hw
    obtain ⟨fresh, rfl, _, rfl⟩ := exec_insertBatches h
    exact ⟨_, List.filter_sublist, by rw [insertAll_writes_self, hws]; rfl⟩
  | rowsCommit loop last =>
    cases Except.ok.inj hn
    exact exec_commit_writes h
  | enqueueJobs loop rows last =>
    cases rows with
    | nil =>
      cases exec_skip h
      cases Except.ok.inj hn
      unfold PlanPc.afterFlush
      split_ifs <;> exact hw
    | cons row rows =>
      cases exec_enqueue h
      cases Except.ok.inj hn
      exact hw
  | writeTotals e b =>
    cases exec_updateAction_present (fun _ => rfl) hp h
    cases Except.ok.inj hn
    have hws : w.db.writes p = [] := hw
    exact ⟨ext.now, by simp [hws]⟩
  | closeOrStart e b =>
    cases Except.ok.inj hn
    obtain ⟨at', hws⟩ := hw
    rcases exec_updateAction h with ⟨_, rfl, _⟩ | ⟨a, _, _, _, rfl, _⟩
    · exact ⟨at', Or.inl hws⟩
    · exact ⟨at', Or.inr ⟨ext.now, by simp [hws]⟩⟩
  | totalsCommit e b =>
    cases Except.ok.inj hn
    exact exec_commit_writes h
  | failUpdate error =>
    cases Except.ok.inj hn
    have hws : w.db.writes p = [] := hw
    rcases exec_updateAction h with ⟨_, rfl, _⟩ | ⟨a, _, _, _, rfl, _⟩
    · exact Or.inl hws
    · exact Or.inr ⟨ext.now, by simp [hws]⟩
  | failCommit error => simp [PlanPc.resume] at hn
  | done ret =>
    cases exec_skip h
    cases Except.ok.inj hn
    exact hw

theorem plan_run_present {pc next : PlanPc} {w w' : World} {p : Pid} {ext : External}
    {reply : Reply} (hp : pc.Present w.committed)
    (h : w.exec p ext.now pc.stmt = some (w', reply)) (hn : pc.resume ext reply = .ok next) :
    next.Present w'.committed := by
  have late : w.committed.action.isSome → w'.committed.action.isSome :=
    fun hl => exec_action_isSome h ▸ hl
  cases pc with
  | loadAction =>
    obtain ⟨rfl, hr⟩ := exec_selectAction h
    simp only [PlanPc.resume] at hn
    split at hn <;> cases Except.ok.inj hn
    · trivial
    next a hra =>
      have hv := view_action_isSome w' p
      rw [← hr, hra] at hv
      split_ifs
      · trivial
      · exact hv.symm
  | nextBatch loop =>
    cases Except.ok.inj hn
    unfold PlanPc.afterPage PlanPc.afterFlush
    split
    · split_ifs <;> exact late hp
    · dsimp only
      split_ifs <;> exact late hp
  | enqueueJobs loop rows last =>
    cases rows <;> cases Except.ok.inj hn
    · unfold PlanPc.afterFlush
      split_ifs <;> exact late hp
    · exact late hp
  | failCommit error => simp [PlanPc.resume] at hn
  | totalsCommit _ _ | done _ =>
    cases Except.ok.inj hn
    trivial
  | _ =>
    cases Except.ok.inj hn
    exact late hp

theorem cancel_run {pc : CancelPc} {w w' : World} {p : Pid} {ext : External} {reply : Reply}
    (hw : pc.Wrote (w.db.writes p)) (hp : pc.Present w.committed)
    (h : w.exec p ext.now pc.stmt = some (w', reply)) :
    (pc.resume reply).Wrote (w'.db.writes p) ∧ (pc.resume reply).Present w'.committed := by
  have ha := exec_action_isSome h
  cases pc with
  | loadAction =>
    obtain ⟨rfl, hr⟩ := exec_selectAction h
    have hv := view_action_isSome w' p
    simp only [CancelPc.resume]
    split
    · exact ⟨hw, trivial⟩
    next a hra =>
      rw [← hr, hra] at hv
      split_ifs
      · exact ⟨hw, hv.symm⟩
      · exact ⟨hw, trivial⟩
  | update =>
    have hws : w.db.writes p = [] := hw
    rcases exec_updateAction h with ⟨_, rfl, hr⟩ | ⟨a, _, _, _, rfl, hr⟩
    · simp only [CancelPc.resume, hr]
      exact ⟨hw, trivial⟩
    · simp only [CancelPc.resume, hr]
      exact ⟨⟨ext.now, by simp [hws]⟩, hp⟩
  | commit => exact ⟨exec_commit_writes h, trivial⟩
  | done ret =>
    cases exec_skip h
    exact ⟨hw, trivial⟩

end BulkActions
