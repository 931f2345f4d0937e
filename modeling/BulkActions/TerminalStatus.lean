import BulkActions.StepCases

namespace BulkActions

open ReadCommitted

/-- What the open writes `ws` would commit leaves a terminal status as it is. -/
def KeepsTerminal (c : Tables) (ws : List Write) : Prop :=
  ∀ a, c.action = some a → a.status.isTerminal →
    ∃ a', (replay Write.apply ws c).action = some a' ∧ a'.status = a.status

/-- Every UPDATE of the status other than the planner's first one excludes terminal rows. -/
theorem set_status_of_terminal {u : ActionUpdate} {a : BulkAction} (now : Timestamp)
    (hu : u ≠ .setPlanning) (happ : u.applies a) (ht : a.status.isTerminal) :
    (u.set now a).status = a.status := by
  cases u with
  | setPlanning => exact absurd rfl hu
  | setTotals entities batches => rfl
  | recordBatchCompletion processed success failure skipped batchDone => rfl
  | closeEmpty =>
    have hs : a.status = .planning := by simpa [ActionUpdate.applies] using happ
    simp [hs, BulkActionStatus.isTerminal] at ht
  | markStarted =>
    have hs : (a.status = .queued ∨ a.status = .scheduled) ∨ a.status = .planning := by
      simpa [ActionUpdate.applies] using happ
    rcases hs with (hs | hs) | hs <;> simp [hs, BulkActionStatus.isTerminal] at ht
  | finalize status =>
    have hs : a.status = .processing ∧ a.totalBatches ≤ a.completedBatches := by
      simpa [ActionUpdate.applies] using happ
    simp [hs.1, BulkActionStatus.isTerminal] at ht
  | failAction error => simp [ActionUpdate.applies, ht] at happ
  | cancel => simp [ActionUpdate.applies, ht] at happ

theorem replay_action_congr {c c' : Tables} (h : c.action = c'.action) (ws : List Write) :
    (replay Write.apply ws c).action = (replay Write.apply ws c').action := by
  induction ws generalizing c c' with
  | nil => exact h
  | cons v ws ih =>
    apply ih
    cases v <;> simp [Write.apply, h]

/-- The commit of another transaction: either it leaves the action row alone, or this one
has not written the action row. -/
theorem keepsTerminal_commit {w : World} {p q : Pid} (hg : w.db.Guarded Write.row)
    (hk : KeepsTerminal w.committed (w.db.writes q)) (hne : p ≠ q) :
    KeepsTerminal (replay Write.apply (w.db.writes p) w.committed) (w.db.writes q) := by
  by_cases hw : ∃ v ∈ w.db.writes q, v.row = some .action
  · obtain ⟨v, hv, hrow⟩ := hw
    have hsame : (replay Write.apply (w.db.writes p) w.committed).action = w.committed.action :=
      Store.commit_proj_of_locked (f := Tables.action) hg
        (fun v c hr => apply_action_of_row c hr) hv hrow hne
    intro a ha ht
    rw [hsame] at ha
    rw [replay_action_congr hsame]
    exact hk a ha ht
  · intro a ha _
    rw [replay_action_of_none (fun v hv hrow => hw ⟨v, hv, hrow⟩)]
    exact ⟨a, ha, rfl⟩

theorem keepsTerminal_append {c : Tables} {ws : List Write} {v : Write}
    (hk : KeepsTerminal c ws) (hv : v.row ≠ some .action) : KeepsTerminal c (ws ++ [v]) := by
  intro a ha ht
  rw [replay_append, replay_cons, replay_nil, apply_action_of_row _ hv]
  exact hk a ha ht

theorem keepsTerminal_insert {c : Tables} {ws : List Write} (rows : List BulkActionBatch)
    (hk : KeepsTerminal c ws) : KeepsTerminal c (ws ++ rows.map .insertBatch) := by
  intro a ha ht
  rw [replay_append, replay_action_of_none (by simp [Write.row])]
  exact hk a ha ht

theorem keepsTerminal_update {c : Tables} {ws : List Write} {u : ActionUpdate} {now : Timestamp}
    {a : BulkAction} (hk : KeepsTerminal c ws) (hv : (replay Write.apply ws c).action = some a)
    (happ : u.applies a)
    (hu : u = .setPlanning → ∀ b, c.action = some b → ¬ b.status.isTerminal) :
    KeepsTerminal c (ws ++ [.action u now]) := by
  intro b hb ht
  obtain ⟨a', ha', hs⟩ := hk b hb ht
  cases Option.some.inj (hv.symm.trans ha')
  refine ⟨u.set now a, by simp [Write.apply, hv], ?_⟩
  have hne : u ≠ .setPlanning := fun he => hu he b hb ht
  exact (set_status_of_terminal now hne happ (hs ▸ ht)).trans hs

theorem exec_keepsTerminal {w w' : World} {p : Pid} {now : Timestamp} {st : Stmt} {reply : Reply}
    (hg : w.db.Guarded Write.row) (hk : ∀ q, KeepsTerminal w.committed (w.db.writes q))
    (hst : st = .updateAction .setPlanning →
      ∀ a, w.committed.action = some a → ¬ a.status.isTerminal)
    (h : w.exec p now st = some (w', reply)) (q : Pid) :
    KeepsTerminal w'.committed (w'.db.writes q) := by
  rcases exec_committed h with ⟨hc, hst'⟩ | ⟨rfl, hc⟩
  · rw [hc]
    by_cases hq : q = p
    · subst hq
      cases st with
      | updateAction u =>
        rcases exec_updateAction h with ⟨_, rfl, _⟩ | ⟨a, ha, happ, _, rfl, _⟩
        · exact hk q
        · rw [write_writes_self]
          exact keepsTerminal_update (hk q) ha happ (fun he => hst (by rw [he]))
      | updateBatch i u =>
        rcases exec_updateBatch h with ⟨_, rfl⟩ | ⟨b, _, _, _, rfl⟩
        · exact hk q
        · rw [write_writes_self]
          exact keepsTerminal_append (hk q) (by simp [Write.row])
      | insertBatches rows =>
        obtain ⟨fresh, _, _, rfl⟩ := exec_insertBatches h
        rw [insertAll_writes_self]
        exact keepsTerminal_insert fresh (hk q)
      | insertLogs i outcomes =>
        cases Option.some.inj h
        exact write_writes_self w q _ ▸ keepsTerminal_append (hk q) (by simp [Write.row])
      | commit => exact absurd rfl hst'
      | _ => cases Option.some.inj h; exact hk q
    · rw [exec_writes_ne h hq]
      exact hk q
  · rw [hc]
    by_cases hq : q = p
    · subst hq
      cases Option.some.inj h
      intro a ha _
      exact ⟨a, by simpa using ha, rfl⟩
    · rw [exec_writes_ne h hq]
      exact keepsTerminal_commit hg (hk q) (Ne.symm hq)

theorem keepsTerminal_nil (c : Tables) : KeepsTerminal c [] := fun a ha _ => ⟨a, ha, rfl⟩

theorem rollback_keepsTerminal {w : World} {p : Pid}
    (hk : ∀ q, KeepsTerminal w.committed (w.db.writes q)) (q : Pid) :
    KeepsTerminal (w.rollback p).committed ((w.rollback p).db.writes q) := by
  by_cases hq : q = p
  · subst hq
    rw [rollback_writes_self]
    exact keepsTerminal_nil _
  · rw [rollback_writes_ne w hq]
    exact hk q

theorem stmt_setPlanning {env : Env} {proc : Proc}
    (h : proc.stmt env = .updateAction .setPlanning) : ∃ a, proc = .plan (.setPlanning a) := by
  cases proc with
  | plan pc =>
    cases pc with
    | setPlanning a => exact ⟨a, rfl⟩
    | enqueueJobs loop rows last => cases rows <;> simp [Proc.stmt, PlanPc.stmt] at h
    | closeOrStart e b =>
      simp only [Proc.stmt, PlanPc.stmt, Stmt.updateAction.injEq] at h
      split at h <;> simp at h
    | _ => simp [Proc.stmt, PlanPc.stmt] at h
  | batch job pc =>
    cases pc <;> simp [Proc.stmt, BatchPc.stmt, writeOutcomes] at h <;> split at h <;> simp at h
  | cancel pc => cases pc <;> simp [Proc.stmt, CancelPc.stmt] at h
  | idle => simp [Proc.stmt] at h
  | lost job => simp [Proc.stmt] at h

/-- The invariant behind absorption: rows written are locked, and no open transaction
would move the action out of a terminal status. -/
structure TerminalSafe (s : Sys) : Prop where
  guarded : s.world.db.Guarded Write.row
  keeps : ∀ p, KeepsTerminal s.world.committed (s.world.db.writes p)

/-- The planner's first UPDATE runs only while the action is not in a terminal status. -/
def PlanningOnLive (s : Sys) (l : Label) : Prop :=
  ∀ p ext loaded, l = .run p ext → s.procs p = .plan (.setPlanning loaded) →
    ∀ a, s.world.committed.action = some a → ¬ a.status.isTerminal

theorem terminalSafe_atRest {s : Sys} (h : s.AtRest) : TerminalSafe s where
  guarded := fun p w r hw => by simp [h.closed p] at hw
  keeps := fun p => by rw [h.closed p]; exact keepsTerminal_nil _

theorem terminalSafe_step {env : Env} {s s' : Sys} {l : Label} (hs : TerminalSafe s)
    (ok : PlanningOnLive s l) (h : s.step env l = some s') : TerminalSafe s' := by
  cases step_happens h with
  | deliver _ _ => exact ⟨hs.guarded, hs.keeps⟩
  | duplicate _ => exact ⟨hs.guarded, hs.keeps⟩
  | redeliver _ => exact ⟨hs.guarded, hs.keeps⟩
  | cancel _ => exact ⟨hs.guarded, hs.keeps⟩
  | run _ he _ =>
    refine ⟨exec_guarded hs.guarded he, exec_keepsTerminal hs.guarded hs.keeps ?_ he⟩
    intro hst
    obtain ⟨loaded, hp⟩ := stmt_setPlanning hst
    exact ok _ _ loaded rfl hp
  | fail _ he _ =>
    refine ⟨Store.guarded_rollback (exec_guarded hs.guarded he),
      rollback_keepsTerminal (exec_keepsTerminal hs.guarded hs.keeps ?_ he)⟩
    intro hst
    obtain ⟨loaded, hp⟩ := stmt_setPlanning hst
    exact ok _ _ loaded rfl hp
  | raise _ _ => exact ⟨Store.guarded_rollback hs.guarded, rollback_keepsTerminal hs.keeps⟩
  | swallow _ => exact ⟨hs.guarded, hs.keeps⟩
  | crash _ => exact ⟨Store.guarded_rollback hs.guarded, rollback_keepsTerminal hs.keeps⟩

theorem terminalSafe_reaches {env : Env} {s s' : Sys} (hs : TerminalSafe s)
    (h : Sys.Reaches env PlanningOnLive s s') : TerminalSafe s' :=
  h.invariant terminalSafe_step hs

/-- A step of a safe state publishes nothing that leaves a terminal status. -/
theorem status_step {env : Env} {s s' : Sys} {l : Label} (hs : TerminalSafe s)
    {st : BulkActionStatus} (hst : s.status = some st) (ht : st.isTerminal)
    (h : s.step env l = some s') : s'.status = some st := by
  have run : ∀ {p now stmt w reply}, s.world.exec p now stmt = some (w, reply) →
      w.committed.action.map BulkAction.status = some st := by
    intro p now stmt w reply he
    rcases exec_committed he with ⟨hc, _⟩ | ⟨_, hc⟩
    · rw [hc]
      exact hst
    · obtain ⟨a, ha, hsa⟩ := Option.map_eq_some_iff.mp hst
      obtain ⟨a', ha', hs'⟩ := hs.keeps p a ha (hsa ▸ ht)
      rw [hc, ha']
      exact congrArg some (hs'.trans hsa)
  cases step_happens h with
  | run _ he _ => exact run he
  | fail _ he _ =>
    have hw := run he
    exact hw
  | _ => exact hst

/-- Terminal statuses are absorbing along every run in which no planning pass marks an
action as planning that has meanwhile reached a terminal status. -/
theorem terminal_status_absorbing {env : Env} {s₀ s s' : Sys} {st : BulkActionStatus}
    (rest : s₀.AtRest) (h : Sys.Reaches env PlanningOnLive s₀ s)
    (h' : Sys.Reaches env PlanningOnLive s s') (hst : s.status = some st) (ht : st.isTerminal) :
    s'.status = some st := by
  have hs := terminalSafe_reaches (terminalSafe_atRest rest) h
  clear h
  induction h' with
  | refl => exact hst
  | tail h' step ih =>
    obtain ⟨l, _, hl⟩ := step
    exact status_step (terminalSafe_reaches hs h') ih ht hl

def planningOnLive (s : Sys) (l : Label) : Bool :=
  match l, s.procs l.pid with
  | .run _ _, .plan (.setPlanning _) =>
    s.world.committed.action.all (fun a => !a.status.isTerminal)
  | _, _ => true

theorem planningOnLive_allowed {s : Sys} {l : Label} (h : planningOnLive s l) :
    PlanningOnLive s l := by
  rintro p ext loaded rfl hp a ha
  simpa [planningOnLive, Label.pid, hp, ha] using h

/-- A client cancels the action before its plan job is delivered; the planner finds it cancelled and
turns away. -/
theorem terminal_status_absorbing_cancelled :
    ∃ s₀ s s' : Sys, s₀.status = some .queued ∧ Sys.Reaches defaultEnv PlanningOnLive s₀ s ∧
      Sys.Reaches defaultEnv PlanningOnLive s s' ∧ s.status = some .cancelled ∧
      s'.procs 0 = .plan (.done (.skipped .cancelled)) ∧ s'.status = some .cancelled := by
  let s₀ : Sys := Tables.sys ⟨some (contactsAction .queued), fun _ => none, []⟩ [.plan]
  let cancelled : List Label := [.cancel 1, .run 1 {}, .run 1 {}, .run 1 {}]
  obtain ⟨s, hs, hst, s', hs', hskip⟩ : ∃ s,
      Runs.checkedSteps (Sys.step defaultEnv) planningOnLive s₀ cancelled = some s ∧
        s.status = some .cancelled ∧
          ∃ s', Runs.checkedSteps (Sys.step defaultEnv) planningOnLive s
            [.deliver 0 .plan, .run 0 {}] = some s' ∧
              s'.procs 0 = .plan (.done (.skipped .cancelled)) :=
    ⟨_, rfl, rfl, _, rfl, rfl⟩
  have reached : ∀ {x x' : Sys} {labels : List Label},
      Runs.checkedSteps (Sys.step defaultEnv) planningOnLive x labels = some x' →
        Sys.Reaches defaultEnv PlanningOnLive x x' := fun hx =>
    Runs.reaches_checked (fun hc => planningOnLive_allowed hc) hx
  exact ⟨s₀, s, s', rfl, reached hs, reached hs', hst, hskip,
    terminal_status_absorbing (Tables.sys_atRest _ _) (reached hs) (reached hs') hst rfl⟩

/-- The planner reads a queued action, a client cancels it, and the planner's UPDATE then
takes it from cancelled back to planning. -/
theorem cancelled_action_back_to_planning :
    ¬ ∀ (s₀ s s' : Sys) (st : BulkActionStatus), s₀.AtRest →
      Sys.Reaches defaultEnv Runs.anyStep s₀ s → Sys.Reaches defaultEnv Runs.anyStep s s' →
      s.status = some st → st.isTerminal → s'.status = some st := by
  intro always
  let s₀ : Sys := Tables.sys ⟨some (contactsAction .queued), fun _ => none, []⟩ [.plan]
  let cancelled : List Label :=
    [.deliver 0 .plan, .run 0 {}, .cancel 1, .run 1 {}, .run 1 {}, .run 1 {}]
  let planning : List Label := [.run 0 {}, .run 0 {}]
  obtain ⟨s, hs, hst⟩ : ∃ s,
      Runs.steps (Sys.step defaultEnv) s₀ cancelled = some s ∧ s.status = some .cancelled :=
    Option.bind_eq_some_iff.mp (by decide)
  obtain ⟨s', hs', hst'⟩ : ∃ s',
      Runs.steps (Sys.step defaultEnv) s₀ (cancelled ++ planning) = some s' ∧
      s'.status = some .planning := Option.bind_eq_some_iff.mp (by decide)
  rw [Runs.steps_append, hs, Option.bind_some] at hs'
  have h := always s₀ s s' .cancelled (Tables.sys_atRest _ _) (Runs.reaches_of_steps hs)
    (Runs.reaches_of_steps hs') hst rfl
  rw [hst'] at h
  simp at h

end BulkActions
