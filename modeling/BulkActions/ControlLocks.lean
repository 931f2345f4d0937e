import BulkActions.Consistency
import BulkActions.LockOrder

namespace BulkActions

open ReadCommitted

/-- The rows of the action and of its batches that a statement of transaction `p` locks; the
transaction of a batch locks keys of the ledger and rows of entities besides. -/
def World.locks (w : World) (p : Pid) : Stmt → List RowId
  | .updateAction u => if ((w.view p).action.filter u.applies).isSome then [.action] else []
  | .updateBatch i u => if (((w.view p).batches i).filter u.applies).isSome then [.batch i] else []
  | .insertBatches rows =>
    (rows.filter (fun row => ((w.view p).batches row.batchIndex).isNone)).map
      (fun row => .batch row.batchIndex)
  | _ => []

/-- A statement waits just as long as another transaction holds one of these rows. -/
theorem exec_eq_none {w : World} {p : Pid} {now : Timestamp} {st : Stmt} :
    w.exec p now st = none ↔ ∃ r ∈ w.locks p st, w.db.free p r = false := by
  cases st with
  | updateAction u =>
    simp only [World.exec, World.locks]
    cases (w.view p).action.filter u.applies <;> simp
  | updateBatch i u =>
    simp only [World.exec, World.locks]
    cases ((w.view p).batches i).filter u.applies <;> simp
  | insertBatches rows =>
    simp only [World.exec, World.locks, List.mem_map, List.mem_filter]
    split_ifs with hall
    · simp only [false_iff, not_exists, not_and]
      rintro _ ⟨row, hrow, rfl⟩
      simp [List.all_eq_true.mp hall row (List.mem_filter.mpr hrow)]
    · simp only [true_iff]
      simp only [List.all_eq_true, not_forall] at hall
      obtain ⟨row, hrow, hfree⟩ := hall
      exact ⟨_, ⟨row, List.mem_filter.mp hrow, rfl⟩, by simpa using hfree⟩
  | _ => simp [World.exec, World.locks]

namespace Sys

/-- The first row that the next statement of `p` needs and another transaction holds. -/
def wants (env : Env) (s : Sys) (p : Pid) : Option RowId :=
  (s.world.locks p ((s.procs p).stmt env)).find? (fun r => !s.world.db.free p r)

/-- `p` waits for a lock that `q` holds on the row of the action or of one of its batches. -/
def WaitsFor (env : Env) (s : Sys) : Pid → Pid → Prop := s.world.db.WaitsFor (s.wants env)

end Sys

/-- A task locks batch rows before it locks the action. -/
def RowId.before : RowId → RowId → Prop
  | .batch _, .action => True
  | _, _ => False

instance : IsTrans RowId RowId.before where
  trans a b c hab hbc := by cases a <;> cases b <;> cases c <;> simp only [RowId.before] at *

instance : Std.Irrefl RowId.before where
  irrefl r := by cases r <;> simp [RowId.before]

theorem before_wellFounded : WellFounded (flip RowId.before) := by
  have hmax : ∀ r, RowId.before .action r → False := fun r hr => by cases r <;> exact hr
  have haction : Acc (flip RowId.before) .action := ⟨_, fun r hr => (hmax r hr).elim⟩
  refine ⟨fun r => ⟨r, fun r' hr' => ?_⟩⟩
  cases r' with
  | action => exact haction
  | batch i => cases r <;> exact hr'.elim

section Waiting

variable {env : Env} {s : Sys} {p q : Pid} {r : RowId}

theorem wants_not_free (h : s.wants env p = some r) : s.world.db.free p r = false := by
  simpa using List.find?_some h

theorem wants_locks (h : s.wants env p = some r) :
    r ∈ s.world.locks p ((s.procs p).stmt env) := List.mem_of_find?_eq_some h

/-- A task that waits for none of these locks can execute its next statement. -/
theorem exec_of_not_waiting (h : ∀ q, ¬ s.WaitsFor env p q) (now : Timestamp) :
    (s.world.exec p now ((s.procs p).stmt env)).isSome := by
  rw [Option.isSome_iff_ne_none, ne_eq, exec_eq_none]
  rintro ⟨r, hr, hfree⟩
  have hwants : (s.wants env p).isSome :=
    List.find?_isSome.mpr ⟨r, hr, by simp [hfree]⟩
  obtain ⟨r', hr'⟩ := Option.isSome_iff_exists.mp hwants
  obtain ⟨q, hlock, hne⟩ := Store.not_free_iff.mp (wants_not_free hr')
  exact h q ⟨r', hr', hlock, hne⟩

theorem run_isSome (hr : (s.procs p).running) (h : ∀ q, ¬ s.WaitsFor env p q) (ext : External) :
    (s.step env (.run p ext)).isSome := by
  have hexec := exec_of_not_waiting h ext.now
  obtain ⟨⟨w, reply⟩, he⟩ := Option.isSome_iff_exists.mp hexec
  simp only [Sys.step, hr, if_true, Sys.run, he]
  cases (s.procs p).resume env ext reply <;> rfl

/-- A task with writes in its transaction is in the middle of it. -/
theorem running_of_wrote {proc : Proc} {ws : List Write} (hw : proc.Wrote env ws) (hws : ws ≠ []) :
    proc.running := by
  cases proc with
  | batch job pc => cases pc <;> first | rfl | exact absurd hw hws
  | plan pc => cases pc <;> first | rfl | exact absurd hw hws
  | cancel pc => cases pc <;> first | rfl | exact absurd hw hws
  | idle => exact absurd hw hws
  | lost job => exact absurd hw hws

/-- No row is locked by a transaction that goes on to lock a batch row. -/
theorem wrote_updateBatch_none {proc : Proc} {ws : List Write} {i : Nat} {u : BatchUpdate}
    (hw : proc.Wrote env ws) (h : proc.stmt env = .updateBatch i u) : ∀ v ∈ ws, v.row = none := by
  cases proc with
  | batch job pc =>
    cases pc <;> simp only [Proc.stmt, BatchPc.stmt, writeOutcomes, reduceCtorEq] at h
    case updateBatch n r => exact fun v hv => LogWrites.row_none hw hv
    case cancelBatch | recordAttempt | markBatch =>
      have hws : ws = [] := hw
      simp [hws]
    all_goals (split at h <;> simp at h)
  | plan pc =>
    cases pc with
    | enqueueJobs loop rows last => cases rows <;> simp [Proc.stmt, PlanPc.stmt] at h
    | _ => simp [Proc.stmt, PlanPc.stmt] at h
  | cancel pc => cases pc <;> simp [Proc.stmt, CancelPc.stmt] at h
  | idle => simp [Proc.stmt] at h
  | lost job => simp [Proc.stmt] at h

/-- The tasks keep the lock order: one that holds a row and waits itself holds a batch row and
waits for the action. -/
theorem tasks_in_order (hs : Consistent env s) (ho : s.world.db.Owned Write.row) :
    s.world.db.InOrder (s.wants env) RowId.before := by
  intro p q t r r' hp hlock hqp hq ht htq
  obtain ⟨v, hv, hrow⟩ := ho q r hlock
  have hw := hs.wrote q
  have hlocks := wants_locks hq
  cases hst : (s.procs q).stmt env with
  | updateAction u =>
    rw [hst, World.locks] at hlocks
    split_ifs at hlocks
    · cases List.mem_singleton.mp hlocks
      rcases wrote_updateAction hw hst with hnone | ⟨e, b, now, hws, _⟩
      · cases r with
        | action => exact absurd hrow (hnone v hv)
        | batch i => trivial
      · -- the planner has locked the action row itself when it writes the totals
        have hself := hs.guarded q _ .action (hws ▸ List.mem_singleton.mpr rfl) rfl
        exact absurd (Option.some.inj (ht.symm.trans hself)) htq
    · cases hlocks
  | updateBatch i u =>
    rw [wrote_updateBatch_none hw hst v hv] at hrow
    cases hrow
  | insertBatches rows =>
    rw [wrote_insertBatches hw hst] at hv
    cases hv
  | _ => simp [hst, World.locks] at hlocks

theorem consistent_reaches {ok : Sys → Label → Prop} {s₀ : Sys} (hrest : s₀.AtRest)
    (h : Sys.Reaches env ok s₀ s) : Consistent env s ∧ s.world.db.Owned Write.row := by
  refine h.invariant (P := fun s => Consistent env s ∧ s.world.db.Owned Write.row)
    (fun hs _ hstep => ⟨consistent_step hs.1 hstep, step_owned hs.2 hstep⟩)
    ⟨consistent_atRest hrest, ?_⟩
  intro p r hlock
  rw [hrest.unlocked r] at hlock
  cases hlock

theorem holder_running (hs : Consistent env s) (ho : s.world.db.Owned Write.row)
    (hwait : s.WaitsFor env p q) : (s.procs q).running := by
  obtain ⟨r, _, hlock, _⟩ := hwait
  obtain ⟨v, hv, _⟩ := ho q r hlock
  exact running_of_wrote (hs.wrote q) (List.ne_nil_of_mem hv)

/-- Behind a task that waits for one of these locks is one that can go on. -/
theorem some_task_runs (hs : Consistent env s) (ho : s.world.db.Owned Write.row)
    (hp : (s.procs p).running) : ∃ q, (s.procs q).running ∧
      Relation.ReflTransGen (s.WaitsFor env) p q ∧ ∀ ext, (s.step env (.run q ext)).isSome := by
  obtain ⟨q, hchain, hend⟩ :=
    Store.exists_not_waiting before_wellFounded (tasks_in_order hs ho) p
  have hq : (s.procs q).running := by
    rcases hchain.cases_tail with rfl | ⟨q', _, hwait⟩
    · exact hp
    · exact holder_running hs ho hwait
  exact ⟨q, hq, hchain, run_isSome hq hend⟩

/-- Whatever planning passes, deliveries and cancels are under way, they never wait in a circle for
each other's locks on the rows of the action and of its batches, and while any of them is in the
middle of its task, some one of them can take its next step as far as these locks go. -/
theorem tasks_never_deadlock {ok : Sys → Label → Prop} {s₀ : Sys} (hrest : s₀.AtRest)
    (h : Sys.Reaches env ok s₀ s) :
    (∀ p, ¬ Relation.TransGen (s.WaitsFor env) p p) ∧
      ∀ p, (s.procs p).running → ∃ q, (s.procs q).running ∧
        Relation.ReflTransGen (s.WaitsFor env) p q ∧ ∀ ext, (s.step env (.run q ext)).isSome := by
  obtain ⟨hs, ho⟩ := consistent_reaches hrest h
  exact ⟨Store.no_wait_cycle (tasks_in_order hs ho), fun p hp => some_task_runs hs ho hp⟩

end Waiting

/-- A worker that has written its outcomes waits for a client that has just cancelled the action
and has still to commit. -/
theorem tasks_never_deadlock_contended :
    ∃ s, Sys.Reaches defaultEnv Runs.anyStep (plannedContacts [contactsJob]) s ∧
      s.WaitsFor defaultEnv 0 1 ∧ ¬ Relation.TransGen (s.WaitsFor defaultEnv) 0 0 ∧
      ∃ q, (s.procs q).running ∧ Relation.ReflTransGen (s.WaitsFor defaultEnv) 0 q ∧
        ∀ ext, (s.step defaultEnv (.run q ext)).isSome := by
  let labels : List Label := .deliver 0 contactsJob :: List.replicate 8 (.run 0 {}) ++
    .run 0 activeContact :: List.replicate 2 (.run 0 {}) ++ .cancel 1 ::
    List.replicate 2 (.run 1 {})
  obtain ⟨s, hs, hwait, hrunning⟩ : ∃ s,
      Runs.steps (Sys.step defaultEnv) (plannedContacts [contactsJob]) labels = some s ∧
        s.WaitsFor defaultEnv 0 1 ∧ (s.procs 0).running :=
    ⟨_, rfl, ⟨.action, rfl, rfl, by decide⟩, rfl⟩
  have hr : Sys.Reaches defaultEnv Runs.anyStep (plannedContacts [contactsJob]) s :=
    Runs.reaches_of_steps hs
  have hfree := tasks_never_deadlock (Tables.sys_atRest _ _) hr
  exact ⟨s, hr, hwait, hfree.1 0, hfree.2 0 hrunning⟩

end BulkActions
