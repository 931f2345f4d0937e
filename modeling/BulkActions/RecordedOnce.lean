import BulkActions.Moves
import BulkActions.RowSums

namespace BulkActions

/-- The counters of an action that a batch outcome is added to. -/
structure Counters where
  completed : Nat
  processed : Nat
  success : Nat
  failure : Nat
  skipped : Nat
  deriving DecidableEq, Repr

def BulkAction.counters (a : BulkAction) : Counters :=
  ⟨a.completedBatches, a.processedCount, a.successCount, a.failureCount, a.skippedCount⟩

def Counters.record (k : Counters) (r : BatchResult) : Counters :=
  ⟨k.completed + 1, k.processed + r.processedCount, k.success + r.successCount,
    k.failure + r.failureCount, k.skipped + r.skippedCount⟩

def Tables.Finished (c : Tables) (i : Nat) : Prop := ∃ b, c.batches i = some b ∧ b.finished

/-- No outcome has been recorded since `c₀`. -/
def Untouched (c₀ c : Tables) : Prop :=
  c.logs = c₀.logs ∧ c.action.map BulkAction.counters = c₀.action.map BulkAction.counters

/-- One outcome of batch `i` has been recorded since `c₀`, in the counters and in the logs. -/
def RecordedOnce (c₀ c : Tables) (i : Nat) : Prop :=
  ∃ r seq, c.logs = c₀.logs ++ World.logRows seq i r.outcomes ∧
    c.action.map BulkAction.counters = c₀.action.map (fun a => a.counters.record r)

/-- The points from which a delivery goes on to change its batch row. -/
def BatchPc.needsOpen : BatchPc → Bool
  | .loadAction => false
  | .loadBatch _ => false
  | .enqueueDeferred _ => false
  | .finalizeSelect _ => false
  | .finalizeUpdate _ _ => false
  | .refresh _ _ => false
  | .publish _ _ _ => false
  | .finalizeCommit _ => false
  | .logCompleted _ _ => false
  | .done _ => false
  | _ => true

/-- The points of the try block after the work transaction has been committed, less the
one whose exceptions are swallowed. -/
def BatchPc.afterWork : BatchPc → Bool
  | .finalizeSelect (.batchDone _ _) => true
  | .finalizeUpdate (.batchDone _ _) _ => true
  | .refresh _ _ => true
  | .finalizeCommit (.batchDone _ _) => true
  | .logCompleted _ _ => true
  | _ => false

/-- The steps of deliveries of batch `i`, with exceptions and crashes. -/
def Label.serves (i : Nat) : Label → Bool
  | .deliver _ (.batch job) => job.index = i
  | .duplicate _ (.batch job) => job.index = i
  | .deliver _ .plan => false
  | .duplicate _ .plan => false
  | .cancel _ => false
  | _ => true

def Label.starts : Label → Bool
  | .deliver _ _ => true
  | .duplicate _ _ => true
  | .redeliver _ => true
  | _ => false

/-- Deliveries of batch `i`, one at a time. -/
def Sequential (i : Nat) (s : Sys) (l : Label) : Prop :=
  l.serves i ∧ (l.starts → ∀ q, ¬ (s.procs q).running)

/-- The entry guard reads no failed row, and no exception is raised after the work commit
once the tries are used up. -/
def failsInTime (env : Env) (s : Sys) (l : Label) : Bool :=
  match l, s.procs l.pid with
  | .run _ _, .batch job (.loadBatch _) =>
    (s.world.committed.batches job.index).all (fun b => b.status ≠ .failed)
  | .raise _ _, .batch job pc => !pc.afterWork || job.jobTry < env.settings.jobMaxTries
  | _, _ => true

theorem failsInTime_load {env : Env} {s : Sys} {p : Pid} {ext : External} {job : BatchJob}
    {a : BulkAction} (h : failsInTime env s (.run p ext))
    (hp : s.procs p = .batch job (.loadBatch a))
    {b : BulkActionBatch} (hb : s.world.committed.batches job.index = some b) :
    b.status ≠ .failed := by
  simpa [failsInTime, Label.pid, hp, hb] using h

theorem failsInTime_raise {env : Env} {s : Sys} {p : Pid} {error : String} {job : BatchJob}
    {pc : BatchPc} (h : failsInTime env s (.raise p error)) (hp : s.procs p = .batch job pc)
    (hw : pc.afterWork) : job.jobTry < env.settings.jobMaxTries := by
  simpa [failsInTime, Label.pid, hp, hw] using h

def Proc.ServesBatch (i : Nat) : Proc → Prop
  | .idle => True
  | .batch job _ => job.index = i
  | .lost (.batch job) => job.index = i
  | _ => False

structure OnceSafe (env : Env) (i : Nat) (c₀ : Tables) (s : Sys) : Prop where
  consistent : Consistent env s
  serves : ∀ p, (s.procs p).ServesBatch i
  single : ∀ p q, (s.procs p).running → (s.procs q).running → p = q
  opened : ∀ p job pc, s.procs p = .batch job pc → pc.needsOpen → ¬ s.world.committed.Finished i
  recorded : Untouched c₀ s.world.committed ∨
    (s.world.committed.Finished i ∧ RecordedOnce c₀ s.world.committed i)

theorem needsOpen_running {job : BatchJob} {pc : BatchPc} (h : pc.needsOpen) :
    (Proc.batch job pc).running := by
  cases pc <;> first | rfl | simp [BatchPc.needsOpen] at h

theorem not_finished_of_status {c : Tables} {i : Nat} {b : BulkActionBatch}
    (hb : c.batches i = some b) (hc : b.status ≠ .completed) (hf : b.status ≠ .failed) :
    ¬ c.Finished i := by
  rintro ⟨b', hb', hfin⟩
  cases Option.some.inj (hb.symm.trans hb')
  simp [BulkActionBatch.finished, hc, hf] at hfin

theorem batchMove_needsOpen {text : PyText} {job : BatchJob} {ext : External} {c : Tables}
    {ws : List Write} {pc next : BatchPc} (h : BatchMove text job ext c ws pc next)
    (hn : next.needsOpen)
    (hload : ∀ a, pc = .loadBatch a → ∀ b, c.batches job.index = some b → b.status ≠ .failed) :
    pc.needsOpen ∨ ¬ c.Finished job.index := by
  cases h with
  | toCancel hb hne _ => exact Or.inr (not_finished_of_status hb hne (hload _ rfl _ hb))
  | loadedBatch hb hne _ => exact Or.inr (not_finished_of_status hb hne (hload _ rfl _ hb))
  | @notFinalizable after _ => cases after <;> simp [BatchPc.afterFinalize, BatchPc.needsOpen] at hn
  | @finalizeUpdate after _ _ =>
    cases after <;> simp [BatchPc.afterFinalize, BatchPc.needsOpen] at hn
  | _ => first | exact Or.inl rfl | simp [BatchPc.needsOpen] at hn

/-- The handler of the last try is entered only while the row is open. -/
theorem handler_needsOpen {settings : Settings} {job : BatchJob} {pc : BatchPc} {n : Nat}
    (hn : pc.tryCount = some n) (hlast : settings.jobMaxTries ≤ job.jobTry)
    (hpub : ¬ (Proc.batch job pc).publishing)
    (hlate : pc.afterWork → job.jobTry < settings.jobMaxTries) : pc.needsOpen := by
  have hwork : pc.needsOpen ∨ pc.afterWork := by
    cases pc with
    | loadAction | loadBatch _ | enqueueDeferred _ | done _ => cases hn
    | finalizeSelect after | finalizeUpdate after _ | finalizeCommit after =>
      cases after with
      | batchDone _ _ => exact Or.inr rfl
      | _ => cases hn
    | refresh _ _ | logCompleted _ _ => exact Or.inr rfl
    | publish _ _ _ => exact absurd rfl hpub
    | _ => exact Or.inl rfl
  exact hwork.resolve_right (fun hdone => absurd (hlate hdone) (not_lt.mpr hlast))

theorem counters_updateAction {c : Tables} {u : ActionUpdate} {now : Timestamp}
    (hu : ∀ a, (u.set now a).counters = a.counters) :
    (c.updateAction u now).action.map BulkAction.counters = c.action.map BulkAction.counters := by
  simp [Function.comp_def, hu]

theorem counters_recordUpdate (c : Tables) (r : BatchResult) (now : Timestamp) :
    (c.updateAction r.recordUpdate now).action.map BulkAction.counters =
      c.action.map (fun a => a.counters.record r) := by
  simp [Function.comp_def, BatchResult.recordUpdate, ActionUpdate.set, BulkAction.counters,
    Counters.record]

theorem Untouched.record {c₀ c : Tables} (h : Untouched c₀ c) {i seq : Nat} {r : BatchResult}
    {now : Timestamp} {c' : Tables} (hlogs : c'.logs = c.logs ++ World.logRows seq i r.outcomes)
    (hact : c'.action = (c.updateAction r.recordUpdate now).action) : RecordedOnce c₀ c' i := by
  refine ⟨r, seq, by rw [hlogs, h.1], ?_⟩
  rw [hact, counters_recordUpdate]
  have := congrArg (Option.map (fun k => Counters.record k r)) h.2
  simpa [Function.comp_def] using this

theorem finished_updateBatch {c : Tables} {i : Nat} {u : BatchUpdate} {now : Timestamp}
    (hrow : (c.batches i).isSome) (hu : ∀ b, (u.set now b).finished) :
    (c.updateBatch i u now).Finished i := by
  obtain ⟨b, hb⟩ := Option.isSome_iff_exists.mp hrow
  exact ⟨u.set now b, by simp [hb], hu b⟩

theorem effect_recorded {settings : Settings} {c₀ c c' : Tables} {job : BatchJob} {pc : BatchPc}
    (h : Effect settings c (.batch job pc) c') (hpres : pc.Present job c)
    (hopen : pc.needsOpen → ¬ c.Finished job.index)
    (hrec : Untouched c₀ c ∨ (c.Finished job.index ∧ RecordedOnce c₀ c job.index)) :
    Untouched c₀ c' ∨ (c'.Finished job.index ∧ RecordedOnce c₀ c' job.index) := by
  have untouched : pc.needsOpen → Untouched c₀ c :=
    fun hn => hrec.resolve_right (fun hf => hopen hn hf.1)
  cases h with
  | batchCancelled => exact Or.inl (untouched rfl)
  | attempt _ => exact Or.inl (untouched rfl)
  | attemptLate => exact hrec
  | @work n seq r now now' =>
    exact Or.inr ⟨finished_updateBatch hpres.2 (fun _ => rfl), (untouched rfl).record rfl rfl⟩
  | finalized _ =>
    rcases hrec with ⟨hlogs, hact⟩ | ⟨hfin, r, seq, hlogs, hact⟩
    · exact Or.inl ⟨hlogs, (counters_updateAction (fun _ => rfl)).trans hact⟩
    · exact Or.inr ⟨hfin, r, seq, hlogs, (counters_updateAction (fun _ => rfl)).trans hact⟩
  | notFinalized => exact hrec
  | @batchFailed n seq error now now' =>
    exact Or.inr ⟨finished_updateBatch hpres.2 (fun _ => rfl), (untouched rfl).record rfl rfl⟩

theorem effect_finished {settings : Settings} {c c' : Tables} {job : BatchJob} {pc : BatchPc}
    (h : Effect settings c (.batch job pc) c') (hopen : pc.needsOpen → ¬ c.Finished job.index)
    (hfin : c.Finished job.index) : c'.batches job.index = c.batches job.index := by
  cases h <;> first | rfl | exact absurd hfin (hopen rfl)

/-- Recording an attempt leaves the row open. -/
theorem effect_needsOpen {env : Env} {c c' : Tables} {ext : External} {ws : List Write}
    {job : BatchJob} {pc next : BatchPc} (hm : BatchMove env.text job ext c ws pc next)
    (h : Effect env.settings c (.batch job pc) c') (hn : next.needsOpen)
    (hopen : pc.needsOpen → ¬ c.Finished job.index) : ¬ c'.Finished job.index := by
  cases h with
  | attempt _ =>
    rintro ⟨b, hb, hfin⟩
    simp only [Tables.updateBatch_batches, Function.update_self, Option.map_eq_some_iff] at hb
    obtain ⟨b₀, _, rfl⟩ := hb
    simp [BatchUpdate.set, BulkActionBatch.finished] at hfin
  | attemptLate => exact hopen rfl
  | _ => cases hm <;> simp [BatchPc.needsOpen] at hn

theorem onceSafe_atRest {env : Env} {i : Nat} {s : Sys} (rest : s.AtRest) :
    OnceSafe env i s.world.committed s where
  consistent := consistent_atRest rest
  serves := fun p => by simp [rest.idle p, Proc.ServesBatch]
  single := fun p q hp => by simp [rest.idle p, Proc.running] at hp
  opened := fun p job pc hp => by simp [rest.idle p] at hp
  recorded := Or.inl ⟨rfl, rfl⟩

/-- One process moves on while no other one is running. -/
theorem onceSafe_set {env : Env} {i : Nat} {c₀ : Tables} {s : Sys} {p : Pid} {w : World}
    {proc : Proc} (hs : OnceSafe env i c₀ s) (hc : Consistent env (s.set w p proc))
    (alone : ∀ q, q ≠ p → ¬ (s.procs q).running) (hserves : proc.ServesBatch i)
    (hopen : ∀ job pc, proc = .batch job pc → pc.needsOpen → ¬ w.committed.Finished i)
    (hrec : Untouched c₀ w.committed ∨ (w.committed.Finished i ∧ RecordedOnce c₀ w.committed i)) :
    OnceSafe env i c₀ (s.set w p proc) where
  consistent := hc
  serves := by
    intro q
    by_cases hq : q = p
    · subst hq
      rwa [set_procs_self]
    · rw [set_procs_ne _ _ _ hq]
      exact hs.serves q
  single := by
    have only : ∀ q, ((s.set w p proc).procs q).running → q = p := by
      intro q hq
      by_contra hne
      rw [set_procs_ne _ _ _ hne] at hq
      exact alone q hne hq
    exact fun q r hq hr => (only q hq).trans (only r hr).symm
  opened := by
    intro q job pc hq hn
    by_cases hqp : q = p
    · subst hqp
      rw [set_procs_self] at hq
      exact hopen job pc hq hn
    · rw [set_procs_ne _ _ _ hqp] at hq
      have hr : (s.procs q).running := by
        rw [hq]
        exact needsOpen_running hn
      exact absurd hr (alone q hqp)
  recorded := hrec

theorem OnceSafe.alone {env : Env} {i : Nat} {c₀ : Tables} {s : Sys} (hs : OnceSafe env i c₀ s)
    {p : Pid} (hp : (s.procs p).running) : ∀ q, q ≠ p → ¬ (s.procs q).running :=
  fun q hq hr => hq (hs.single q p hr hp)

theorem OnceSafe.index_eq {env : Env} {i : Nat} {c₀ : Tables} {s : Sys} (hs : OnceSafe env i c₀ s)
    {p : Pid} {job : BatchJob} {pc : BatchPc} (hp : s.procs p = .batch job pc) :
    job.index = i := by
  have hserves := hs.serves p
  rwa [hp] at hserves

/-- Only deliveries run. -/
theorem OnceSafe.batch_of_running {env : Env} {i : Nat} {c₀ : Tables} {s : Sys}
    (hs : OnceSafe env i c₀ s) {p : Pid} (hr : (s.procs p).running) :
    ∃ job pc, s.procs p = .batch job pc := by
  have hserves := hs.serves p
  cases hp : s.procs p with
  | batch job pc => exact ⟨job, pc, rfl⟩
  | plan pc | cancel pc =>
    rw [hp] at hserves
    exact hserves.elim
  | idle | lost job =>
    rw [hp] at hr
    cases hr

/-- Nothing is published and the process leaves the points that need an open row. -/
theorem onceSafe_quiet {env : Env} {i : Nat} {c₀ : Tables} {s : Sys} {p : Pid} {w : World}
    {proc : Proc} (hs : OnceSafe env i c₀ s) (hc : Consistent env (s.set w p proc))
    (alone : ∀ q, q ≠ p → ¬ (s.procs q).running) (hw : w.committed = s.world.committed)
    (hserves : proc.ServesBatch i) (hclosed : ∀ job pc, proc = .batch job pc → ¬ pc.needsOpen) :
    OnceSafe env i c₀ (s.set w p proc) :=
  onceSafe_set hs hc alone hserves (fun job pc he hn => absurd hn (hclosed job pc he))
    (hw ▸ hs.recorded)

theorem onceSafe_step {env : Env} {i : Nat} {c₀ : Tables} {s s' : Sys} {l : Label}
    (hs : OnceSafe env i c₀ s) (ok : Sequential i s l ∧ failsInTime env s l)
    (h : s.step env l = some s') : OnceSafe env i c₀ s' := by
  have hc := consistent_step hs.consistent h
  have fresh : ∀ {w p} {job : BatchJob}, job.index = i → w.committed = s.world.committed →
      (∀ q, ¬ (s.procs q).running) → Consistent env (s.set w p (.batch job .loadAction)) →
      OnceSafe env i c₀ (s.set w p (.batch job .loadAction)) :=
    fun hi hw idle hc => onceSafe_quiet hs hc (fun q _ => idle q) hw hi
      (fun _ _ he => by cases he; simp [BatchPc.needsOpen])
  obtain ⟨⟨hserve, hstart⟩, hfail⟩ := ok
  cases step_moves hs.consistent h with
  | @deliver p job _ _ =>
    cases job with
    | plan => cases hserve
    | batch job => exact fresh (by simpa [Label.serves] using hserve) rfl (hstart rfl) hc
  | @duplicate p job _ =>
    cases job with
    | plan => cases hserve
    | batch job => exact fresh (by simpa [Label.serves] using hserve) rfl (hstart rfl) hc
  | @redeliver p job hp =>
    have hserves := hs.serves p
    rw [hp] at hserves
    cases job with
    | plan => exact hserves.elim
    | batch job => exact fresh hserves rfl (hstart rfl) hc
  | cancel _ => cases hserve
  | @batch p ext job pc next w reply hp _ hm hpub =>
    have hserves := hs.index_eq hp
    have hpres := hs.consistent.present p
    rw [hp] at hpres
    have hopen : pc.needsOpen → ¬ s.world.committed.Finished job.index :=
      fun hn => hserves ▸ hs.opened p job pc hp hn
    have hnext : next.needsOpen → ¬ s.world.committed.Finished job.index := by
      intro hn
      rcases batchMove_needsOpen hm hn
        (fun a hpc b hb => failsInTime_load hfail (hpc ▸ hp) hb) with hn | hn
      · exact hopen hn
      · exact hn
    apply onceSafe_set hs hc (hs.alone (hp ▸ batchMove_running hm)) hserves
    · intro job' pc' he hn
      cases he
      rw [← hserves]
      rcases hpub with ⟨hw, _⟩ | ⟨_, heff⟩
      · rw [hw]
        exact hnext hn
      · exact effect_needsOpen hm heff hn hopen
    · rcases hpub with ⟨hw, _⟩ | ⟨_, heff⟩
      · exact hw ▸ hs.recorded
      · subst hserves
        exact effect_recorded heff hpres hopen hs.recorded
  | @refused p ext job limit n hp =>
    exact onceSafe_quiet hs hc (hs.alone (by rw [hp]; rfl)) rfl (hs.index_eq hp)
      (fun _ _ he => by cases he)
  | @plan p ext pc next w reply hp hr _ _ _ =>
    obtain ⟨job, pc', hbatch⟩ := hs.batch_of_running (hp ▸ hr)
    cases hp.symm.trans hbatch
  | @planFailed p ext error w reply hp _ _ =>
    obtain ⟨job, pc', hbatch⟩ := hs.batch_of_running (by rw [hp]; rfl)
    cases hp.symm.trans hbatch
  | @cancelling p ext pc w reply hp hr _ _ =>
    obtain ⟨job, pc', hbatch⟩ := hs.batch_of_running (hp ▸ hr)
    cases hp.symm.trans hbatch
  | @raise p error hr hpub =>
    obtain ⟨job, pc, hp⟩ := hs.batch_of_running hr
    have hserves := hs.index_eq hp
    have halone := hs.alone hr
    rw [hp] at hpub hc ⊢
    rcases handler_batch env error job pc with ⟨hl, _⟩ | ⟨n, hn, hlast, hm⟩
    · rw [hl] at hc ⊢
      exact onceSafe_quiet hs hc halone rfl hserves (fun _ _ he => by cases he)
    · rw [hm] at hc ⊢
      have hopen := hs.opened p job pc hp
        (handler_needsOpen hn hlast hpub (failsInTime_raise hfail hp))
      exact onceSafe_set hs hc halone hserves (fun _ _ _ _ => hopen) hs.recorded
  | @swallow p job n r payload error hp =>
    refine onceSafe_quiet hs hc (hs.alone (by rw [hp]; rfl)) rfl (hs.index_eq hp) ?_
    intro _ _ he
    cases he
    simp [BatchPc.needsOpen]
  | @crash p hr =>
    obtain ⟨job, pc, hp⟩ := hs.batch_of_running hr
    have halone := hs.alone hr
    rw [hp] at hc ⊢
    exact onceSafe_quiet hs hc halone rfl (hs.index_eq hp) (fun _ _ he => by cases he)

/-- A finished batch row is left alone. -/
theorem finished_step {env : Env} {i : Nat} {c₀ : Tables} {s s' : Sys} {l : Label}
    (hs : OnceSafe env i c₀ s) (h : s.step env l = some s') (hfin : s.world.committed.Finished i) :
    s'.world.committed.batches i = s.world.committed.batches i := by
  rcases step_effect hs.consistent h with hc | ⟨p, ext, _, _, heff⟩
  · rw [hc]
  · have hserves := hs.serves p
    cases hp : s.procs p with
    | batch job pc =>
      rw [hp] at heff hserves
      cases hserves
      exact effect_finished heff (hs.opened p job pc hp) hfin
    | idle => rw [hp] at heff; cases heff
    | lost job => rw [hp] at heff; cases heff
    | _ => simp_all [Proc.ServesBatch]

/-- Over any sequence of deliveries of one batch whose failures all come in time, its outcome
is recorded at most once, and its row is final once it is completed or failed. -/
theorem batch_recorded_at_most_once {env : Env} {i : Nat} {s₀ s s' : Sys} (rest : s₀.AtRest)
    (h : Sys.Reaches env (fun s l => Sequential i s l ∧ failsInTime env s l) s₀ s)
    (h' : Sys.Reaches env (fun s l => Sequential i s l ∧ failsInTime env s l) s s') :
    (Untouched s₀.world.committed s.world.committed ∨
      RecordedOnce s₀.world.committed s.world.committed i) ∧
    (∀ b, s.world.committed.batches i = some b → b.status = .completed ∨ b.status = .failed →
      s'.world.committed.batches i = some b) := by
  have safe : OnceSafe env i s₀.world.committed s :=
    h.invariant onceSafe_step (onceSafe_atRest rest)
  refine ⟨safe.recorded.imp_right And.right, ?_⟩
  intro b hb hst
  have hfin : b.finished := by simpa [BulkActionBatch.finished] using hst
  have kept : OnceSafe env i s₀.world.committed s' ∧ s'.world.committed.batches i = some b := by
    refine Runs.Reaches.invariant (P := fun s => OnceSafe env i s₀.world.committed s ∧
      s.world.committed.batches i = some b) ?_ h' ⟨safe, hb⟩
    rintro s₁ s₂ l ⟨hs, hb⟩ ok hl
    exact ⟨onceSafe_step hs ok hl, (finished_step hs hl ⟨b, hb, hfin⟩).trans hb⟩
  exact kept.2

/-- A worker alone on a batch delivers it sequentially. -/
theorem sequential_alone {i : Nat} {s : Sys} {l : Label} (alone : s.Alone l.pid)
    (hserve : l.serves i) (hidle : l.starts → ¬ (s.procs l.pid).running) : Sequential i s l := by
  refine ⟨hserve, ?_⟩
  intro hstart q
  by_cases hq : q = l.pid
  · exact hq ▸ hidle hstart
  · simp [alone q hq, Proc.running]

/-- Steps of worker 0 that deliver batch 0 one at a time. -/
def servesAlone (s : Sys) (l : Label) : Bool :=
  l.pid = 0 && l.serves 0 && (!l.starts || !(s.procs 0).running)

theorem servesAlone_sequential {s : Sys} {l : Label} (alone : s.Alone 0) (h : servesAlone s l) :
    l.pid = 0 ∧ Sequential 0 s l := by
  obtain ⟨⟨hp, hserve⟩, hidle⟩ :
      (l.pid = 0 ∧ l.serves 0) ∧ (l.starts = false ∨ (s.procs 0).running = false) := by
    simpa [servesAlone] using h
  refine ⟨hp, sequential_alone (hp ▸ alone) hserve ?_⟩
  intro hstart
  rw [hp]
  simpa [hstart] using hidle

/-- A delivery that raises in its work transaction and is then delivered again. -/
theorem batch_recorded_at_most_once_retried :
    ∃ s, Sys.Reaches defaultEnv (fun s l => Sequential 0 s l ∧ failsInTime defaultEnv s l)
        (plannedContacts []) s ∧
      s.world.committed.action.map BulkAction.completedBatches = some 1 ∧
      (Untouched (plannedContacts []).world.committed s.world.committed ∨
        RecordedOnce (plannedContacts []).world.committed s.world.committed 0) := by
  let labels : List Label := .duplicate 0 (.batch ⟨0, 0, 1⟩) :: List.replicate 8 (Label.run 0 {}) ++
    [Label.raise 0 "connection reset", .redeliver 0] ++ List.replicate 8 (Label.run 0 {}) ++
    Label.run 0 activeContact :: List.replicate 4 (Label.run 0 {})
  let check (s : Sys) (l : Label) : Bool := servesAlone s l && failsInTime defaultEnv s l
  obtain ⟨s, hs, hcount⟩ : ∃ s,
      Runs.checkedSteps (Sys.step defaultEnv) check (plannedContacts []) labels = some s ∧
      s.world.committed.action.map BulkAction.completedBatches = some 1 :=
    Option.bind_eq_some_iff.mp (by decide)
  have hr : Sys.Reaches defaultEnv (fun s l => Sequential 0 s l ∧ failsInTime defaultEnv s l)
      (plannedContacts []) s := by
    refine Runs.reaches_of_checked (P := Sys.Alone 0) ?_ ?_ (fun _ _ => rfl) hs
    · intro s l alone hc
      obtain ⟨hserve, hfail⟩ := Bool.and_eq_true_iff.mp hc
      exact ⟨(servesAlone_sequential alone hserve).2, hfail⟩
    · intro s s' l alone hc hl
      obtain ⟨hserve, _⟩ := Bool.and_eq_true_iff.mp hc
      exact alone_step alone (servesAlone_sequential alone hserve).1 hl
  exact ⟨s, hr, hcount, (batch_recorded_at_most_once (Tables.sys_atRest _ _) hr .refl).1⟩

/-- On the last try an exception after the work commit marks the completed batch as failed
and counts it again. -/
theorem completed_batch_failed_again :
    ¬ ∀ (i : Nat) (s₀ s s' : Sys), s₀.AtRest → Sys.Reaches defaultEnv (Sequential i) s₀ s →
      Sys.Reaches defaultEnv (Sequential i) s s' →
      (Untouched s₀.world.committed s.world.committed ∨
        RecordedOnce s₀.world.committed s.world.committed i) ∧
      (∀ b, s.world.committed.batches i = some b → b.status = .completed ∨ b.status = .failed →
        s'.world.committed.batches i = some b) := by
  intro always
  let labels : List Label := .duplicate 0 (.batch ⟨0, 0, 3⟩) :: List.replicate 8 (Label.run 0 {}) ++
    Label.run 0 activeContact :: List.replicate 4 (Label.run 0 {}) ++
    Label.raise 0 "connection reset" :: List.replicate 4 (Label.run 0 {})
  obtain ⟨s, hs, hcount⟩ : ∃ s,
      Runs.checkedSteps (Sys.step defaultEnv) servesAlone (plannedContacts []) labels = some s ∧
      (s.world.committed.action.map BulkAction.counters).map Counters.completed = some 2 :=
    Option.bind_eq_some_iff.mp (by decide)
  have hr : Sys.Reaches defaultEnv (Sequential 0) (plannedContacts []) s :=
    Runs.reaches_of_checked (P := Sys.Alone 0)
      (fun alone hc => (servesAlone_sequential alone hc).2)
      (fun alone hc hl => alone_step alone (servesAlone_sequential alone hc).1 hl)
      (fun _ _ => rfl) hs
  rcases (always 0 _ s s (Tables.sys_atRest _ _) hr .refl).1 with ⟨_, hk⟩ | ⟨r, _, _, hk⟩ <;>
    rw [hk] at hcount <;>
    simp [Tables.sys, World.committed, contactsAction, BulkAction.counters, Counters.record]
      at hcount

end BulkActions
