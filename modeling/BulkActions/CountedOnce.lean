import BulkActions.Moves
import BulkActions.RowSums

namespace BulkActions

/-- Between the guard SELECT of the work transaction and its commit. -/
def BatchPc.working : BatchPc → Bool
  | .runBatch _ _ _ => true
  | .writeOutcomes _ _ => true
  | .updateBatch _ _ => true
  | .recordCompletion _ _ => true
  | .workCommit _ _ => true
  | _ => false

/-- Deliveries of batch jobs and their steps: nobody plans, cancels, raises or crashes. -/
def Label.delivers : Label → Bool
  | .deliver _ (.batch _) => true
  | .duplicate _ (.batch _) => true
  | .redeliver _ => true
  | .run _ _ => true
  | _ => false

/-- When a delivery reads its batch row in the work transaction, no other delivery of the
same batch is between that SELECT and its commit. -/
def SoleWorker (s : Sys) (l : Label) : Prop :=
  ∀ p ext job n a, l = .run p ext → s.procs p = .batch job (.reloadBatch n a) →
    ∀ q job' pc, s.procs q = .batch job' pc → job'.index = job.index → ¬ pc.working

def Tables.Unfinished (c : Tables) (i : Nat) : Prop :=
  ∀ b, c.batches i = some b → b.status ≠ .completed

/-- What a delivery relies on at each point; `x` says whether the action is cancelled. -/
def BatchPc.Path (x : Prop) (c : Tables) (i : Nat) : BatchPc → Prop
  | .loadAction => True
  | .loadBatch a => a.status = .cancelled ↔ x
  | .cancelBatch => x ∧ c.Unfinished i
  | .cancelCommit => x ∧ c.Unfinished i
  | .loadAccount _ => ¬ x
  | .rateLimit _ _ => ¬ x
  | .recordAttempt _ => ¬ x
  | .attemptCommit _ => ¬ x
  | .reloadAction _ => ¬ x
  | .reloadBatch _ _ => ¬ x
  | .runBatch _ _ _ => ¬ x ∧ c.Unfinished i
  | .writeOutcomes _ _ => ¬ x ∧ c.Unfinished i
  | .updateBatch _ _ => ¬ x ∧ c.Unfinished i
  | .recordCompletion _ _ => ¬ x ∧ c.Unfinished i
  | .workCommit _ _ => ¬ x ∧ c.Unfinished i
  | .markBatch _ _ => False
  | .markOutcomes _ _ => False
  | .markRecord _ _ => False
  | .markCommit _ _ => False
  | _ => True

def Proc.Path (x : Prop) (c : Tables) : Proc → Prop
  | .idle => True
  | .batch job pc => pc.Path x c job.index
  | .lost (.batch _) => True
  | _ => False

/-- The counters of the action are those of its completed batch rows, of which there are
fewer than `n`. -/
def Counted (n : Nat) (c : Tables) : Prop :=
  ∀ a, c.action = some a →
    a.completedBatches = rowSum n (completedValue fun _ => 1) c.batches ∧
    a.successCount = rowSum n (completedValue BulkActionBatch.successCount) c.batches ∧
    a.failureCount = rowSum n (completedValue BulkActionBatch.failureCount) c.batches ∧
    a.skippedCount = rowSum n (completedValue BulkActionBatch.skippedCount) c.batches

structure CountSafe (env : Env) (n : Nat) (x : Prop) (s : Sys) : Prop where
  consistent : Consistent env s
  bounded : ∀ i, n ≤ i → s.world.committed.batches i = none
  cancelled : ∀ a, s.world.committed.action = some a → (a.status = .cancelled ↔ x)
  path : ∀ p, (s.procs p).Path x s.world.committed
  sole : ∀ p q job job' pc pc', s.procs p = .batch job pc → s.procs q = .batch job' pc' →
    job.index = job'.index → pc.working → pc'.working → p = q
  counted : Counted n s.world.committed

theorem batchMove_path {text : PyText} {job : BatchJob} {ext : External} {c : Tables}
    {ws : List Write} {pc next : BatchPc} {x : Prop} (h : BatchMove text job ext c ws pc next)
    (hx : ∀ a, c.action = some a → (a.status = .cancelled ↔ x))
    (hp : pc.Path x c job.index) : next.Path x c job.index := by
  cases h with
  | loadedAction ha => exact hx _ ha
  | toCancel hb hne hst =>
    refine ⟨hp.mp hst, ?_⟩
    intro b' hb'
    cases Option.some.inj (hb.symm.trans hb')
    exact hne
  | loadedBatch hb hne hst => exact fun hx => hst (hp.mpr hx)
  | reloadedBatch hb hne =>
    refine ⟨hp, ?_⟩
    intro b' hb'
    cases Option.some.inj (hb.symm.trans hb')
    exact hne
  | @notFinalizable after _ => cases after <;> trivial
  | @finalizeUpdate after _ _ => cases after <;> trivial
  | _ => first | exact hp | trivial

theorem batchMove_working {text : PyText} {job : BatchJob} {ext : External} {c : Tables}
    {ws : List Write} {pc next : BatchPc} (h : BatchMove text job ext c ws pc next)
    (hn : next.working) : pc.working ∨ ∃ n a, pc = .reloadBatch n a := by
  cases h with
  | reloadedBatch _ _ => exact Or.inr ⟨_, _, rfl⟩
  | @notFinalizable after _ => cases after <;> simp [BatchPc.afterFinalize, BatchPc.working] at hn
  | @finalizeUpdate after _ _ =>
    cases after <;> simp [BatchPc.afterFinalize, BatchPc.working] at hn
  | _ => first | exact Or.inl rfl | simp [BatchPc.working] at hn

/-- Only the commit of a work transaction completes a batch row. -/
theorem effect_unfinished {settings : Settings} {c c' : Tables} {job : BatchJob} {pc : BatchPc}
    {x : Prop} {i : Nat} (h : Effect settings c (.batch job pc) c') (hp : pc.Path x c job.index)
    (hi : c.Unfinished i) (hw : pc.working → job.index ≠ i) : c'.Unfinished i := by
  have update : ∀ {u : BatchUpdate} {now}, (∀ b, (u.set now b).status ≠ .completed) →
      (c.updateBatch job.index u now).Unfinished i := by
    intro u now hu b hb
    by_cases hij : i = job.index
    · subst hij
      simp only [Tables.updateBatch_batches, Function.update_self, Option.map_eq_some_iff] at hb
      obtain ⟨b₀, _, rfl⟩ := hb
      exact hu b₀
    · rw [Tables.updateBatch_batches, Function.update_of_ne hij] at hb
      exact hi b hb
  cases h with
  | batchCancelled => exact update (by simp [BatchUpdate.set])
  | attempt _ => exact update (by simp [BatchUpdate.set])
  | attemptLate => exact hi
  | work =>
    intro b hb
    have hne : i ≠ job.index := fun he => hw rfl he.symm
    simp only [Tables.updateAction_batches, Tables.updateBatch_batches, Tables.addLogs_batches,
      Function.update_of_ne hne] at hb
    exact hi b hb
  | finalized _ => exact hi
  | notFinalized => exact hi
  | batchFailed => exact hp.elim

theorem path_of_unfinished {pc : BatchPc} {x : Prop} {c c' : Tables} {i : Nat}
    (hp : pc.Path x c i) (h : (pc.working ∨ x) → c.Unfinished i → c'.Unfinished i) :
    pc.Path x c' i := by
  cases pc with
  | cancelBatch => exact ⟨hp.1, h (Or.inr hp.1) hp.2⟩
  | cancelCommit => exact ⟨hp.1, h (Or.inr hp.1) hp.2⟩
  | runBatch n a b => exact ⟨hp.1, h (Or.inl rfl) hp.2⟩
  | writeOutcomes n r => exact ⟨hp.1, h (Or.inl rfl) hp.2⟩
  | updateBatch n r => exact ⟨hp.1, h (Or.inl rfl) hp.2⟩
  | recordCompletion n r => exact ⟨hp.1, h (Or.inl rfl) hp.2⟩
  | workCommit n r => exact ⟨hp.1, h (Or.inl rfl) hp.2⟩
  | _ => exact hp

theorem path_working {pc : BatchPc} {x : Prop} {c : Tables} {i : Nat} (hp : pc.Path x c i)
    (hw : pc.working) : ¬ x := by
  cases pc <;> first | exact hp.1 | simp [BatchPc.working] at hw

theorem path_effect {settings : Settings} {c c' : Tables} {job : BatchJob} {pc pc' : BatchPc}
    {x : Prop} {i : Nat} (h : Effect settings c (.batch job pc) c') (hp : pc.Path x c job.index)
    (hp' : pc'.Path x c i) (sole : pc.working → pc'.working → job.index ≠ i) :
    pc'.Path x c' i := by
  apply path_of_unfinished hp'
  intro hcase hi
  apply effect_unfinished h hp hi
  intro hw
  rcases hcase with hw' | hx
  · exact sole hw hw'
  · exact absurd hx (path_working hp hw)

theorem effect_cancelled {settings : Settings} {c c' : Tables} {job : BatchJob} {pc : BatchPc}
    {x : Prop} (h : Effect settings c (.batch job pc) c')
    (hx : ∀ a, c.action = some a → (a.status = .cancelled ↔ x)) :
    ∀ a, c'.action = some a → (a.status = .cancelled ↔ x) := by
  intro a' ha'
  obtain ⟨a, ha, _, hst | ⟨hst, k, hst'⟩⟩ := batch_effect_action h ha'
  · rw [hst]
    exact hx a ha
  · have hnot : ¬ x := fun hx' => by simpa [hst] using (hx a ha).mpr hx'
    rcases finalStatus_cases k with hk | hk <;> simp [hst', hk, hnot]

theorem counted_of_batches {n : Nat} {c c' : Tables} (hc : Counted n c)
    (ha : ∀ a', c'.action = some a' → ∃ a, c.action = some a ∧
      a'.completedBatches = a.completedBatches ∧ a'.successCount = a.successCount ∧
      a'.failureCount = a.failureCount ∧ a'.skippedCount = a.skippedCount)
    (hb : ∀ f, rowSum n (completedValue f) c'.batches = rowSum n (completedValue f) c.batches) :
    Counted n c' := by
  intro a' ha'
  obtain ⟨a, ha, h1, h2, h3, h4⟩ := ha a' ha'
  rw [h1, h2, h3, h4, hb, hb, hb, hb]
  exact hc a ha

theorem completedValue_unfinished {c : Tables} {i : Nat} (h : c.Unfinished i)
    (f : BulkActionBatch → Nat) : completedValue f (c.batches i) = 0 := by
  cases hb : c.batches i with
  | none => rfl
  | some b => simp [completedValue, h b hb]

/-- An UPDATE that leaves a row short of completed changes none of the sums. -/
theorem counted_updateBatch {n : Nat} {c : Tables} (hc : Counted n c) {i : Nat} (hi : i < n)
    (hu : c.Unfinished i) {u : BatchUpdate} {now : Timestamp}
    (hset : ∀ b, (u.set now b).status ≠ .completed) : Counted n (c.updateBatch i u now) := by
  apply counted_of_batches hc
  · exact fun a ha => ⟨a, ha, rfl, rfl, rfl, rfl⟩
  · intro f
    have h := rowSum_update hi (completedValue f) c.batches ((c.batches i).map (u.set now))
    have hnew : completedValue f ((c.batches i).map (u.set now)) = 0 := by
      cases c.batches i with
      | none => rfl
      | some b => simp [completedValue, hset b]
    rw [completedValue_unfinished hu, hnew] at h
    exact h

theorem counted_work {n : Nat} {c : Tables} (hc : Counted n c) {i : Nat} (hi : i < n)
    (hu : c.Unfinished i) (hrow : (c.batches i).isSome) (ls : List BulkActionLog)
    (r : BatchResult) (now now' : Timestamp) :
    Counted n (((c.addLogs ls).updateBatch i r.completeUpdate now).updateAction
      r.recordUpdate now') := by
  obtain ⟨b, hb⟩ := Option.isSome_iff_exists.mp hrow
  have sum : ∀ f : BulkActionBatch → Nat, rowSum n (completedValue f)
      (Function.update c.batches i (some (r.completeUpdate.set now b))) =
      rowSum n (completedValue f) c.batches + f (r.completeUpdate.set now b) := by
    intro f
    have h := rowSum_update hi (completedValue f) c.batches (some (r.completeUpdate.set now b))
    rw [completedValue_unfinished hu] at h
    simpa [completedValue, BatchResult.completeUpdate, BatchUpdate.set] using h
  intro a' ha'
  obtain ⟨a, ha, rfl⟩ := Option.map_eq_some_iff.mp ha'
  obtain ⟨h1, h2, h3, h4⟩ := hc a ha
  simp only [Tables.updateAction_batches, Tables.updateBatch_batches, Tables.addLogs_batches, hb,
    Option.map_some, sum]
  simp only [BatchResult.recordUpdate, ActionUpdate.set, h1, h2, h3, h4]
  exact ⟨rfl, rfl, rfl, rfl⟩

theorem counted_effect {settings : Settings} {n : Nat} {c c' : Tables} {job : BatchJob}
    {pc : BatchPc} {x : Prop} (h : Effect settings c (.batch job pc) c')
    (hp : pc.Path x c job.index) (hpres : pc.Present job c)
    (hbound : ∀ i, n ≤ i → c.batches i = none) (hc : Counted n c) : Counted n c' := by
  have below : (c.batches job.index).isSome → job.index < n := by
    intro hs
    by_contra hge
    simp [hbound _ (Nat.le_of_not_lt hge)] at hs
  cases h with
  | batchCancelled =>
    exact counted_updateBatch hc (below hpres.2) hp.2 (by simp [BatchUpdate.set])
  | attempt hne => exact counted_updateBatch hc (below hpres.2) hne (by simp [BatchUpdate.set])
  | attemptLate => exact hc
  | work => exact counted_work hc (below hpres.2) hp.2 hpres.2 _ _ _ _
  | finalized _ =>
    apply counted_of_batches hc
    · intro a' ha'
      obtain ⟨a, ha, rfl⟩ := Option.map_eq_some_iff.mp ha'
      exact ⟨a, ha, rfl, rfl, rfl, rfl⟩
    · exact fun _ => rfl
  | notFinalized => exact hc
  | batchFailed => exact hp.elim

theorem countSafe_atRest {env : Env} {n : Nat} {s : Sys} (rest : s.AtRest)
    (hbound : ∀ i, n ≤ i → s.world.committed.batches i = none)
    (hc : Counted n s.world.committed) :
    CountSafe env n (s.status = some .cancelled) s where
  consistent := consistent_atRest rest
  bounded := hbound
  cancelled := fun a ha => by simp [Sys.status, ha]
  path := fun p => by simp [rest.idle p, Proc.Path]
  sole := fun p q job job' pc pc' hp => by simp [rest.idle p] at hp
  counted := hc

/-- A commit leaves no work transaction open. -/
theorem batchMove_commit {settings : Settings} {text : PyText} {job : BatchJob} {ext : External}
    {c : Tables} {ws : List Write} {pc next : BatchPc} (h : BatchMove text job ext c ws pc next)
    (hst : pc.stmt settings job = .commit) : ¬ next.working := by
  intro hw
  cases h with
  | writeOutcomes =>
    simp only [BatchPc.stmt, writeOutcomes] at hst
    split at hst <;> simp at hst
  | @notFinalizable after _ => cases after <;> simp [BatchPc.afterFinalize, BatchPc.working] at hw
  | @finalizeUpdate after _ _ =>
    cases after <;> simp [BatchPc.afterFinalize, BatchPc.working] at hw
  | _ => first | (cases hst; done) | cases hw

/-- One process moves on, having published at most its own commit. -/
theorem countSafe_set {env : Env} {n : Nat} {x : Prop} {s : Sys} {p : Pid} {w : World}
    {proc : Proc} (hs : CountSafe env n x s) (hc : Consistent env (s.set w p proc))
    (hpub : w.committed = s.world.committed ∨ ∃ job pc, s.procs p = .batch job pc ∧
      Effect env.settings s.world.committed (.batch job pc) w.committed ∧
      ∀ job pc, proc = .batch job pc → ¬ pc.working)
    (hp : proc.Path x s.world.committed)
    (hout : ∀ job pc, proc = .batch job pc → pc.working → ∀ q job' pc', q ≠ p →
      s.procs q = .batch job' pc' → job'.index = job.index → ¬ pc'.working) :
    CountSafe env n x (s.set w p proc) := by
  have sole : ∀ q r job job' pc pc', (s.set w p proc).procs q = .batch job pc →
      (s.set w p proc).procs r = .batch job' pc' → job.index = job'.index → pc.working →
      pc'.working → q = r := by
    intro q r job job' pc pc' hq hr hij hwq hwr
    by_cases hqp : q = p
    · subst hqp
      by_contra hne
      rw [set_procs_self] at hq
      rw [set_procs_ne _ _ _ (Ne.symm hne)] at hr
      exact hout job pc hq hwq r job' pc' (Ne.symm hne) hr hij.symm hwr
    · rw [set_procs_ne _ _ _ hqp] at hq
      by_cases hrp : r = p
      · subst hrp
        rw [set_procs_self] at hr
        exact absurd hwq (hout job' pc' hr hwr q job pc hqp hq hij)
      · rw [set_procs_ne _ _ _ hrp] at hr
        exact hs.sole q r job job' pc pc' hq hr hij hwq hwr
  rcases hpub with hw | ⟨job, pc, hjob, heff, hidle⟩
  · refine ⟨hc, hw ▸ hs.bounded, hw ▸ hs.cancelled, ?_, sole, hw ▸ hs.counted⟩
    intro q
    rw [set_world, hw]
    by_cases hq : q = p
    · subst hq
      rwa [set_procs_self]
    · rw [set_procs_ne _ _ _ hq]
      exact hs.path q
  · have hpath := hs.path p
    have hpres := hs.consistent.present p
    rw [hjob] at hpath hpres
    refine ⟨hc, fun i hi => ?_, effect_cancelled heff hs.cancelled, fun q => ?_, sole,
      counted_effect heff hpath hpres hs.bounded hs.counted⟩
    · simpa [hs.bounded i hi] using batch_effect_isSome heff i
    have other : ∀ {proc' : Proc}, proc'.Path x s.world.committed →
        (∀ job' pc', proc' = .batch job' pc' → pc.working → pc'.working →
          job.index ≠ job'.index) → proc'.Path x w.committed := by
      intro proc' hq hne
      cases proc' with
      | batch job' pc' => exact path_effect heff hpath hq (hne job' pc' rfl)
      | lost job' => cases job' <;> exact hq
      | _ => exact hq
    by_cases hq : q = p
    · subst hq
      rw [set_procs_self]
      exact other hp (fun job' pc' he _ hw' => absurd hw' (hidle job' pc' he))
    · rw [set_procs_ne _ _ _ hq]
      refine other (hs.path q) ?_
      intro job' pc' hq' hw hw' hij
      exact hq (hs.sole p q job job' pc pc' hjob hq' hij hw hw').symm

theorem countSafe_step {env : Env} {n : Nat} {x : Prop} {s s' : Sys} {l : Label}
    (hs : CountSafe env n x s) (ok : l.delivers ∧ SoleWorker s l)
    (h : s.step env l = some s') : CountSafe env n x s' := by
  have hc := consistent_step hs.consistent h
  have fresh : ∀ {w p job}, w.committed = s.world.committed → Consistent env
      (s.set w p (.batch job .loadAction)) →
        CountSafe env n x (s.set w p (.batch job .loadAction)) :=
    fun hw hc => countSafe_set hs hc (Or.inl hw) trivial
      (fun _ _ he hw => by cases he; simp [BatchPc.working] at hw)
  obtain ⟨hdel, hsole⟩ := ok
  cases step_moves hs.consistent h with
  | @deliver p job _ _ =>
    cases job with
    | plan => cases hdel
    | batch job => exact fresh rfl hc
  | @duplicate p job _ =>
    cases job with
    | plan => cases hdel
    | batch job => exact fresh rfl hc
  | @redeliver p job hp =>
    have hpath := hs.path p
    rw [hp] at hpath
    cases job with
    | plan => exact hpath.elim
    | batch job => exact fresh rfl hc
  | cancel _ => cases hdel
  | @batch p ext job pc next w reply hp _ hm hpub =>
    have hpath := hs.path p
    rw [hp] at hpath
    apply countSafe_set hs hc
    · rcases hpub with ⟨hw, _⟩ | ⟨hst, heff⟩
      · exact Or.inl hw
      · refine Or.inr ⟨job, pc, hp, heff, ?_⟩
        intro job' pc' he
        cases he
        exact batchMove_commit hm hst
    · exact batchMove_path hm hs.cancelled hpath
    · intro job' pc' he hw q job'' pc'' hq hq' hij
      cases he
      rcases batchMove_working hm hw with hw | ⟨k, a, rfl⟩
      · exact fun hw' => hq (hs.sole q p job'' job pc'' pc hq' hp hij hw' hw)
      · exact hsole p ext job k a rfl hp q job'' pc'' hq' hij
  | @refused p ext job limit k hp =>
    exact countSafe_set hs hc (Or.inl rfl) trivial (fun _ _ he => by cases he)
  | @plan p ext pc next w reply hp _ _ _ _ =>
    have hpath := hs.path p
    rw [hp] at hpath
    exact hpath.elim
  | @planFailed p ext error w reply hp _ _ =>
    have hpath := hs.path p
    rw [hp] at hpath
    exact hpath.elim
  | @cancelling p ext pc w reply hp _ _ _ =>
    have hpath := hs.path p
    rw [hp] at hpath
    exact hpath.elim
  | raise _ _ => cases hdel
  | swallow _ => cases hdel
  | crash _ => cases hdel

/-- In every run of overlapping and repeated deliveries in which each work transaction starts
while no other delivery works on its batch, every batch is counted once. -/
theorem batches_counted_once {env : Env} {n : Nat} {s₀ s : Sys} (rest : s₀.AtRest)
    (bounded : ∀ i, n ≤ i → s₀.world.committed.batches i = none)
    (start : Counted n s₀.world.committed)
    (h : Sys.Reaches env (fun s l => l.delivers ∧ SoleWorker s l) s₀ s) :
    Counted n s.world.committed := by
  have safe : CountSafe env n (s₀.status = some .cancelled) s₀ :=
    countSafe_atRest rest bounded start
  exact (h.invariant countSafe_step safe).counted

/-- A worker that delivers alone meets the condition. -/
theorem soleWorker_alone {s : Sys} {l : Label} (alone : s.Alone l.pid) : SoleWorker s l := by
  intro p ext job n a hl hp q job' pc hq hij
  subst hl
  by_cases hqp : q = p
  · subst hqp
    cases hp.symm.trans hq
    simp [BatchPc.working]
  · simp [alone q hqp] at hq

/-- A freshly planned action has counted nothing. -/
theorem counted_of_pending {n : Nat} {c : Tables}
    (hb : ∀ i b, c.batches i = some b → b.status = .pending)
    (ha : ∀ a, c.action = some a → a.completedBatches = 0 ∧ a.successCount = 0 ∧
      a.failureCount = 0 ∧ a.skippedCount = 0) : Counted n c := by
  have zero : ∀ f, rowSum n (completedValue f) c.batches = 0 := by
    intro f
    apply rowSum_zero
    intro i
    cases h : c.batches i with
    | none => rfl
    | some b => simp [completedValue, hb i b h]
  intro a hca
  simpa [zero] using ha a hca

theorem plannedContacts_bounded (queue : List Job) (i : Nat) (hi : 1 ≤ i) :
    (plannedContacts queue).world.committed.batches i = none := by
  simp [plannedContacts, Tables.sys, World.committed, Nat.ne_of_gt hi]

theorem plannedContacts_counted (queue : List Job) :
    Counted 1 (plannedContacts queue).world.committed := by
  apply counted_of_pending
  · intro i b hb
    simp only [plannedContacts, Tables.sys, World.committed] at hb
    split at hb
    · cases Option.some.inj hb
      rfl
    · simp at hb
  · intro a ha
    cases Option.some.inj ha
    exact ⟨rfl, rfl, rfl, rfl⟩

/-- A single delivery is counted once. -/
theorem batches_counted_once_delivered :
    ∃ s, Sys.Reaches defaultEnv (fun s l => l.delivers ∧ SoleWorker s l) (plannedContacts []) s ∧
      s.world.committed.action.map BulkAction.completedBatches = some 1 ∧
      Counted 1 s.world.committed := by
  let job : Job := .batch ⟨0, 0, 1⟩
  let labels : List Label := .duplicate 0 job :: List.replicate 8 (.run 0 {}) ++
    [.run 0 activeContact] ++ List.replicate 4 (.run 0 {})
  let check (_ : Sys) (l : Label) : Bool := l.pid = 0 && l.delivers
  obtain ⟨s, hs, hcount⟩ : ∃ s,
      Runs.checkedSteps (Sys.step defaultEnv) check (plannedContacts []) labels = some s ∧
      s.world.committed.action.map BulkAction.completedBatches = some 1 :=
    Option.bind_eq_some_iff.mp (by decide)
  have hr : Sys.Reaches defaultEnv (fun s l => l.delivers ∧ SoleWorker s l)
      (plannedContacts []) s := by
    refine Runs.reaches_of_checked (P := Sys.Alone 0) ?_ ?_ (fun _ _ => rfl) hs
    · intro s l alone hc
      obtain ⟨hp, hd⟩ : l.pid = 0 ∧ l.delivers := by simpa [check] using hc
      exact ⟨hd, soleWorker_alone (hp ▸ alone)⟩
    · intro s s' l alone hc hl
      obtain ⟨hp, _⟩ : l.pid = 0 ∧ l.delivers := by simpa [check] using hc
      exact alone_step alone hp hl
  refine ⟨s, hr, hcount, ?_⟩
  exact batches_counted_once (Tables.sys_atRest _ _) (plannedContacts_bounded [])
    (plannedContacts_counted []) hr

/-- Two deliveries of one batch pass the guard together and are both counted. -/
theorem batch_counted_twice :
    ¬ ∀ (n : Nat) (s₀ s : Sys), s₀.AtRest → (∀ i, n ≤ i → s₀.world.committed.batches i = none) →
      Counted n s₀.world.committed → Sys.Reaches defaultEnv (fun _ l => l.delivers) s₀ s →
      Counted n s.world.committed := by
  intro always
  let job : Job := .batch ⟨0, 0, 1⟩
  let work (p : Pid) : List Label := .run p activeContact :: List.replicate 4 (.run p {})
  let labels : List Label := .duplicate 0 job :: List.replicate 8 (.run 0 {}) ++
    .duplicate 1 job :: List.replicate 8 (.run 1 {}) ++ work 0 ++ work 1
  obtain ⟨s, hs, hcount⟩ : ∃ s,
      Runs.steps (Sys.step defaultEnv) (plannedContacts []) labels = some s ∧
      s.world.committed.action.map BulkAction.completedBatches = some 2 :=
    Option.bind_eq_some_iff.mp (by decide)
  have hr : Sys.Reaches defaultEnv (fun _ l => l.delivers) (plannedContacts []) s :=
    Runs.reaches_of_allowed (by simp [labels, work, job, Label.delivers]) hs
  obtain ⟨a, ha, htwo⟩ := Option.map_eq_some_iff.mp hcount
  have hone := always 1 (plannedContacts []) s (Tables.sys_atRest _ _)
    (plannedContacts_bounded [])
    (plannedContacts_counted []) hr a ha
  have hle : completedValue (fun _ => 1) (s.world.committed.batches 0) ≤ 1 := by
    unfold completedValue
    split <;> [skip; split] <;> simp
  simp [rowSum] at hone
  omega

end BulkActions
