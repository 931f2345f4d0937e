import BulkActions.BatchRows
import BulkActions.FinalisedOnce

namespace BulkActions

/-- Neither runs nor holds a job of batch `i`. -/
def Proc.Avoids (i : Nat) : Proc → Prop
  | .batch job _ => job.index ≠ i
  | .lost (.batch job) => job.index ≠ i
  | _ => True

/-- A delivery of batch `i` begins. -/
def Label.startsBatch (i : Nat) : Label → Bool
  | .deliver _ (.batch job) => job.index = i
  | .duplicate _ (.batch job) => job.index = i
  | _ => false

theorem job_avoids {i : Nat} {job : Job} (h : ∀ j, job = .batch j → j.index ≠ i) :
    job.proc.Avoids i := by
  cases job with
  | plan => trivial
  | batch j => exact h j rfl

theorem handler_avoids {env : Env} {error : String} {i : Nat} {proc : Proc} (h : proc.Avoids i) :
    (proc.handler env error).Avoids i := by
  cases proc with
  | batch job pc =>
    rcases handler_batch env error job pc with ⟨hl, _⟩ | ⟨n, _, _, hm⟩
    · rw [hl]
      exact h
    · rw [hm]
      exact h
  | plan pc => cases pc <;> trivial
  | _ => exact h

/-- Only a new delivery brings a process to batch `i`. -/
theorem avoids_step {env : Env} {i : Nat} {s s' : Sys} {l : Label} (hl : l.startsBatch i = false)
    (h : s.step env l = some s') (hp : (s.procs l.pid).Avoids i) : (s'.procs l.pid).Avoids i := by
  cases step_happens h with
  | @deliver p job _ _ =>
    simp only [Label.pid, set_procs_self]
    apply job_avoids
    rintro j rfl
    simpa [Label.startsBatch] using hl
  | @duplicate p job _ =>
    simp only [Label.pid, set_procs_self]
    apply job_avoids
    rintro j rfl
    simpa [Label.startsBatch] using hl
  | @redeliver p job hlost =>
    simp only [Label.pid, set_procs_self] at hp ⊢
    rw [hlost] at hp
    cases job with
    | plan => trivial
    | batch j => exact hp
  | cancel _ =>
    simp only [Label.pid, set_procs_self]
    trivial
  | @run p ext w reply next hr _ hn =>
    simp only [Label.pid, set_procs_self] at hp ⊢
    cases hq : s.procs p with
    | batch job pc =>
      rw [hq] at hn hp
      obtain ⟨pc', _, rfl⟩ := batch_resume_ok hn
      exact hp
    | plan pc =>
      rw [hq] at hn
      obtain ⟨pc', _, rfl⟩ := plan_resume_ok hn
      trivial
    | cancel pc =>
      rw [hq] at hn
      cases Except.ok.inj hn
      trivial
    | idle => simp [hq, Proc.running] at hr
    | lost job => simp [hq, Proc.running] at hr
  | fail _ _ _ =>
    simp only [Label.pid, set_procs_self] at hp ⊢
    exact handler_avoids hp
  | raise _ _ =>
    simp only [Label.pid, set_procs_self] at hp ⊢
    exact handler_avoids hp
  | @swallow p job n r payload error hpub =>
    simp only [Label.pid, set_procs_self] at hp ⊢
    rw [hpub] at hp
    exact hp
  | @crash p _ =>
    simp only [Label.pid, set_procs_self] at hp ⊢
    cases hq : s.procs p with
    | batch job pc =>
      rw [hq] at hp
      exact hp
    | lost job =>
      rw [hq] at hp
      exact hp
    | _ => trivial

/-- A process that avoids batch `i` leaves its row alone. -/
theorem avoids_row {env : Env} {i : Nat} {s s' : Sys} {l : Label} (hs : Consistent env s)
    (h : s.step env l = some s') (hp : (s.procs l.pid).Avoids i)
    (hrow : (s.world.committed.batches i).isSome) :
    s'.world.committed.batches i = s.world.committed.batches i := by
  rcases step_effect hs h with hc | ⟨p, ext, rfl, _, heff⟩
  · rw [hc]
  · rcases effect_row heff i with
      hsame | ⟨_, _, _, _, _, _, hnone, _⟩ | ⟨job, pc, _, _, hq, hi, _, _⟩
    · exact hsame
    · simp [hnone] at hrow
    · simp only [Label.pid] at hp
      rw [hq] at hp
      exact absurd hi hp

/-- The statement at a point raises by itself. -/
def BatchPc.refuses : BatchPc → Bool
  | .rateLimit limit n => limit < n
  | _ => false

/-- Successive deliveries of the job of batch `i` to worker `p`, each with one more try than
the one before, until the tries are used up; the other workers serve other batches. -/
def successive (env : Env) (p : Pid) (i : Nat) (s : Sys) (l : Label) : Bool :=
  if l.pid = p then
    match l, s.procs p with
    | .deliver _ (.batch job), _ => job.index = i && job.jobTry = 1
    | .redeliver _, .lost (.batch job) => job.jobTry < env.settings.jobMaxTries
    | .run _ _, _ => true
    | .raise _ _, _ => true
    | _, _ => false
  else !l.startsBatch i

/-- An exception that ends the last delivery is raised in the try block, or finds the row
completed or failed. -/
def raisesInTry (env : Env) (p : Pid) (i : Nat) (s : Sys) (l : Label) : Bool :=
  match l, s.procs p with
  | .raise q _, .batch job pc => q ≠ p || job.jobTry < env.settings.jobMaxTries ||
    pc.tryCount.isSome || (s.world.committed.batches i).any BulkActionBatch.finished
  | .run q _, .batch job pc => q ≠ p || !pc.refuses || job.jobTry < env.settings.jobMaxTries ||
    (s.world.committed.batches i).any BulkActionBatch.finished
  | _, _ => true

/-- The row has been completed or failed when a delivery gets to one of these points. -/
def BatchPc.settled : BatchPc → Bool
  | .logCompleted _ _ => true
  | .done .alreadyCompleted => true
  | .done (.completed _ _ _) => true
  | .done (.failed _) => true
  | pc => pc.closing

/-- What worker `p` makes of batch `i`. -/
def Proc.Tries (settings : Settings) (i : Nat) (finished : Prop) : Proc → Prop
  | .idle => True
  | .batch job pc => job.index = i ∧ (pc.settled → finished)
  | .lost (.batch job) => job.index = i ∧ (settings.jobMaxTries ≤ job.jobTry → finished)
  | _ => False

structure PoisonSafe (env : Env) (p : Pid) (i : Nat) (x : Sys × (Mark → Nat)) : Prop where
  consistent : Consistent env x.1
  others : ∀ q, q ≠ p → (x.1.procs q).Avoids i
  present : x.1.world.committed.action.isSome
  row : (x.1.world.committed.batches i).isSome
  tries : (x.1.procs p).Tries env.settings i (x.1.world.committed.Finished i)
  counted : x.1.world.committed.Finished i → 1 ≤ x.2 (.report i)

theorem finished_congr {c c' : Tables} {i : Nat} (h : c'.batches i = c.batches i) :
    c'.Finished i ↔ c.Finished i := by
  simp [Tables.Finished, h]

theorem finished_any {c : Tables} {i : Nat} :
    (c.batches i).any BulkActionBatch.finished ↔ c.Finished i := by
  unfold Tables.Finished
  cases c.batches i <;> simp

section Deliveries

variable {env : Env} {job : BatchJob} {pc next : BatchPc} {c c' : Tables} {ext : External}
  {ws : List Write}

theorem publishes_row (h : Publishes env c (.batch job pc) c') (hpc : pc.rowUpdate = none)
    (i : Nat) : c'.batches i = c.batches i := by
  rcases h with ⟨rfl, _⟩ | ⟨_, heff⟩
  · rfl
  · rcases effect_row heff i with hsame | ⟨_, _, _, hp, _⟩ | ⟨_, _, _, _, hp, _, hu, _⟩
    · exact hsame
    · cases hp
    · cases hp
      simp [hpc] at hu

/-- A row is finished by the report of its batch. -/
theorem publishes_report (h : Publishes env c (.batch job pc) c') (hr : pc.reports)
    (hrow : (c.batches job.index).isSome) : c'.Finished job.index := by
  rcases h with ⟨_, hst⟩ | ⟨_, heff⟩
  · cases pc <;> first | exact absurd rfl hst | cases hr
  · cases heff with
    | work => exact finished_updateBatch hrow (fun _ => rfl)
    | batchFailed => exact finished_updateBatch hrow (fun _ => rfl)
    | _ => cases hr

theorem publishes_finished (h : Publishes env c (.batch job pc) c') (hf : c'.Finished job.index) :
    c.Finished job.index ∨ pc.reports := by
  cases hu : pc.rowUpdate with
  | none => exact Or.inl ((finished_congr (publishes_row h hu job.index)).mp hf)
  | some u =>
    cases pc with
    | workCommit n r => exact Or.inr rfl
    | markCommit n error => exact Or.inr rfl
    | cancelCommit =>
      rcases h with ⟨_, hst⟩ | ⟨_, heff⟩
      · exact absurd rfl hst
      · obtain ⟨b, hb, hfin⟩ := hf
        cases heff
        simp only [Tables.updateBatch_batches, Function.update_self, Option.map_eq_some_iff] at hb
        obtain ⟨b₀, _, rfl⟩ := hb
        cases hfin
    | attemptCommit n =>
      rcases h with ⟨_, hst⟩ | ⟨_, heff⟩
      · exact absurd rfl hst
      · obtain ⟨b, hb, hfin⟩ := hf
        cases heff with
        | attempt _ =>
          simp only [Tables.updateBatch_batches, Function.update_self, Option.map_eq_some_iff] at hb
          obtain ⟨b₀, _, rfl⟩ := hb
          cases hfin
        | attemptLate => exact Or.inl ⟨b, hb, hfin⟩
    | _ => cases hu

theorem batchMove_settled (hm : BatchMove env.text job ext c ws pc next)
    (hpub : Publishes env c (.batch job pc) c') (hset : pc.settled → c.Finished job.index)
    (hrow : (c.batches job.index).isSome) (hn : next.settled) : c'.Finished job.index := by
  have same : pc.rowUpdate = none → c.Finished job.index → c'.Finished job.index :=
    fun hu => (finished_congr (publishes_row hpub hu job.index)).mpr
  cases hm with
  | finished hb hc => exact same rfl ⟨_, hb, by simp [BulkActionBatch.finished, hc]⟩
  | finishedMeanwhile hb hc => exact same rfl ⟨_, hb, by simp [BulkActionBatch.finished, hc]⟩
  | workCommit => exact publishes_report hpub rfl hrow
  | markCommit => exact publishes_report hpub rfl hrow
  | _ => first | exact same rfl (hset rfl) | cases hn

end Deliveries

section Steps

variable {env : Env} {p : Pid} {i : Nat} {x : Sys × (Mark → Nat)} {t : Mark → Nat}

/-- Worker `p` moves on without publishing anything. -/
theorem poisonSafe_quiet {w : World} {proc : Proc} (hs : PoisonSafe env p i x)
    (hc : Consistent env (x.1.set w p proc)) (hw : w.committed = x.1.world.committed)
    (ht : x.2 (.report i) ≤ t (.report i))
    (hproc : proc.Tries env.settings i (x.1.world.committed.Finished i)) :
    PoisonSafe env p i (x.1.set w p proc, t) where
  consistent := hc
  others := fun q hq => by
    rw [set_procs_ne _ _ _ hq]
    exact hs.others q hq
  present := hw ▸ hs.present
  row := hw ▸ hs.row
  tries := by
    rw [set_procs_self, set_world, hw]
    exact hproc
  counted := fun hfin => (hs.counted (hw ▸ hfin)).trans ht

/-- An exception in a delivery of the batch. -/
theorem handler_tries {job : BatchJob} {pc : BatchPc} {error : String} {finished : Prop}
    (hi : job.index = i)
    (hok : job.jobTry < env.settings.jobMaxTries ∨ pc.tryCount.isSome ∨ finished) :
    ((Proc.batch job pc).handler env error).Tries env.settings i finished := by
  rcases handler_batch env error job pc with ⟨hl, hleft⟩ | ⟨n, _, _, hm⟩
  · rw [hl]
    refine ⟨hi, fun hmax => ?_⟩
    rcases hok with hlt | htry | hfin
    · exact absurd hlt (not_lt.mpr hmax)
    · exact absurd (hleft htry) (not_lt.mpr hmax)
    · exact hfin
  · rw [hm]
    exact ⟨hi, by simp [BatchPc.settled, BatchPc.closing]⟩

theorem raisesInTry_raise {s : Sys} {error : String} {job : BatchJob} {pc : BatchPc}
    (h : raisesInTry env p i s (.raise p error)) (hp : s.procs p = .batch job pc) :
    job.jobTry < env.settings.jobMaxTries ∨ pc.tryCount.isSome ∨ s.world.committed.Finished i := by
  simp only [raisesInTry, hp, ne_eq, not_true_eq_false, decide_false, Bool.false_or,
    Bool.or_eq_true, decide_eq_true_eq, finished_any] at h
  tauto

theorem raisesInTry_refused {s : Sys} {ext : External} {job : BatchJob} {limit n : Nat}
    (h : raisesInTry env p i s (.run p ext)) (hp : s.procs p = .batch job (.rateLimit limit n))
    (hlt : limit < n) :
    job.jobTry < env.settings.jobMaxTries ∨ s.world.committed.Finished i := by
  simp only [raisesInTry, hp, ne_eq, not_true_eq_false, decide_false, Bool.false_or,
    BatchPc.refuses, hlt, decide_true, Bool.not_true, Bool.or_eq_true, decide_eq_true_eq,
    finished_any] at h
  exact h

end Steps

/-- `consume` raises only when the amount exceeds the limit. -/
theorem refused_lt {env : Env} {s s' : Sys} {p : Pid} {ext : External} {job : BatchJob}
    {limit n : Nat} (hp : s.procs p = .batch job (.rateLimit limit n))
    (h : s.step env (.run p ext) = some s') (hlost : s'.procs p = .lost (.batch job)) :
    limit < n := by
  by_contra hle
  cases step_happens h with
  | run _ _ hn =>
    rw [hp] at hn
    obtain ⟨pc', _, rfl⟩ := batch_resume_ok hn
    simp at hlost
  | fail _ _ hn =>
    rw [hp] at hn
    simp only [Proc.resume, BatchPc.resume, consume, hle, if_false] at hn
    split_ifs at hn <;> cases hn

/-- Worker `p` executes a step of its delivery. -/
theorem poisonSafe_batch {env : Env} {p : Pid} {x : Sys × (Mark → Nat)} {t : Mark → Nat} {w : World}
    {ext : External} {job : BatchJob} {pc next : BatchPc} {reply : Reply}
    (hs : PoisonSafe env p job.index x) (hc : Consistent env (x.1.set w p (.batch job next)))
    (hp : x.1.procs p = .batch job pc)
    (he : x.1.world.exec p ext.now (pc.stmt env.settings job) = some (w, reply))
    (hm : BatchMove env.text job ext x.1.world.committed (w.db.writes p) pc next)
    (hpub : Publishes env x.1.world.committed (.batch job pc) w.committed)
    (hle : x.2 (.report job.index) ≤ t (.report job.index))
    (hreport : pc.reports → 1 ≤ t (.report job.index)) :
    PoisonSafe env p job.index (x.1.set w p (.batch job next), t) := by
  have htries := hs.tries
  rw [hp] at htries
  constructor
  case consistent => exact hc
  case others =>
    intro q hq
    rw [set_procs_ne _ _ _ hq]
    exact hs.others q hq
  case present => exact (exec_action_isSome he).trans hs.present
  case row => exact exec_batch_isSome he hs.row
  case tries =>
    rw [set_procs_self]
    exact ⟨rfl, batchMove_settled hm hpub htries.2 hs.row⟩
  case counted =>
    intro hfin
    rcases publishes_finished hpub hfin with hold | hr
    · exact (hs.counted hold).trans hle
    · exact hreport hr

/-- A step of another worker leaves the row and worker `p` as they are. -/
theorem poisonSafe_other {env : Env} {p : Pid} {i : Nat} {x : Sys × (Mark → Nat)} {t : Mark → Nat}
    {s' : Sys} {l : Label} (hs : PoisonSafe env p i x) (hl : l.pid ≠ p)
    (hstart : l.startsBatch i = false) (h : x.1.step env l = some s')
    (hle : x.2 (.report i) ≤ t (.report i)) : PoisonSafe env p i (s', t) := by
  have hrow := avoids_row hs.consistent h (hs.others l.pid hl) hs.row
  have hfin : s'.world.committed.Finished i ↔ x.1.world.committed.Finished i :=
    finished_congr hrow
  constructor
  case consistent => exact consistent_step hs.consistent h
  case others =>
    intro q hq
    by_cases hql : q = l.pid
    · subst hql
      exact avoids_step hstart h (hs.others l.pid hl)
    · dsimp only
      rw [step_procs_ne h hql]
      exact hs.others q hq
  case present => exact (step_action_isSome hs.consistent h).trans hs.present
  case row =>
    dsimp only
    rw [hrow]
    exact hs.row
  case tries =>
    dsimp only
    rw [step_procs_ne h (Ne.symm hl), hfin]
    exact hs.tries
  case counted => exact fun h' => (hs.counted (hfin.mp h')).trans hle

theorem poisonSafe_step {env : Env} {p : Pid} {i : Nat} {x x' : Sys × (Mark → Nat)} {l : Label}
    (hs : PoisonSafe env p i x) (ok : successive env p i x.1 l ∧ raisesInTry env p i x.1 l)
    (h : Runs.tallied (Sys.step env) marks x l = some x') : PoisonSafe env p i x' := by
  obtain ⟨s', t⟩ := x'
  obtain ⟨hstep, ht⟩ := Runs.tallied_eq_some h
  dsimp only at hstep ht
  have hc := consistent_step hs.consistent hstep
  have hle : x.2 (.report i) ≤ t (.report i) := by
    rw [ht]
    exact Nat.le_add_right _ _
  obtain ⟨hsucc, hraise⟩ := ok
  by_cases hl : l.pid = p
  · have htries := hs.tries
    cases step_moves hs.consistent hstep with
    | @deliver q job _ _ =>
      obtain rfl : q = p := hl
      simp only [successive, Label.pid, if_true] at hsucc
      cases job with
      | plan => simp at hsucc
      | batch job =>
        simp only [Bool.and_eq_true, decide_eq_true_eq] at hsucc
        exact poisonSafe_quiet hs hc rfl hle ⟨hsucc.1, by simp [BatchPc.settled, BatchPc.closing]⟩
    | @duplicate q job _ =>
      obtain rfl : q = p := hl
      simp [successive, Label.pid] at hsucc
    | @redeliver q job hq =>
      obtain rfl : q = p := hl
      rw [hq] at htries
      cases job with
      | plan => cases htries
      | batch job =>
        exact poisonSafe_quiet hs hc rfl hle
          ⟨htries.1, by simp [BatchPc.settled, BatchPc.closing]⟩
    | @cancel q _ =>
      obtain rfl : q = p := hl
      simp [successive, Label.pid] at hsucc
    | @batch q ext job pc next w reply hq he hm hpub =>
      obtain rfl : q = p := hl
      rw [hq] at htries
      obtain ⟨rfl, _⟩ := htries
      refine poisonSafe_batch hs hc hq he hm hpub hle (fun hr => ?_)
      rw [ht, marks_report hq, hr]
      simp
    | @refused q ext job limit n hq =>
      obtain rfl : q = p := hl
      rw [hq] at htries
      have hlt := refused_lt hq hstep (set_procs_self ..)
      refine poisonSafe_quiet hs hc rfl hle ⟨htries.1, fun hmax => ?_⟩
      exact (raisesInTry_refused hraise hq hlt).resolve_left (not_lt.mpr hmax)
    | @plan q ext pc next w reply hq _ _ _ _ =>
      obtain rfl : q = p := hl
      rw [hq] at htries
      cases htries
    | @planFailed q ext error w reply hq _ _ =>
      obtain rfl : q = p := hl
      rw [hq] at htries
      cases htries
    | @cancelling q ext pc w reply hq _ _ _ =>
      obtain rfl : q = p := hl
      rw [hq] at htries
      cases htries
    | @raise q error hr _ =>
      obtain rfl : q = p := hl
      cases hq : x.1.procs q with
      | batch job pc =>
        rw [hq] at htries hc
        exact poisonSafe_quiet hs hc rfl hle
          (handler_tries htries.1 (raisesInTry_raise hraise hq))
      | idle => simp [hq, Proc.running] at hr
      | lost job => simp [hq, Proc.running] at hr
      | plan pc =>
        rw [hq] at htries
        cases htries
      | cancel pc =>
        rw [hq] at htries
        cases htries
    | @swallow q job n r payload error hq =>
      obtain rfl : q = p := hl
      rw [hq] at htries
      exact poisonSafe_quiet hs hc rfl hle ⟨htries.1, fun _ => htries.2 rfl⟩
    | @crash q _ =>
      obtain rfl : q = p := hl
      simp [successive, Label.pid] at hsucc
  · have hstart : l.startsBatch i = false := by simpa [successive, hl] using hsucc
    exact poisonSafe_other hs hl hstart hstep hle

/-- Batch `i` of an existing action, planned and not finished, with no delivery on its way. -/
structure Unfinished (s : Sys) (i : Nat) : Prop extends s.AtRest where
  action : s.world.committed.action.isSome
  row : ∃ b, s.world.committed.batches i = some b ∧ ¬ b.finished

theorem poisonSafe_unfinished {env : Env} {p : Pid} {i : Nat} {s : Sys} (h : Unfinished s i) :
    PoisonSafe env p i (s, fun _ => 0) := by
  obtain ⟨b, hb, hfin⟩ := h.row
  refine ⟨consistent_atRest h.toAtRest, fun q _ => by simp [h.idle q, Proc.Avoids], h.action,
    by simp [hb], by simp [h.idle p, Proc.Tries], ?_⟩
  rintro ⟨b', hb', hfin'⟩
  cases Option.some.inj (hb.symm.trans hb')
  exact absurd hfin' hfin

/-- The tries are used up and the job is dropped, or the last delivery has marked the batch
failed and returned. -/
def Proc.exhausted (settings : Settings) : Proc → Prop
  | .lost (.batch job) => settings.jobMaxTries ≤ job.jobTry
  | .batch _ (.done (.failed _)) => True
  | _ => False

def PoisonRun (env : Env) (p : Pid) (i : Nat) : Sys × (Mark → Nat) → Sys × (Mark → Nat) → Prop :=
  Runs.Reaches (Runs.tallied (Sys.step env) marks)
    (fun x l => successive env p i x.1 l ∧ raisesInTry env p i x.1 l)

/-- An exception outside the try block ends the last delivery with nothing published. -/
theorem raises_outside {env : Env} {p : Pid} {i : Nat} {s s' : Sys} {l : Label} (hl : l.pid = p)
    (hnot : ¬ raisesInTry env p i s l) (h : s.step env l = some s') :
    ∃ job : BatchJob, env.settings.jobMaxTries ≤ job.jobTry ∧ ¬ s.world.committed.Finished i ∧
      s'.procs p = .lost (.batch job) ∧ s'.world.committed = s.world.committed := by
  simp only [raisesInTry] at hnot
  split at hnot
  next q error job pc hp =>
    obtain rfl : q = p := hl
    simp only [ne_eq, not_true_eq_false, decide_false, Bool.false_or, Bool.or_eq_true,
      decide_eq_true_eq, finished_any, not_or, not_lt] at hnot
    obtain ⟨⟨hlast, htry⟩, hopen⟩ := hnot
    have hcount : pc.tryCount = none := by simpa using htry
    refine ⟨job, hlast, hopen, ?_⟩
    cases step_happens h with
    | raise _ _ =>
      rw [set_procs_self, hp]
      exact ⟨by simp [Proc.handler, BatchPc.handler, hcount], rfl⟩
    | swallow hpub =>
      cases hp.symm.trans hpub
      cases hcount
  next q ext job pc hp =>
    obtain rfl : q = p := hl
    simp only [ne_eq, not_true_eq_false, decide_false, Bool.false_or, Bool.or_eq_true,
      decide_eq_true_eq, finished_any, not_or, not_lt, Bool.not_eq_true', Bool.not_eq_false] at hnot
    obtain ⟨⟨hrefuses, hlast⟩, hopen⟩ := hnot
    refine ⟨job, hlast, hopen, ?_⟩
    cases pc with
    | rateLimit limit n =>
      have hlt : limit < n := by simpa [BatchPc.refuses] using hrefuses
      cases step_happens h with
      | run _ _ hn =>
        rw [hp] at hn
        simp [Proc.resume, BatchPc.resume, consume, hlt, Nat.ne_of_gt (Nat.zero_lt_of_lt hlt),
          Except.map] at hn
      | fail _ he _ =>
        rw [hp] at he ⊢
        cases exec_skip he
        exact ⟨set_procs_self .., rfl⟩
    | _ => cases hrefuses
  next => simp at hnot

/-- Whatever steps the deliveries raise at, as long as the last of them does so in the try
block or when the row is finished, the batch ends finished and counted; and an exception of
the last delivery anywhere else has the job dropped with its row not finished. -/
theorem poison_batch_settled_iff {env : Env} {p : Pid} {i : Nat} {s₀ s : Sys} {t : Mark → Nat}
    (start : Unfinished s₀ i) (h : PoisonRun env p i (s₀, fun _ => 0) (s, t)) :
    ((s.procs p).exhausted env.settings →
      s.world.committed.Finished i ∧ 1 ≤ t (.report i)) ∧
    ∀ l s', l.pid = p → successive env p i s l → s.step env l = some s' →
      ¬ raisesInTry env p i s l →
      (s'.procs p).exhausted env.settings ∧ ¬ s'.world.committed.Finished i := by
  have safe : PoisonSafe env p i (s, t) := h.invariant poisonSafe_step (poisonSafe_unfinished start)
  constructor
  · intro hend
    have htries := safe.tries
    dsimp only at htries
    have hfin : s.world.committed.Finished i := by
      unfold Proc.exhausted at hend
      split at hend
      next job hp =>
        rw [hp] at htries
        exact htries.2 hend
      next job e hp =>
        rw [hp] at htries
        exact htries.2 rfl
      next => exact hend.elim
    exact ⟨hfin, safe.counted hfin⟩
  · intro l s' hl _ hstep hnot
    obtain ⟨job, hlast, hopen, hlost⟩ := raises_outside hl hnot hstep
    rw [hlost.1, hlost.2]
    exact ⟨hlast, hopen⟩

/-- Three deliveries raise in the work transaction, and the last one marks the batch failed. -/
theorem poison_batch_settled_iff_work :
    ∃ s t, PoisonRun defaultEnv 0 0 (plannedContacts [contactsJob], fun _ => 0) (s, t) ∧
      (s.procs 0).exhausted defaultEnv.settings ∧ s.world.committed.Finished 0 ∧
      1 ≤ t (.report 0) := by
  let attempt : List Label := List.replicate 8 (.run 0 {}) ++ [.raise 0 "boom"]
  let labels : List Label := .deliver 0 contactsJob :: attempt ++ .redeliver 0 :: attempt ++
    .redeliver 0 :: attempt ++ List.replicate 7 (.run 0 {})
  have start : Unfinished (plannedContacts [contactsJob]) 0 :=
    ⟨Tables.sys_atRest _ _, rfl, contactsBatch .pending, rfl, by decide⟩
  obtain ⟨s, t, hs, hend⟩ : ∃ s t,
      Runs.checkedSteps (Runs.tallied (Sys.step defaultEnv) marks)
        (fun x l => successive defaultEnv 0 0 x.1 l && raisesInTry defaultEnv 0 0 x.1 l)
        (plannedContacts [contactsJob], fun _ => 0) labels = some (s, t) ∧
      (s.procs 0).exhausted defaultEnv.settings :=
    ⟨_, _, rfl, trivial⟩
  have hr : PoisonRun defaultEnv 0 0 (plannedContacts [contactsJob], fun _ => 0) (s, t) :=
    Runs.reaches_checked (fun h => Bool.and_eq_true_iff.mp h) hs
  obtain ⟨hfin, hcounted⟩ := (poison_batch_settled_iff start hr).1 hend
  exact ⟨s, t, hr, hend, hfin, hcounted⟩

/-- Three deliveries raise in the pre-flight transaction, and the batch stays pending. -/
theorem poison_batch_stranded :
    ¬ ∀ (p : Pid) (i : Nat) (s₀ s : Sys) (t : Mark → Nat), Unfinished s₀ i →
      Runs.Reaches (Runs.tallied (Sys.step defaultEnv) marks)
        (fun x l => successive defaultEnv p i x.1 l) (s₀, fun _ => 0) (s, t) →
      (s.procs p).exhausted defaultEnv.settings → s.world.committed.Finished i := by
  intro always
  let labels : List Label := [.deliver 0 contactsJob, .raise 0 "down", .redeliver 0,
    .raise 0 "down", .redeliver 0, .raise 0 "down"]
  have start : Unfinished (plannedContacts [contactsJob]) 0 :=
    ⟨Tables.sys_atRest _ _, rfl, contactsBatch .pending, rfl, by decide⟩
  obtain ⟨s, t, hs, hend, hrow⟩ : ∃ s t,
      Runs.checkedSteps (Runs.tallied (Sys.step defaultEnv) marks)
        (fun x l => successive defaultEnv 0 0 x.1 l)
        (plannedContacts [contactsJob], fun _ => 0) labels = some (s, t) ∧
      (s.procs 0).exhausted defaultEnv.settings ∧
      s.world.committed.batches 0 = some (contactsBatch .pending) :=
    ⟨_, _, rfl, Nat.le_refl 3, rfl⟩
  obtain ⟨b, hb, hfin⟩ := always 0 0 _ s t start
    (Runs.reaches_checked (fun h => h) hs)
    hend
  cases Option.some.inj (hrow.symm.trans hb)
  exact absurd hfin (by decide)

end BulkActions
