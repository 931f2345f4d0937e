import BulkActions.PlanPhases
import BulkActions.AuditTrail

namespace BulkActions

/-- When the planner commits the totals, somebody is left to finalise the action. -/
def TotalsInTime (s : Sys) (l : Label) : Prop :=
  ∀ p ext e b, l = .run p ext → s.procs p = .plan (.totalsCommit e b) → b ≠ 0 → s.Live

theorem commit_eq {w w' : World} {p : Pid} {now : Timestamp} {reply : Reply}
    (h : w.exec p now .commit = some (w', reply)) :
    w'.committed = ReadCommitted.replay Write.apply (w.db.writes p) w.committed := by
  rw [exec_commit h]
  rfl

section

variable {env : Env} {s : Sys} {p : Pid} {ext : External} {pc next : PlanPc} {w : World}
  {reply : Reply}

/-- The planner drops no job: what it has still to enqueue it enqueues. -/
theorem token_plan (hp : s.procs p = .plan pc)
    (he : s.world.exec p ext.now pc.stmt = some (w, reply)) (hn : pc.resume ext reply = .ok next)
    {i : Nat} (ht : s.Token i) : (s.set w p (.plan next)).Token i := by
  refine token_set ht (fun job hi hj => hi ▸ token_queue (exec_queue_mem he hj)) ?_
  intro hold
  rw [hp] at hold
  cases pc with
  | enqueueJobs loop rows last =>
    cases rows with
    | nil => simp [Proc.holds] at hold
    | cons row rows =>
      cases Except.ok.inj hn
      obtain ⟨row', hrow, rfl⟩ := hold
      rcases List.mem_cons.mp hrow with rfl | hrow
      · rw [exec_enqueue he]
        exact Or.inl ⟨⟨row'.batchIndex, 0, 1⟩, by simp, rfl⟩
      · exact token_self ⟨row', hrow, rfl⟩
  | _ => exact hold.elim

theorem live_plan (hp : s.procs p = .plan pc)
    (he : s.world.exec p ext.now pc.stmt = some (w, reply)) (hn : pc.resume ext reply = .ok next)
    (hb : w.committed.batches = s.world.committed.batches) (h : s.Live) :
    (s.set w p (.plan next)).Live := by
  rcases h with ⟨i, b, hrow, hne, ht⟩ | ⟨q, hq⟩
  · exact Or.inl ⟨i, b, by rw [set_world, hb]; exact hrow, hne, token_plan hp he hn ht⟩
  · by_cases hqp : q = p
    · subst hqp
      rw [hp] at hq
      exact hq.elim
    · refine Or.inr ⟨q, ?_⟩
      rw [set_procs_ne _ _ _ hqp, set_world, exec_writes_ne he hqp]
      exact hq

/-- A commit of the planner that leaves the action in `status`. -/
theorem finalisable_planCommit (hs : Finalisable env s)
    (hc : Consistent env (s.set w p (.plan next))) (hp : s.procs p = .plan pc)
    (he : s.world.exec p ext.now pc.stmt = some (w, reply)) (hn : pc.resume ext reply = .ok next)
    (hact : ∀ a, w.committed.action = some a → a.status ≠ .cancelled ∧
      ∃ a₀, s.world.committed.action = some a₀ ∧ a.completedBatches = a₀.completedBatches)
    (hrow : ∀ i b, w.committed.batches i = some b → ¬ b.finished →
      s.world.committed.batches i = some b ∨ (s.set w p (.plan next)).Token i)
    (hcount : ∀ i, finishedValue (w.committed.batches i) ≤
      finishedValue (s.world.committed.batches i))
    (hopen : ∀ a, w.committed.action = some a → a.status = .processing →
      (∀ i, i < a.totalBatches → (w.committed.batches i).isSome) ∧
        (s.set w p (.plan next)).Live) :
    Finalisable env (s.set w p (.plan next)) where
  consistent := hc
  present := (exec_action_isSome he).trans hs.present
  uncancelled := fun a ha => (hact a ha).1
  path := by
    intro q job pc' hq
    by_cases hqp : q = p
    · subst hqp
      simp at hq
    · rw [set_procs_ne _ _ _ hqp] at hq
      exact hs.path q job pc' hq
  counted := by
    intro n a ha
    obtain ⟨_, a₀, ha₀, hcb⟩ := hact a ha
    rw [hcb]
    exact (Finset.sum_le_sum fun i _ => hcount i).trans (hs.counted n a₀ ha₀)
  rows := fun a ha hst => (hopen a ha hst).1
  tokens := by
    intro i b hb hf
    rcases hrow i b hb hf with hb | ht
    · exact token_plan hp he hn (hs.tokens i b hb hf)
    · exact ht
  live := fun a ha hst => (hopen a ha hst).2

theorem finalisable_plan (hs : Finalisable env s)
    (hc : Consistent env (s.set w p (.plan next))) (hp : s.procs p = .plan pc)
    (hph : pc.Phase s.world.committed (s.world.db.writes p))
    (he : s.world.exec p ext.now pc.stmt = some (w, reply)) (hn : pc.resume ext reply = .ok next)
    (hpub : Publishes env s.world.committed (.plan pc) w.committed)
    (hlive : ∀ e b, pc = .totalsCommit e b → b ≠ 0 → s.Live) :
    Finalisable env (s.set w p (.plan next)) := by
  have hw := hs.consistent.wrote p
  rw [hp] at hw
  rcases hpub with ⟨hsame, _⟩ | ⟨hst, _⟩
  · refine finalisable_quiet hs hc hsame (fun q hq => exec_writes_ne he hq)
      (fun _ _ he => by cases he) (fun i ht => token_plan hp he hn ht) ?_
    intro hfin
    rw [hp] at hfin
    exact hfin.elim
  cases pc with
  | planningCommit a =>
    obtain ⟨now, hws⟩ := hw
    have hcom : w.committed = s.world.committed.updateAction .setPlanning now := by
      rw [commit_eq he, hws]
      rfl
    refine finalisable_planCommit hs hc hp he hn ?_ ?_ ?_ ?_
    · intro a' ha'
      rw [hcom] at ha'
      obtain ⟨a₀, ha₀, rfl⟩ := Option.map_eq_some_iff.mp ha'
      exact ⟨by simp [ActionUpdate.set], a₀, ha₀, rfl⟩
    · exact fun i b hb _ => Or.inl (by rwa [hcom] at hb)
    · exact fun i => by rw [hcom]; exact Nat.le_refl _
    · intro a' ha' hst
      rw [hcom] at ha'
      obtain ⟨a₀, _, rfl⟩ := Option.map_eq_some_iff.mp ha'
      simp [ActionUpdate.set] at hst
  | rowsCommit loop last =>
    obtain ⟨hplanning, ⟨k, hl⟩, hws⟩ := hph
    have hcom : w.committed = s.world.committed.addBatches loop.pending := by
      rw [commit_eq he, hws]
      rfl
    have hnd : (loop.pending.map BulkActionBatch.batchIndex).Nodup :=
      hl.pending ▸ List.nodup_range'
    cases Except.ok.inj hn
    refine finalisable_planCommit hs hc hp he hn ?_ ?_ ?_ ?_
    · intro a' ha'
      rw [hcom, Tables.addBatches_action] at ha'
      exact ⟨hs.uncancelled a' ha', a', ha', rfl⟩
    · intro i b hb _
      by_cases hi : i ∈ loop.pending.map BulkActionBatch.batchIndex
      · obtain ⟨row, hrow, rfl⟩ := List.mem_map.mp hi
        exact Or.inr (token_self ⟨row, hrow, rfl⟩)
      · rw [hcom, addBatches_notMem hi] at hb
        exact Or.inl hb
    · intro i
      rw [hcom]
      by_cases hi : i ∈ loop.pending.map BulkActionBatch.batchIndex
      · obtain ⟨row, hrow, rfl⟩ := List.mem_map.mp hi
        rw [addBatches_mem hnd hrow]
        simp [finishedValue, BulkActionBatch.finished, hl.fresh row hrow]
      · rw [addBatches_notMem hi]
    · intro a' ha' hst
      rw [hcom, Tables.addBatches_action] at ha'
      simp [hplanning a' ha'] at hst
  | totalsCommit e b =>
    obtain ⟨_, hrows, now, now', hws⟩ := hph
    have hcom : w.committed = (s.world.committed.updateAction (.setTotals e b) now).updateAction
        (if b = 0 then .closeEmpty else .markStarted) now' := by
      rw [commit_eq he, hws]
      rfl
    refine finalisable_planCommit hs hc hp he hn ?_ ?_ ?_ ?_
    · intro a' ha'
      rw [hcom] at ha'
      obtain ⟨a₁, ha₁, rfl⟩ := Option.map_eq_some_iff.mp ha'
      obtain ⟨a₀, ha₀, rfl⟩ := Option.map_eq_some_iff.mp ha₁
      refine ⟨?_, a₀, ha₀, ?_⟩ <;> split <;> simp [ActionUpdate.set]
    · exact fun i b hb _ => Or.inl (by rwa [hcom] at hb)
    · exact fun i => by rw [hcom]; exact Nat.le_refl _
    · intro a' ha' hst
      rw [hcom] at ha'
      obtain ⟨a₁, ha₁, rfl⟩ := Option.map_eq_some_iff.mp ha'
      obtain ⟨a₀, _, rfl⟩ := Option.map_eq_some_iff.mp ha₁
      by_cases hb : b = 0
      · simp [hb, ActionUpdate.set] at hst
      · refine ⟨?_, live_plan hp he hn (by rw [hcom]; rfl) (hlive e b rfl hb)⟩
        intro i hi
        rw [hcom]
        exact (hrows i).mpr (by simpa [hb, ActionUpdate.set] using hi)
  | failCommit error => exact hph.elim
  | enqueueJobs loop rows last => cases rows <;> simp [Proc.stmt, PlanPc.stmt] at hst
  | _ => simp [Proc.stmt, PlanPc.stmt] at hst

end

def Proc.worksOn : Proc → Bool
  | .idle => true
  | .plan _ => true
  | .batch _ _ => true
  | .lost (.batch _) => true
  | _ => false

/-- The invariant of one planning pass running together with the batches it enqueues. -/
structure PlanSafe (env : Env) (s : Sys) : Prop where
  finalisable : Finalisable env s
  works : ∀ p, (s.procs p).worksOn
  single : ∀ p q pc pc', s.procs p = .plan pc → s.procs q = .plan pc' → p = q
  queued : .plan ∈ s.world.queue → ∀ p pc, s.procs p ≠ .plan pc
  once : s.world.queue.count .plan ≤ 1
  before : (∀ p pc, s.procs p ≠ .plan pc) → s.world.committed.Unplanned
  phase : ∀ p pc, s.procs p = .plan pc → pc.Phase s.world.committed (s.world.db.writes p)

/-- A commit of a delivery does not disturb the planning pass. -/
theorem phase_effect {settings : Settings} {c c' : Tables} {job : BatchJob} {pc : BatchPc}
    {ws : List Write} (h : Effect settings c (.batch job pc) c') {plan : PlanPc}
    (hph : plan.Phase c ws) : plan.Phase c' ws := by
  have rows : ∀ k, c.RowsBelow k → c'.RowsBelow k :=
    fun k hk i => by rw [batch_effect_isSome h]; exact hk i
  have numbered : ∀ loop k, PlanLoop.Numbered c loop k → PlanLoop.Numbered c' loop k :=
    fun loop k hl => ⟨rows k hl.rows, hl.pending, hl.total, hl.source, hl.fresh⟩
  have status : ∀ st, st ≠ .processing → c.HasStatus st → c'.HasStatus st := by
    intro st hne hst a' ha'
    obtain ⟨a, ha, _, hsame | ⟨hproc, _⟩⟩ := batch_effect_action h ha'
    · rw [hsame]
      exact hst a ha
    · exact absurd ((hst a ha).symm.trans hproc) hne
  have unplanned : c.Unplanned → c'.Unplanned := by
    rintro ⟨hrows, hst⟩
    refine ⟨rows 0 hrows, ?_⟩
    intro a' ha'
    obtain ⟨a, ha, _, hsame | ⟨hproc, _⟩⟩ := batch_effect_action h ha'
    · rw [hsame]
      exact hst a ha
    · rcases hst a ha with hst | hst <;> simp [hst] at hproc
  have planning := status .planning (by simp)
  cases plan with
  | loadAction => exact unplanned hph
  | setPlanning a => exact unplanned hph
  | planningCommit a => exact unplanned hph
  | nextBatch loop => exact ⟨planning hph.1, hph.2.imp (numbered loop)⟩
  | insertRows loop last => exact ⟨planning hph.1, hph.2.imp (numbered loop)⟩
  | rowsCommit loop last => exact ⟨planning hph.1, hph.2.1.imp (numbered loop), hph.2.2⟩
  | enqueueJobs loop todo last => exact ⟨planning hph.1, hph.2.1.imp (numbered loop), hph.2.2⟩
  | writeTotals e b => exact ⟨planning hph.1, rows b hph.2⟩
  | closeOrStart e b => exact ⟨planning hph.1, rows b hph.2⟩
  | totalsCommit e b => exact ⟨planning hph.1, rows b hph.2.1, hph.2.2⟩
  | done ret =>
    cases ret with
    | planned e b =>
      intro a' ha'
      obtain ⟨a, ha, _, hsame | ⟨_, k, hk⟩⟩ := batch_effect_action h ha'
      · rw [hsame]
        exact hph a ha
      · rw [hk]
        exact Or.inr (finalStatus_cases k)
    | _ => exact hph.elim
  | failUpdate error => exact hph.elim
  | failCommit error => exact hph.elim

theorem unplanned_effect {settings : Settings} {c c' : Tables} {job : BatchJob} {pc : BatchPc}
    (h : Effect settings c (.batch job pc) c') (hc : c.Unplanned) : c'.Unplanned := by
  have hph : PlanPc.loadAction.Phase c [] := hc
  exact phase_effect h hph

/-- A step of anybody but the planner. -/
theorem planSafe_other {env : Env} {s : Sys} {w : World} {p : Pid} {proc : Proc}
    (hs : PlanSafe env s) (hf : Finalisable env (s.set w p proc)) (hworks : proc.worksOn)
    (hnew : ∀ pc, proc ≠ .plan pc) (hold : ∀ pc, s.procs p ≠ .plan pc)
    (hqueue : w.queue.count .plan = s.world.queue.count .plan)
    (writes : ∀ q, q ≠ p → w.db.writes q = s.world.db.writes q)
    (hpub : w.committed = s.world.committed ∨
      ∃ job pc, Effect env.settings s.world.committed (.batch job pc) w.committed) :
    PlanSafe env (s.set w p proc) := by
  have planner : ∀ q pc, (s.set w p proc).procs q = .plan pc ↔ s.procs q = .plan pc := by
    intro q pc
    by_cases hq : q = p
    · subst hq
      simp [hnew pc, hold pc]
    · rw [set_procs_ne _ _ _ hq]
  refine ⟨hf, ?_, ?_, ?_, hqueue ▸ hs.once, ?_, ?_⟩
  · intro q
    by_cases hq : q = p
    · subst hq
      rwa [set_procs_self]
    · rw [set_procs_ne _ _ _ hq]
      exact hs.works q
  · intro q r pc pc' hq hr
    exact hs.single q r pc pc' ((planner q pc).mp hq) ((planner r pc').mp hr)
  · intro hm q pc hq
    have hm' : .plan ∈ s.world.queue := by
      rw [← List.count_pos_iff, ← hqueue]
      exact List.count_pos_iff.mpr hm
    exact hs.queued hm' q pc ((planner q pc).mp hq)
  · intro hno
    have hc := hs.before (fun q pc hq => hno q pc ((planner q pc).mpr hq))
    rcases hpub with hw | ⟨job, pc, heff⟩
    · exact hw ▸ hc
    · exact unplanned_effect heff hc
  · intro q pc hq
    have hq := (planner q pc).mp hq
    have hne : q ≠ p := fun he => hold pc (he ▸ hq)
    have hph := hs.phase q pc hq
    rw [set_world, writes q hne]
    rcases hpub with hw | ⟨job, pc', heff⟩
    · exact hw ▸ hph
    · exact phase_effect heff hph

theorem planSafe_planner {env : Env} {s : Sys} {w : World} {p : Pid} {pc next : PlanPc}
    (hs : PlanSafe env s) (hf : Finalisable env (s.set w p (.plan next)))
    (hp : s.procs p = .plan pc) (hqueue : w.queue.count .plan = s.world.queue.count .plan)
    (hph : next.Phase w.committed (w.db.writes p)) : PlanSafe env (s.set w p (.plan next)) := by
  have only : ∀ q pc', (s.set w p (.plan next)).procs q = .plan pc' → q = p := by
    intro q pc' hq
    by_contra hne
    rw [set_procs_ne _ _ _ hne] at hq
    exact hne (hs.single q p pc' pc hq hp)
  refine ⟨hf, ?_, fun q r _ _ hq hr => (only q _ hq).trans (only r _ hr).symm, ?_,
    hqueue ▸ hs.once, ?_, ?_⟩
  · intro q
    by_cases hq : q = p
    · subst hq
      rw [set_procs_self]
      rfl
    · rw [set_procs_ne _ _ _ hq]
      exact hs.works q
  · intro hm
    have hm' : .plan ∈ s.world.queue := by
      rw [← List.count_pos_iff, ← hqueue]
      exact List.count_pos_iff.mpr hm
    exact absurd hp (hs.queued hm' p pc)
  · intro hno
    exact absurd (set_procs_self s w p (.plan next)) (hno p next)
  · intro q pc' hq
    cases only q pc' hq
    rw [set_procs_self] at hq
    cases hq
    exact hph

theorem exec_queue_count {w w' : World} {p : Pid} {now : Timestamp} {st : Stmt} {reply : Reply}
    (h : w.exec p now st = some (w', reply)) (hst : st ≠ .enqueue .plan) :
    w'.queue.count .plan = w.queue.count .plan := by
  rcases exec_queue h with hq | ⟨job, rfl, hq⟩
  · rw [hq]
  · cases job with
    | plan => exact absurd rfl hst
    | batch job => simp [hq]

theorem batch_stmt_ne (settings : Settings) (job : BatchJob) (pc : BatchPc) :
    pc.stmt settings job ≠ .enqueue .plan := by
  cases pc <;> simp only [BatchPc.stmt, writeOutcomes] <;> (try split) <;> simp

/-- A worker takes up the plan job. -/
theorem planSafe_start {env : Env} {s : Sys} {p : Pid} (hs : PlanSafe env s)
    (hp : s.procs p = .idle) (hj : .plan ∈ s.world.queue)
    (hc : Consistent env (s.set { s.world with queue := s.world.queue.erase .plan } p
      (.plan .loadAction))) :
    PlanSafe env (s.set { s.world with queue := s.world.queue.erase .plan } p
      (.plan .loadAction)) := by
  have hno := hs.queued hj
  have only : ∀ q pc, (s.set { s.world with queue := s.world.queue.erase .plan } p
      (.plan .loadAction)).procs q = .plan pc → q = p := by
    intro q pc hq
    by_contra hne
    rw [set_procs_ne _ _ _ hne] at hq
    exact hno q pc hq
  have hcount : (s.world.queue.erase .plan).count .plan = 0 := by
    have := hs.once
    rw [List.count_erase_self]
    omega
  refine ⟨?_, ?_, fun q r _ _ hq hr => (only q _ hq).trans (only r _ hr).symm, ?_, ?_, ?_, ?_⟩
  · refine finalisable_quiet hs.finalisable hc rfl (fun _ _ => rfl)
      (fun _ _ he => by cases he) ?_ ?_
    · intro i ht
      refine token_set ht ?_ (by simp [hp, Proc.holds])
      rintro job rfl hjob
      exact token_queue ((List.mem_erase_of_ne (by simp)).mpr hjob)
    · simp [hp, Proc.finalising]
  · intro q
    by_cases hq : q = p
    · subst hq
      rw [set_procs_self]
      rfl
    · rw [set_procs_ne _ _ _ hq]
      exact hs.works q
  · intro hm
    exact absurd hcount (Nat.pos_iff_ne_zero.mp (List.count_pos_iff.mpr hm))
  · exact hcount ▸ Nat.zero_le 1
  · intro hnone
    exact absurd (set_procs_self s _ p _) (hnone p _)
  · intro q pc hq
    cases only q pc hq
    rw [set_procs_self] at hq
    cases hq
    exact hs.before hno

theorem planSafe_step {env : Env} {s s' : Sys} {l : Label} (hs : PlanSafe env s)
    (ok : l.ordinary ∧ TotalsInTime s l) (h : s.step env l = some s') : PlanSafe env s' := by
  have hf := hs.finalisable
  have hc := consistent_step hf.consistent h
  obtain ⟨hord, htime⟩ := ok
  cases step_moves hf.consistent h with
  | @deliver p job hp hj =>
    cases job with
    | plan => exact planSafe_start hs hp hj hc
    | batch job =>
      refine planSafe_other hs ?_ rfl (fun _ he => by cases he) (by simp [hp]) ?_ (fun _ _ => rfl)
        (Or.inl rfl)
      · refine finalisable_start hf hc rfl ?_ (by simp [hp, Proc.holds])
          (by simp [hp, Proc.finalising])
        intro job' hne hj'
        refine (List.mem_erase_of_ne ?_).mpr hj'
        rintro he
        cases he
        exact hne rfl
      · exact List.count_erase_of_ne (by simp)
  | duplicate _ => cases hord
  | redeliver _ => cases hord
  | cancel _ => cases hord
  | @batch p ext job pc next w reply hp he hm hpub =>
    refine planSafe_other hs (finalisable_batch hf hc hp he hm hpub) rfl (fun _ he => by cases he)
      (by simp [hp]) (exec_queue_count he (batch_stmt_ne _ _ _))
      (fun q hq => exec_writes_ne he hq) ?_
    rcases hpub with ⟨hw, _⟩ | ⟨_, heff⟩
    · exact Or.inl hw
    · exact Or.inr ⟨job, pc, heff⟩
  | @refused p ext job limit n hp =>
    refine planSafe_other hs (finalisable_lost hf hc hp ?_) rfl (fun _ he => by cases he)
      (by simp [hp]) rfl (fun q hq => rollback_writes_ne _ hq) (Or.inl rfl)
    intro job' pc' hp' hfin
    cases hp.symm.trans hp'
    exact hfin.elim
  | @plan p ext pc next w reply hp hr he hn hpub =>
    have hph := hs.phase p pc hp
    have hw := hf.consistent.wrote p
    rw [hp] at hw
    refine planSafe_planner hs (finalisable_plan hf hc hp hph he hn hpub ?_) hp
      (exec_queue_count he ?_) (plan_phase hw hf.present hph he hn)
    · exact fun e b hpc => htime p ext e b rfl (hpc ▸ hp)
    · cases pc with
      | enqueueJobs loop rows last => cases rows <;> simp [PlanPc.stmt]
      | _ => simp [PlanPc.stmt]
  | @planFailed p ext error w reply hp _ _ => exact (hs.phase p _ hp).elim
  | @cancelling p ext pc w reply hp _ _ _ => simpa [hp, Proc.worksOn] using hs.works p
  | raise _ _ => cases hord
  | swallow _ => cases hord
  | crash _ => cases hord

theorem planSafe_submitted {env : Env} {s : Sys} {a : BulkAction} (new : Submitted s a)
    (hq : s.world.queue = [.plan]) : PlanSafe env s where
  finalisable := by
    have haction : ∀ a', s.world.committed.action = some a' → a' = a :=
      fun a' ha' => Option.some.inj (ha'.symm.trans new.action)
    refine ⟨consistent_atRest new.toAtRest, by simp [new.action], ?_, ?_, ?_, ?_, ?_, ?_⟩
    · intro a' ha'
      rw [haction a' ha']
      rcases new.status with hst | hst <;> simp [hst]
    · exact fun p job pc hp => by simp [new.idle p] at hp
    · intro n a' ha'
      rw [rowSum_zero (by simp [new.batches, finishedValue])]
      exact Nat.zero_le _
    · intro a' ha' hst
      rw [haction a' ha'] at hst
      rcases new.status with hst' | hst' <;> simp [hst'] at hst
    · exact fun i b hb => by simp [new.batches] at hb
    · intro a' ha' hst
      rw [haction a' ha'] at hst
      rcases new.status with hst' | hst' <;> simp [hst'] at hst
  works := fun p => by rw [new.idle p]; rfl
  single := fun p q pc pc' hp => by simp [new.idle p] at hp
  queued := fun _ p pc => by simp [new.idle p]
  once := by simp [hq]
  before := by
    intro _
    refine ⟨by simp [Tables.RowsBelow, new.batches], ?_⟩
    intro a' ha'
    cases Option.some.inj (ha'.symm.trans new.action)
    exact new.status
  phase := fun p pc hp => by simp [new.idle p] at hp

/-- One planning pass together with the batches it enqueues: when all have returned and the
totals were committed before the last finalisation check, the action is finished. -/
theorem planned_action_finishes {env : Env} {s₀ s : Sys} {a₀ : BulkAction} {p : Pid} {e b : Nat}
    (new : Submitted s₀ a₀) (hq : s₀.world.queue = [.plan])
    (h : Sys.Reaches env (fun s l => l.ordinary ∧ TotalsInTime s l) s₀ s)
    (hplan : s.procs p = .plan (.done (.planned e b))) (quiet : s.Quiescent) :
    s.status = some .completed ∨ s.status = some .completedWithErrors := by
  have safe : PlanSafe env s := h.invariant planSafe_step (planSafe_submitted new hq)
  obtain ⟨a, ha⟩ := Option.isSome_iff_exists.mp safe.finalisable.present
  simp only [Sys.status, ha, Option.map_some, Option.some.injEq]
  rcases safe.phase p _ hplan a ha with hst | hst
  · exact absurd (safe.finalisable.live a ha hst) quiet.not_live
  · exact hst

/-- The planner enqueues the batch of contact 5. -/
def planContact : List Label :=
  .deliver 0 .plan :: List.replicate 3 (.run 0 {}) ++ .run 0 { page := [5] } ::
    List.replicate 4 (.run 0 {})

/-- The totals are committed while the batch of contact 5 waits in the queue. -/
def totalsBeforeBatch (s : Sys) (l : Label) : Bool :=
  l.ordinary && match s.procs l.pid with
    | .plan (.totalsCommit _ _) => contactsJob ∈ s.world.queue &&
      (s.world.committed.batches 0).any (fun b => b.status ≠ .completed)
    | _ => true

/-- The batch runs after the totals are committed. -/
theorem planned_action_finishes_contact :
    ∃ s, Sys.Reaches defaultEnv (fun s l => l.ordinary ∧ TotalsInTime s l) submittedContacts s ∧
      s.Quiescent ∧ (s.status = some .completed ∨ s.status = some .completedWithErrors) := by
  let labels : List Label := planContact ++ List.replicate 4 (.run 0 {}) ++
    .deliver 1 contactsJob :: List.replicate 8 (.run 1 {}) ++ .run 1 activeContact ::
    List.replicate 10 (.run 1 {})
  obtain ⟨s, hs, hplan, quiet⟩ : ∃ s,
      Runs.checkedSteps (Sys.step defaultEnv) totalsBeforeBatch submittedContacts labels =
        some s ∧ s.procs 0 = .plan (.done (.planned 1 1)) ∧ s.Quiescent :=
    ⟨_, rfl, rfl, quiescent_of_returned rfl (Nat.rec rfl fun p _ => Nat.casesOn p rfl fun _ => rfl)⟩
  have hr : Sys.Reaches defaultEnv (fun s l => l.ordinary ∧ TotalsInTime s l)
      submittedContacts s := by
    refine Runs.reaches_checked ?_ hs
    intro s l hc
    unfold totalsBeforeBatch at hc
    obtain ⟨hord, hc⟩ := Bool.and_eq_true_iff.mp hc
    refine ⟨hord, ?_⟩
    rintro p ext e b rfl hp _
    simp only [Label.pid, hp, Bool.and_eq_true, decide_eq_true_eq] at hc
    cases hrow : s.world.committed.batches 0 with
    | none => simp [hrow] at hc
    | some row =>
      exact Or.inl ⟨0, row, hrow, by simpa [hrow] using hc.2, Or.inl ⟨_, hc.1, rfl⟩⟩
  exact ⟨s, hr, quiet,
    planned_action_finishes submittedContacts_submitted rfl hr hplan quiet⟩

/-- The only batch is finalised before the totals are committed, and nobody finalises the
action afterwards. -/
theorem planned_action_left_processing :
    ¬ ∀ (s₀ s : Sys) (a₀ : BulkAction) (p : Pid) (e b : Nat), Submitted s₀ a₀ →
      s₀.world.queue = [.plan] → Sys.Reaches defaultEnv (fun _ l => l.ordinary) s₀ s →
      s.procs p = .plan (.done (.planned e b)) → 1 ≤ b → s.Quiescent →
      s.status = some .completed ∨ s.status = some .completedWithErrors := by
  intro always
  let labels : List Label := planContact ++ .deliver 1 contactsJob ::
    List.replicate 8 (.run 1 {}) ++ .run 1 activeContact :: List.replicate 9 (.run 1 {}) ++
    List.replicate 4 (.run 0 {})
  obtain ⟨s, hs, hplan, quiet, hst⟩ : ∃ s,
      Runs.steps (Sys.step defaultEnv) submittedContacts labels = some s ∧
      s.procs 0 = .plan (.done (.planned 1 1)) ∧ s.Quiescent ∧ s.status = some .processing :=
    ⟨_, rfl, rfl, quiescent_of_returned rfl
      (Nat.rec rfl fun p _ => Nat.casesOn p rfl fun _ => rfl), rfl⟩
  have hr : Sys.Reaches defaultEnv (fun _ l => l.ordinary) submittedContacts s :=
    Runs.reaches_of_allowed (by simp [labels, planContact, contactsJob, Label.ordinary]) hs
  have hfin := always submittedContacts s _ 0 1 1 submittedContacts_submitted rfl hr hplan
    (Nat.le_refl 1) quiet
  simp [hst] at hfin

end BulkActions
