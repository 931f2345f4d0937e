import BulkActions.CountedOnce
import BulkActions.Crm
import BulkActions.PoisonBatch
import BulkActions.TerminalStatus

namespace BulkActions

/-- A delivery is late when the action is cancelled at its pre-flight read. -/
def readsCancelled (s : Sys) (l : Label) : Option Bool :=
  match l, s.procs l.pid with
  | .run _ _, .batch _ .loadAction => some (s.status = some .cancelled)
  | _, _ => none

/-- Calls of cancel and deliveries on distinct batches, none of which raises. -/
def DistinctBatches (x : Crm) : Label → Prop
  | .deliver _ (.batch job) => (x.sys.world.committed.batches job.index).isSome ∧
    ∀ q, (x.sys.procs q).Avoids job.index
  | .duplicate _ (.batch job) => (x.sys.world.committed.batches job.index).isSome ∧
    ∀ q, (x.sys.procs q).Avoids job.index
  | .cancel _ => True
  | .run p _ => ∀ job pc, x.sys.procs p = .batch job pc → pc.refuses = false
  | _ => False

def Tables.Completed (c : Tables) (i : Nat) : Prop :=
  ∃ b, c.batches i = some b ∧ b.status = .completed

def Tables.Cancelled (c : Tables) (i : Nat) : Prop :=
  ∃ b, c.batches i = some b ∧ b.status = .cancelled

/-- What a delivery relies on at each point: `late` says whether it has read the action as
cancelled, and `before` whether its batch had been completed when the runs began. -/
def BatchPc.Crossed (late before : Prop) (c : Tables) (i : Nat) : BatchPc → Prop
  | .loadAction => ¬ late ∧ (c.batches i).isSome ∧ (before ∨ c.Unfinished i)
  | .loadBatch a =>
    (a.status = .cancelled ↔ late) ∧ (c.batches i).isSome ∧ (before ∨ c.Unfinished i)
  | .cancelBatch => late ∧ c.Unfinished i
  | .cancelCommit => late ∧ c.Unfinished i
  | .loadAccount _ => ¬ late ∧ c.Unfinished i
  | .rateLimit _ _ => ¬ late ∧ c.Unfinished i
  | .recordAttempt _ => ¬ late ∧ c.Unfinished i
  | .attemptCommit _ => ¬ late ∧ c.Unfinished i
  | .reloadAction _ => ¬ late ∧ c.Unfinished i
  | .reloadBatch _ _ => ¬ late ∧ c.Unfinished i
  | .runBatch _ _ _ => ¬ late ∧ c.Unfinished i
  | .writeOutcomes _ _ => ¬ late ∧ c.Unfinished i
  | .updateBatch _ _ => ¬ late ∧ c.Unfinished i
  | .recordCompletion _ _ => ¬ late ∧ c.Unfinished i
  | .workCommit _ _ => ¬ late ∧ c.Unfinished i
  | .markBatch _ _ => False
  | .markOutcomes _ _ => False
  | .markRecord _ _ => False
  | .markCommit _ _ => False
  | .done .cancelled => late ∧ c.Cancelled i
  | .done .alreadyCompleted => before
  | _ => ¬ late

def Proc.Crossed (late : Prop) (before : Nat → Prop) (c : Tables) : Proc → Prop
  | .batch job pc => pc.Crossed late (before job.index) c job.index
  | .idle => ¬ late
  | .cancel _ => ¬ late
  | .plan _ => False
  | .lost _ => False

/-- The invariant of the runs around a cancel. -/
structure CancelSafe (env : Env) (n : Nat) (before : Nat → Prop) (x : Crm) : Prop where
  consistent : Consistent env x.sys
  owned : x.sys.world.db.Owned Write.row
  terminal : TerminalSafe x.sys
  bounded : ∀ i, n ≤ i → x.sys.world.committed.batches i = none
  counted : Counted n x.sys.world.committed
  crossed : ∀ p, (x.sys.procs p).Crossed (x.late p) before x.sys.world.committed
  distinct : ∀ p q job pc job' pc', x.sys.procs p = .batch job pc →
    x.sys.procs q = .batch job' pc' → job.index = job'.index → p = q
  fresh : ∀ i, (∀ q, (x.sys.procs q).Avoids i) → before i ∨ x.sys.world.committed.Unfinished i

theorem crossed_congr {late before : Prop} {c c' : Tables} {i : Nat} {pc : BatchPc}
    (h : pc.Crossed late before c i) (hi : c'.batches i = c.batches i) :
    pc.Crossed late before c' i := by
  have hu : c'.Unfinished i ↔ c.Unfinished i := by simp [Tables.Unfinished, hi]
  have hc : c'.Cancelled i ↔ c.Cancelled i := by simp [Tables.Cancelled, hi]
  cases pc with
  | done ret =>
    cases ret with
    | cancelled => exact ⟨h.1, hc.mpr h.2⟩
    | _ => exact h
  | markBatch _ _ | markOutcomes _ _ | markRecord _ _ | markCommit _ _ => exact h
  | _ => simpa only [BatchPc.Crossed, hu, hi] using h

/-- A crossing meets what the counting of deliveries relies on. -/
theorem crossed_path {late before : Prop} {c : Tables} {i : Nat} {pc : BatchPc}
    (h : pc.Crossed late before c i) : pc.Path late c i := by
  cases pc with
  | loadBatch a => exact h.1
  | loadAccount _ | rateLimit _ _ | recordAttempt _ | attemptCommit _ | reloadAction _
  | reloadBatch _ _ => exact h.1
  | cancelBatch | cancelCommit | runBatch _ _ _ | writeOutcomes _ _ | updateBatch _ _
  | recordCompletion _ _ | workCommit _ _ => exact h
  | markBatch _ _ | markOutcomes _ _ | markRecord _ _ | markCommit _ _ => exact h
  | _ => trivial

/-- The mark of a delivery after its next step. -/
def BatchPc.lateAfter (c : Tables) (late : Bool) : BatchPc → Bool
  | .loadAction => c.action.map BulkAction.status = some .cancelled
  | _ => late

/-- A delivery that goes on crosses nothing it should not. -/
theorem batchMove_crossed {env : Env} {job : BatchJob} {ext : External} {c c' : Tables}
    {ws : List Write} {pc next : BatchPc} {late : Bool} {before : Prop}
    (hm : BatchMove env.text job ext c ws pc next) (hpub : Publishes env c (.batch job pc) c')
    (h : pc.Crossed late before c job.index) (hrow : pc.Present job c) :
    next.Crossed (pc.lateAfter c late) before c' job.index := by
  rcases hpub with ⟨rfl, hst⟩ | ⟨hst, heff⟩
  · cases hm with
    | actionMissing hnone => simp [BatchPc.Crossed, BatchPc.lateAfter, hnone]
    | @loadedAction a ha => exact ⟨by simp [BatchPc.lateAfter, ha], h.2⟩
    | batchMissing hnone =>
      have hsome := h.2.1
      simp [hnone] at hsome
    | finished hb hc => exact h.2.2.resolve_right (fun hu => hu _ hb hc)
    | @toCancel a b hb hne hx =>
      refine ⟨h.1.mp hx, ?_⟩
      intro b' hb'
      cases Option.some.inj (hb.symm.trans hb')
      exact hne
    | @loadedBatch a b hb hne hx =>
      refine ⟨fun hlate => hx (h.1.mpr hlate), ?_⟩
      intro b' hb'
      cases Option.some.inj (hb.symm.trans hb')
      exact hne
    | deferred _ => exact h.1
    | reloadMissing hnone => exact h.1
    | finishedMeanwhile hb hc => exact absurd hc (h.2 _ hb)
    | @notFinalizable after _ => cases after <;> exact h
    | @finalizeUpdate after _ _ => cases after <;> exact h
    | _ => first | exact absurd rfl hst | exact h
  · cases heff with
    | batchCancelled =>
      cases hm
      refine ⟨h.1, ?_⟩
      obtain ⟨b, hb⟩ := Option.isSome_iff_exists.mp hrow.2
      exact ⟨_, by rw [Tables.updateBatch_batches, Function.update_self, hb]; rfl, rfl⟩
    | @attempt _ k now hne =>
      cases hm
      have heff : Effect env.settings c (.batch job (.attemptCommit k))
        (c.updateBatch job.index .recordAttempt now) := .attempt hne
      exact ⟨h.1, effect_unfinished heff (crossed_path h) h.2 (by simp [BatchPc.working])⟩
    | attemptLate =>
      cases hm
      exact h
    | work =>
      cases hm
      exact h.1
    | @finalized _ after _ _ _ =>
      cases after <;> cases hm <;> exact h
    | @notFinalized _ after =>
      cases after <;> cases hm <;> exact h
    | batchFailed => exact h.elim

/-- Everything that can happen around a cancel. -/
inductive CancelMoves (env : Env) (x : Crm) : Label → Crm → Prop where
  | starts {l x' w job} : x.sys.procs l.pid = .idle → w.committed = x.sys.world.committed →
      (x.sys.world.committed.batches job.index).isSome →
      (∀ q, (x.sys.procs q).Avoids job.index) →
      x'.sys = x.sys.set w l.pid (.batch job .loadAction) → x'.late = x.late →
      CancelMoves env x l x'
  | calls {l x'} : x.sys.procs l.pid = .idle →
      x'.sys = x.sys.set x.sys.world l.pid (.cancel .loadAction) → x'.late = x.late →
      CancelMoves env x l x'
  | delivery {p ext job pc next w reply x'} : x.sys.procs p = .batch job pc →
      x.sys.world.exec p ext.now (pc.stmt env.settings job) = some (w, reply) →
      BatchMove env.text job ext x.sys.world.committed (w.db.writes p) pc next →
      Publishes env x.sys.world.committed (.batch job pc) w.committed →
      x'.sys = x.sys.set w p (.batch job next) →
      x'.late = Function.update x.late p (pc.lateAfter x.sys.world.committed (x.late p)) →
      CancelMoves env x (.run p ext) x'
  | cancels {p ext pc w reply x'} : x.sys.procs p = .cancel pc → (Proc.cancel pc).running →
      x.sys.world.exec p ext.now pc.stmt = some (w, reply) →
      Publishes env x.sys.world.committed (.cancel pc) w.committed →
      x'.sys = x.sys.set w p (.cancel (pc.resume reply)) → x'.late = x.late →
      CancelMoves env x (.run p ext) x'

section Steps

variable {env : Env} {n : Nat} {before : Nat → Prop} {x x' : Crm} {l : Label}

theorem CancelSafe.not_plan (hs : CancelSafe env n before x) {p : Pid} {pc : PlanPc} :
    x.sys.procs p ≠ .plan pc := by
  intro hp
  have hcrossed := hs.crossed p
  rwa [hp] at hcrossed

theorem CancelSafe.not_lost (hs : CancelSafe env n before x) {p : Pid} {job : Job} :
    x.sys.procs p ≠ .lost job := by
  intro hp
  have hcrossed := hs.crossed p
  rwa [hp] at hcrossed

theorem late_kept (h : x.step env readsCancelled l = some x')
    (hmark : readsCancelled x.sys l = none) : x'.late = x.late := by
  rw [crm_step_late h, hmark]
  exact Function.update_eq_self _ _

theorem late_delivery {p : Pid} {ext : External} {job : BatchJob} {pc : BatchPc}
    (h : x.step env readsCancelled (.run p ext) = some x') (hp : x.sys.procs p = .batch job pc) :
    x'.late = Function.update x.late p (pc.lateAfter x.sys.world.committed (x.late p)) := by
  rw [crm_step_late h, Label.pid]
  congr 1
  unfold readsCancelled
  rw [Label.pid, hp]
  cases pc <;> rfl

theorem cancel_moves (hs : CancelSafe env n before x) (hok : DistinctBatches x l)
    (h : x.step env readsCancelled l = some x') : CancelMoves env x l x' := by
  have hsys := crm_step_sys h
  generalize hs' : x'.sys = s at hsys
  cases step_moves hs.consistent hsys with
  | @deliver p job hp _ =>
    cases job with
    | plan => exact hok.elim
    | batch job => exact .starts hp (by rfl) hok.1 hok.2 hs' (late_kept h rfl)
  | @duplicate p job hp =>
    cases job with
    | plan => exact hok.elim
    | batch job => exact .starts hp rfl hok.1 hok.2 hs' (late_kept h rfl)
  | redeliver _ => exact hok.elim
  | cancel hp => exact .calls hp hs' (late_kept h rfl)
  | batch hp he hm hpub => exact .delivery hp he hm hpub hs' (late_delivery h hp)
  | @refused p ext job limit k hp =>
    have hlt := refused_lt hp hsys (set_procs_self ..)
    have hrefuses := hok job _ hp
    simp [BatchPc.refuses, hlt] at hrefuses
  | plan hp _ _ _ _ => exact absurd hp hs.not_plan
  | planFailed hp _ _ => exact absurd hp hs.not_plan
  | @cancelling p ext pc w reply hp hr he hpub =>
    refine .cancels hp hr he hpub hs' (late_kept h ?_)
    simp [readsCancelled, Label.pid, hp]
  | raise _ _ => exact hok.elim
  | swallow _ => exact hok.elim
  | crash _ => exact hok.elim

/-- The step of a delivery, when nothing else can happen to its worker. -/
theorem delivery_run {p : Pid} {ext : External} {job : BatchJob} {pc : BatchPc}
    (hs : CancelSafe env n before x) (hok : DistinctBatches x (.run p ext))
    (hp : x.sys.procs p = .batch job pc) (h : x.step env readsCancelled (.run p ext) = some x') :
    ∃ next w, BatchMove env.text job ext x.sys.world.committed (w.db.writes p) pc next ∧
      Publishes env x.sys.world.committed (.batch job pc) w.committed ∧
      x'.sys = x.sys.set w p (.batch job next) := by
  cases cancel_moves hs hok h with
  | starts hidle _ _ _ _ _ => cases hp.symm.trans hidle
  | calls hidle _ _ => cases hp.symm.trans hidle
  | cancels hq _ _ _ _ _ => cases hp.symm.trans hq
  | delivery hq _ hm hpub hsys _ =>
    cases hp.symm.trans hq
    exact ⟨_, _, hm, hpub, hsys⟩

/-- A cancel changes the status of the action and nothing else. -/
theorem cancel_publishes {c c' : Tables} {pc : CancelPc}
    (h : Publishes env c (.cancel pc) c') :
    c' = c ∨ (pc = .commit ∧ ∃ now, c' = c.updateAction .cancel now) := by
  rcases h with ⟨hc, _⟩ | ⟨_, heff⟩
  · exact Or.inl hc
  · cases heff with
    | @cancelled now _ => exact Or.inr ⟨rfl, now, rfl⟩

theorem counted_cancel {c : Tables} (h : Counted n c) (now : Timestamp) :
    Counted n (c.updateAction .cancel now) := by
  refine counted_of_batches h ?_ (fun _ => rfl)
  intro a' ha'
  obtain ⟨a, ha, rfl⟩ := Option.map_eq_some_iff.mp ha'
  exact ⟨a, ha, rfl, rfl, rfl, rfl⟩

/-- A step leaves the batch rows it has no job for as they are. -/
theorem cancelMoves_row (hm : CancelMoves env x l x') {i : Nat}
    (hi : (x.sys.procs l.pid).Avoids i) :
    x'.sys.world.committed.batches i = x.sys.world.committed.batches i := by
  cases hm with
  | starts _ hw _ _ hsys _ => rw [hsys, set_world, hw]
  | calls _ hsys _ => rw [hsys, set_world]
  | delivery hp _ _ hpub hsys _ =>
    rw [hsys, set_world]
    rcases hpub with ⟨hc, _⟩ | ⟨_, heff⟩
    · rw [hc]
    · rw [Label.pid, hp] at hi
      exact batch_effect_ne heff (Ne.symm hi)
  | cancels _ _ _ hpub hsys _ =>
    rw [hsys, set_world]
    rcases cancel_publishes hpub with hc | ⟨_, now, hc⟩
    · rw [hc]
    · rw [hc, Tables.updateAction_batches]

theorem cancelMoves_isSome (hm : CancelMoves env x l x') (i : Nat) :
    (x'.sys.world.committed.batches i).isSome = (x.sys.world.committed.batches i).isSome := by
  cases hm with
  | starts _ hw _ _ hsys _ => rw [hsys, set_world, hw]
  | calls _ hsys _ => rw [hsys, set_world]
  | delivery _ _ _ hpub hsys _ =>
    rw [hsys, set_world]
    rcases hpub with ⟨hc, _⟩ | ⟨_, heff⟩
    · rw [hc]
    · exact batch_effect_isSome heff i
  | cancels _ _ _ hpub hsys _ =>
    rw [hsys, set_world]
    rcases cancel_publishes hpub with hc | ⟨_, now, hc⟩
    · rw [hc]
    · rw [hc, Tables.updateAction_batches]

theorem cancelMoves_counted (hs : CancelSafe env n before x) (hm : CancelMoves env x l x') :
    Counted n x'.sys.world.committed := by
  cases hm with
  | starts _ hw _ _ hsys _ =>
    rw [hsys, set_world, hw]
    exact hs.counted
  | calls _ hsys _ =>
    rw [hsys, set_world]
    exact hs.counted
  | @delivery p _ _ _ _ _ _ _ hp _ _ hpub hsys _ =>
    have hcrossed := hs.crossed p
    have hpres := hs.consistent.present p
    rw [hp] at hcrossed hpres
    rw [hsys, set_world]
    rcases hpub with ⟨hc, _⟩ | ⟨_, heff⟩
    · rw [hc]
      exact hs.counted
    · exact counted_effect heff (crossed_path hcrossed) hpres hs.bounded hs.counted
  | cancels _ _ _ hpub hsys _ =>
    rw [hsys, set_world]
    rcases cancel_publishes hpub with hc | ⟨_, now, hc⟩
    · rw [hc]
      exact hs.counted
    · rw [hc]
      exact counted_cancel hs.counted now

theorem cancelMoves_procs_ne (hm : CancelMoves env x l x') {q : Pid} (hq : q ≠ l.pid) :
    x'.sys.procs q = x.sys.procs q := by
  cases hm with
  | starts _ _ _ _ hsys _ | calls _ hsys _ | delivery _ _ _ _ hsys _ | cancels _ _ _ _ hsys _ =>
    rw [hsys]
    exact set_procs_ne _ _ _ hq

/-- A delivery under way keeps its job, and a new one is alone with its batch. -/
theorem cancelMoves_job (hm : CancelMoves env x l x') {q : Pid} {job : BatchJob} {pc : BatchPc}
    (hq : x'.sys.procs q = .batch job pc) :
    (∃ pc', x.sys.procs q = .batch job pc') ∨
      (q = l.pid ∧ ∀ r, (x.sys.procs r).Avoids job.index) := by
  by_cases hne : q = l.pid
  · subst hne
    cases hm with
    | starts _ _ _ havoids hsys _ =>
      rw [hsys, set_procs_self] at hq
      cases hq
      exact Or.inr ⟨rfl, havoids⟩
    | calls _ hsys _ =>
      rw [hsys, set_procs_self] at hq
      cases hq
    | cancels _ _ _ _ hsys _ =>
      rw [hsys, Label.pid, set_procs_self] at hq
      cases hq
    | @delivery p _ _ pc' _ _ _ _ hp _ _ _ hsys _ =>
      rw [hsys, Label.pid, set_procs_self] at hq
      cases hq
      exact Or.inl ⟨pc', hp⟩
  · exact Or.inl ⟨pc, (cancelMoves_procs_ne hm hne).symm.trans hq⟩

/-- Who avoids a batch after a step has avoided it before. -/
theorem cancelMoves_avoids (hm : CancelMoves env x l x') {q : Pid} {i : Nat}
    (hq : (x'.sys.procs q).Avoids i) : (x.sys.procs q).Avoids i := by
  by_cases hne : q = l.pid
  · subst hne
    cases hm with
    | starts hp _ _ _ _ _ | calls hp _ _ =>
      rw [hp]
      trivial
    | delivery hp _ _ _ hsys _ =>
      rw [hsys, Label.pid, set_procs_self] at hq
      rw [Label.pid, hp]
      exact hq
    | cancels hp _ _ _ _ _ =>
      rw [Label.pid, hp]
      trivial
  · rwa [cancelMoves_procs_ne hm hne] at hq

/-- The step itself leaves its process where it should be. -/
theorem cancelMoves_crossed_self (hs : CancelSafe env n before x) (hm : CancelMoves env x l x') :
    (x'.sys.procs l.pid).Crossed (x'.late l.pid) before x'.sys.world.committed := by
  cases hm with
  | @starts l x' w job hp hw hrow havoids hsys hlate =>
    have hcrossed := hs.crossed l.pid
    rw [hp] at hcrossed
    rw [hsys, set_procs_self, set_world, hw, hlate]
    exact ⟨hcrossed, hrow, hs.fresh job.index havoids⟩
  | @calls l x' hp hsys hlate =>
    have hcrossed := hs.crossed l.pid
    rw [hp] at hcrossed
    rw [hsys, set_procs_self, hlate]
    exact hcrossed
  | @delivery p ext job pc next w reply x' hp _ hmove hpub hsys hlate =>
    have hcrossed := hs.crossed p
    have hpres := hs.consistent.present p
    rw [hp] at hcrossed hpres
    rw [hsys, Label.pid, set_procs_self, set_world, hlate, Function.update_self]
    exact batchMove_crossed hmove hpub hcrossed hpres
  | @cancels p ext pc w reply x' hp _ _ _ hsys hlate =>
    have hcrossed := hs.crossed p
    rw [hp] at hcrossed
    rw [hsys, Label.pid, set_procs_self, hlate]
    exact hcrossed

theorem cancelMoves_late_ne (hm : CancelMoves env x l x') {q : Pid} (hq : q ≠ l.pid) :
    x'.late q = x.late q := by
  cases hm with
  | delivery _ _ _ _ _ hlate =>
    rw [hlate]
    exact Function.update_of_ne hq _ _
  | starts _ _ _ _ _ hlate | calls _ _ hlate | cancels _ _ _ _ _ hlate => rw [hlate]

/-- The process of a step avoids the batch of any other delivery. -/
theorem avoids_of_distinct (hs : CancelSafe env n before x) {p q : Pid} {job : BatchJob}
    {pc : BatchPc} (hq : x.sys.procs q = .batch job pc) (hne : q ≠ p) :
    (x.sys.procs p).Avoids job.index := by
  cases hp : x.sys.procs p with
  | batch job' pc' => exact fun hi => hne (hs.distinct q p job pc job' pc' hq hp hi.symm)
  | lost job' => exact absurd hp hs.not_lost
  | _ => trivial

theorem cancelSafe_step (hs : CancelSafe env n before x) (hok : DistinctBatches x l)
    (h : x.step env readsCancelled l = some x') : CancelSafe env n before x' := by
  have hsys := crm_step_sys h
  have hm := cancel_moves hs hok h
  constructor
  case consistent => exact consistent_step hs.consistent hsys
  case owned => exact step_owned hs.owned hsys
  case counted => exact cancelMoves_counted hs hm
  case terminal =>
    refine terminalSafe_step hs.terminal ?_ hsys
    exact fun p ext loaded _ hp => absurd hp hs.not_plan
  case bounded =>
    intro i hi
    have hsame := cancelMoves_isSome hm i
    rw [hs.bounded i hi] at hsame
    simpa using hsame
  case crossed =>
    intro q
    by_cases hq : q = l.pid
    · rw [hq]
      exact cancelMoves_crossed_self hs hm
    · have hcrossed := hs.crossed q
      rw [cancelMoves_procs_ne hm hq, cancelMoves_late_ne hm hq]
      cases hproc : x.sys.procs q with
      | batch job pc =>
        rw [hproc] at hcrossed
        exact crossed_congr hcrossed (cancelMoves_row hm (avoids_of_distinct hs hproc hq))
      | _ =>
        rw [hproc] at hcrossed
        exact hcrossed
  case distinct =>
    intro p q job pc job' pc' hp hq hi
    have clash : ∀ {r : Pid} {job₁ job₂ : BatchJob} {pc₁ : BatchPc},
        x.sys.procs r = .batch job₁ pc₁ → (∀ r, (x.sys.procs r).Avoids job₂.index) →
        job₁.index ≠ job₂.index := by
      intro r job₁ job₂ pc₁ hr havoids
      have ha := havoids r
      rwa [hr] at ha
    rcases cancelMoves_job hm hp with ⟨pc₁, hp'⟩ | ⟨hp', havoids⟩
    · rcases cancelMoves_job hm hq with ⟨pc₂, hq'⟩ | ⟨_, havoids⟩
      · exact hs.distinct p q job pc₁ job' pc₂ hp' hq' hi
      · exact absurd hi (clash hp' havoids)
    · rcases cancelMoves_job hm hq with ⟨pc₂, hq'⟩ | ⟨hq', _⟩
      · exact absurd hi.symm (clash hq' havoids)
      · exact hp'.trans hq'.symm
  case fresh =>
    intro i havoids
    have hbefore := fun q => cancelMoves_avoids hm (havoids q)
    have hrow := cancelMoves_row hm (hbefore l.pid)
    simpa [Tables.Unfinished, hrow] using hs.fresh i hbefore

end Steps

end BulkActions
