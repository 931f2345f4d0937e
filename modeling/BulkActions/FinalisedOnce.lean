import BulkActions.CrashRecovery

namespace BulkActions

/-- What is counted along a run: the reports of each batch, and the calls of
`finalize_if_complete` that return a status. -/
inductive Mark where
  | report (index : Nat)
  | finalized

/-- The commits that report a batch. -/
def BatchPc.reports : BatchPc → Bool
  | .workCommit _ _ => true
  | .markCommit _ _ => true
  | _ => false

/-- From the report of a batch to the end of the transaction of `finalize_if_complete`. -/
def BatchPc.closing : BatchPc → Bool
  | .finalizeSelect _ => true
  | .finalizeUpdate _ _ => true
  | .refresh _ _ => true
  | .publish _ _ _ => true
  | .finalizeCommit _ => true
  | _ => false

def marks (s : Sys) (l : Label) : Mark → Bool
  | .report i =>
    match l, s.procs l.pid with
    | .run _ _, .batch job pc => job.index = i && pc.reports
    | _, _ => false
  | .finalized =>
    match l, s.procs l.pid with
    | .run p ext, .batch _ (.finalizeUpdate _ status) =>
      (s.world.exec p ext.now (.updateAction (.finalize status))).any (fun r => r.2.action.isSome)
    | _, _ => false

/-- Deliveries go on, and a report is followed by the finalisation. -/
def closesReports (s : Sys) (l : Label) : Bool :=
  l.executes && match l, s.procs l.pid with
    | .raise _ _, .batch job pc => !pc.closing || (Proc.batch job pc).publishing
    | .crash _, .batch _ pc => !pc.closing
    | _, _ => true

/-- All batches have reported, and the status is the one their failures call for. -/
def Judged (n : Nat) (a : BulkAction) (status : BulkActionStatus) : Prop :=
  n ≤ a.completedBatches ∧ (a.completedBatches = n → status = finalStatus a.failureCount)

def FinalizeOpen (status : BulkActionStatus) (ws : List Write) : Prop :=
  ∃ now, .action (.finalize status) now ∈ ws

/-- How often the action has been finalised, by the state it is in. -/
inductive Closure (n : Nat) (a : BulkAction) (s : Sys) : Nat → Prop where
  | running : a.status = .processing → (∀ p st, ¬ FinalizeOpen st (s.world.db.writes p)) →
      Closure n a s 0
  | updated {p : Pid} {st : BulkActionStatus} : a.status = .processing →
      FinalizeOpen st (s.world.db.writes p) → Closure n a s 1
  | closed : a.status ≠ .processing → Judged n a a.status → Closure n a s 1

/-- A delivery that will finalise the action, if it is complete. -/
def Sys.Closes (s : Sys) (p : Pid) : Prop :=
  ∃ job pc, s.procs p = .batch job pc ∧ pc.closing ∧ pc.finalising (s.world.db.writes p)

/-- The invariant of the counted runs. -/
structure FinalSafe (env : Env) (n : Nat) (a : BulkAction) (x : Sys × (Mark → Nat)) : Prop where
  consistent : Consistent env x.1
  action : x.1.world.committed.action = some a
  runs : ∀ p, (x.1.procs p).runsBatch
  rows : ∀ i, (x.1.world.committed.batches i).isSome → i < n
  total : a.totalBatches = n
  counted : a.completedBatches = ∑ i ∈ Finset.range n, x.2 (.report i)
  chosen : ∀ p job after st, x.1.procs p = .batch job (.finalizeUpdate after st) → Judged n a st
  written : ∀ p st, FinalizeOpen st (x.1.world.db.writes p) → Judged n a st
  live : a.isFinalizable → ∃ p, x.1.Closes p
  closure : Closure n a x.1 (x.2 .finalized)

/-- The points at which the UPDATE of `finalize_if_complete` may be open. -/
def BatchPc.updated : BatchPc → Bool
  | .refresh _ _ => true
  | .publish _ _ _ => true
  | .finalizeCommit _ => true
  | _ => false

theorem not_finalizeOpen {settings : Settings} {job : BatchJob} {pc : BatchPc} {ws : List Write}
    (h : pc.Wrote settings job ws) (hpc : pc.updated = false) (st : BulkActionStatus) :
    ¬ FinalizeOpen st ws := by
  rintro ⟨now, hmem⟩
  have logs : ∀ {i outcomes ls}, LogWrites i outcomes ls → .action (.finalize st) now ∉ ls := by
    rintro i outcomes ls (⟨_, rfl⟩ | ⟨seq, rfl⟩) <;> simp
  cases pc with
  | cancelCommit =>
    obtain ⟨_, rfl⟩ := h
    simp at hmem
  | attemptCommit n => rcases h with rfl | ⟨_, rfl⟩ <;> simp at hmem
  | updateBatch n r => exact logs h hmem
  | recordCompletion n r =>
    obtain ⟨ls, _, hls, rfl⟩ := h
    simp [logs hls] at hmem
  | workCommit n r =>
    obtain ⟨ls, _, _, hls, rfl⟩ := h
    simp [logs hls, BatchResult.recordUpdate] at hmem
  | markOutcomes n error =>
    obtain ⟨_, rfl⟩ := h
    simp at hmem
  | markRecord n error =>
    obtain ⟨ls, _, hls, rfl⟩ := h
    simp [logs hls] at hmem
  | markCommit n error =>
    obtain ⟨ls, _, _, hls, rfl⟩ := h
    simp [logs hls] at hmem
  | refresh _ _ => cases hpc
  | publish _ _ _ => cases hpc
  | finalizeCommit _ => cases hpc
  | _ =>
    cases h
    simp at hmem

theorem marks_report {s : Sys} {p : Pid} {ext : External} {job : BatchJob} {pc : BatchPc}
    (hp : s.procs p = .batch job pc) (i : Nat) :
    marks s (.run p ext) (.report i) = (decide (job.index = i) && pc.reports) := by
  simp [marks, Label.pid, hp]

theorem marks_finalized {s : Sys} {p : Pid} {ext : External} {job : BatchJob} {pc : BatchPc}
    (hp : s.procs p = .batch job pc) (hf : ∀ after st, pc ≠ .finalizeUpdate after st) :
    marks s (.run p ext) .finalized = false := by
  cases pc with
  | finalizeUpdate after st => exact absurd rfl (hf after st)
  | _ => simp [marks, Label.pid, hp]

/-- A delivery touches the row of the action only where it reports or finalises. -/
theorem effect_action_same {settings : Settings} {c c' : Tables} {job : BatchJob} {pc : BatchPc}
    (h : Effect settings c (.batch job pc) c') (hr : pc.reports = false)
    (hc : pc.closing = false) : c'.action = c.action := by
  cases h with
  | work => cases hr
  | batchFailed => cases hr
  | finalized _ => cases hc
  | _ => rfl

theorem Closure.keep {n k : Nat} {a a' : BulkAction} {s s' : Sys} (h : Closure n a s k)
    (hst : a'.status = a.status)
    (hopen : ∀ q st, FinalizeOpen st (s'.world.db.writes q) ↔ FinalizeOpen st (s.world.db.writes q))
    (judged : ∀ st, Judged n a st → Judged n a' st) : Closure n a' s' k := by
  cases h with
  | running hrun hnone =>
    exact .running (hst.trans hrun) (fun q st hq => hnone q st ((hopen q st).mp hq))
  | updated hrun hq => exact .updated (hst.trans hrun) ((hopen _ _).mpr hq)
  | closed hrun hj => exact .closed (hst ▸ hrun) (judged _ (hst ▸ hj))

theorem report_effect {settings : Settings} {c c' : Tables} {job : BatchJob} {pc : BatchPc}
    (h : Effect settings c (.batch job pc) c') (hr : pc.reports) :
    ∃ (r : BatchResult) (now : Timestamp), c'.action = c.action.map (r.recordUpdate.set now) := by
  cases h with
  | @work job n seq r now now' => exact ⟨r, now', rfl⟩
  | @batchFailed job n seq error now now' => exact ⟨failedResult settings n error, now', rfl⟩
  | _ => cases hr

section Steps

variable {env : Env} {n : Nat} {a : BulkAction} {x : Sys × (Mark → Nat)} {p : Pid} {w : World}
  {t : Mark → Nat}

/-- A step that neither reports nor finalises. -/
theorem finalSafe_quiet {proc : Proc} (hs : FinalSafe env n a x)
    (hc : Consistent env (x.1.set w p proc)) (ht : ∀ m, t m = x.2 m)
    (hact : w.committed.action = x.1.world.committed.action)
    (hrows : ∀ i, (w.committed.batches i).isSome → (x.1.world.committed.batches i).isSome)
    (others : ∀ q, q ≠ p → w.db.writes q = x.1.world.db.writes q)
    (opened : ∀ st, FinalizeOpen st (w.db.writes p) ↔ FinalizeOpen st (x.1.world.db.writes p))
    (runs : proc.runsBatch)
    (chosen : ∀ job after st, proc = .batch job (.finalizeUpdate after st) → Judged n a st)
    (live : a.isFinalizable → x.1.Closes p → (x.1.set w p proc).Closes p) :
    FinalSafe env n a (x.1.set w p proc, t) := by
  obtain rfl : t = x.2 := funext ht
  have hopen : ∀ q st, FinalizeOpen st (w.db.writes q) ↔
      FinalizeOpen st (x.1.world.db.writes q) := by
    intro q st
    by_cases hq : q = p
    · exact hq ▸ opened st
    · rw [others q hq]
  refine ⟨hc, hact.trans hs.action, runsBatch_set hs.runs runs, fun i hi => hs.rows i (hrows i hi),
    hs.total, hs.counted, ?_, fun q st hq => hs.written q st ((hopen q st).mp hq), ?_, ?_⟩
  · intro q job after st hq
    by_cases hqp : q = p
    · subst hqp
      exact chosen job after st (by simpa using hq)
    · rw [set_procs_ne _ _ _ hqp] at hq
      exact hs.chosen q job after st hq
  · intro hfin
    obtain ⟨q, hq⟩ := hs.live hfin
    by_cases hqp : q = p
    · exact ⟨p, live hfin (hqp ▸ hq)⟩
    · obtain ⟨job, pc, hproc, hclosing, hfinal⟩ := hq
      refine ⟨q, job, pc, ?_, hclosing, ?_⟩
      · rwa [set_procs_ne _ _ _ hqp]
      · rwa [set_world, others q hqp]
  · exact hs.closure.keep rfl hopen (fun _ hj => hj)

/-- The report of a batch comes before the verdict on it. -/
theorem finalSafe_report {job : BatchJob} {pc : BatchPc} {after : AfterFinalize} {r : BatchResult}
    {now : Timestamp} (hs : FinalSafe env n a x)
    (hc : Consistent env (x.1.set w p (.batch job (.finalizeSelect after))))
    (hp : x.1.procs p = .batch job pc) (hpc : pc.updated = false)
    (hreport : ∀ i, t (.report i) = x.2 (.report i) + (decide (job.index = i)).toNat)
    (hfinal : t .finalized = x.2 .finalized)
    (hact : w.committed.action = x.1.world.committed.action.map (r.recordUpdate.set now))
    (hpresent : (x.1.world.committed.batches job.index).isSome)
    (hrows : ∀ i, (w.committed.batches i).isSome → (x.1.world.committed.batches i).isSome)
    (others : ∀ q, q ≠ p → w.db.writes q = x.1.world.db.writes q)
    (closed : w.db.writes p = []) :
    FinalSafe env n (r.recordUpdate.set now a)
      (x.1.set w p (.batch job (.finalizeSelect after)), t) := by
  have hwrote := hs.consistent.wrote p
  rw [hp] at hwrote
  have hopen : ∀ q st, FinalizeOpen st (w.db.writes q) ↔
      FinalizeOpen st (x.1.world.db.writes q) := by
    intro q st
    by_cases hq : q = p
    · subst hq
      exact iff_of_false (by simp [FinalizeOpen, closed]) (not_finalizeOpen hwrote hpc st)
    · rw [others q hq]
  -- A verdict reached before this report would have had one batch too many.
  have judged : ∀ st, Judged n a st → Judged n (r.recordUpdate.set now a) st := by
    rintro st ⟨hle, _⟩
    refine ⟨Nat.le_succ_of_le hle, fun heq => ?_⟩
    have hsucc : a.completedBatches + 1 = n := heq
    omega
  refine ⟨hc, ?_, runsBatch_set hs.runs rfl, fun i hi => hs.rows i (hrows i hi), hs.total, ?_, ?_,
    fun q st hq => judged st (hs.written q st ((hopen q st).mp hq)),
    fun _ => ⟨p, job, _, set_procs_self .., rfl, trivial⟩, ?_⟩
  · rw [set_world, hact, hs.action]
    rfl
  · have hsum : a.completedBatches + 1 = ∑ i ∈ Finset.range n, t (.report i) := by
      have hone : ∑ i ∈ Finset.range n, (decide (job.index = i)).toNat = 1 := by
        rw [Finset.sum_eq_single job.index]
        · simp
        · intro i _ hne
          simp [Ne.symm hne]
        · intro hnot
          exact absurd (Finset.mem_range.mpr (hs.rows _ hpresent)) hnot
      rw [Finset.sum_congr rfl (fun i _ => hreport i), Finset.sum_add_distrib, hone, ← hs.counted]
    exact hsum
  · intro q job' after' st hq
    by_cases hqp : q = p
    · subst hqp
      simp at hq
    · rw [set_procs_ne _ _ _ hqp] at hq
      exact judged st (hs.chosen q job' after' st hq)
  · exact (hfinal ▸ hs.closure).keep rfl hopen judged

/-- The UPDATE of `finalize_if_complete` finds a complete action once. -/
theorem finalSafe_update {job : BatchJob} {after : AfterFinalize} {st : BulkActionStatus}
    {next : BatchPc} {now : Timestamp} (hs : FinalSafe env n a x)
    (hc : Consistent env
      (x.1.set (x.1.world.write p (.action (.finalize st) now)) p (.batch job next)))
    (hp : x.1.procs p = .batch job (.finalizeUpdate after st)) (hnext : next.updated)
    (hreport : ∀ i, t (.report i) = x.2 (.report i)) (hfinal : t .finalized = x.2 .finalized + 1)
    (hfin : a.isFinalizable) (hfree : x.1.world.db.free p .action) :
    FinalSafe env n a
      (x.1.set (x.1.world.write p (.action (.finalize st) now)) p (.batch job next), t) := by
  have hempty : x.1.world.db.writes p = [] := by
    have hwrote := hs.consistent.wrote p
    rw [hp] at hwrote
    exact hwrote
  have hself : (x.1.world.write p (.action (.finalize st) now)).db.writes p =
      [.action (.finalize st) now] := by
    rw [World.write, ReadCommitted.Store.write_writes_self, hempty]
    rfl
  have hzero : x.2 .finalized = 0 := by
    generalize hk : x.2 .finalized = k
    have hclosure := hs.closure
    rw [hk] at hclosure
    cases hclosure with
    | running _ _ => rfl
    | @updated q st' _ hq =>
      obtain ⟨now', hmem⟩ := hq
      have hlock := hs.consistent.guarded q _ .action hmem rfl
      have hqp : q = p := by simpa [ReadCommitted.Store.free, hlock] using hfree
      rw [hqp, hempty] at hmem
      simp at hmem
    | closed hst _ =>
      rw [isFinalizable_iff] at hfin
      exact absurd hfin.2 hst
  have hproc : ((x.1.set (x.1.world.write p (.action (.finalize st) now)) p
      (.batch job next)).procs p) = .batch job next := set_procs_self ..
  refine ⟨hc, hs.action, runsBatch_set hs.runs rfl, hs.rows, hs.total, ?_, ?_, ?_, ?_, ?_⟩
  · exact hs.counted.trans (Finset.sum_congr rfl (fun i _ => (hreport i).symm))
  · intro q job' after' st' hq
    by_cases hqp : q = p
    · subst hqp
      rw [hproc] at hq
      cases hq
      cases hnext
    · rw [set_procs_ne _ _ _ hqp] at hq
      exact hs.chosen q job' after' st' hq
  · intro q st' hq
    by_cases hqp : q = p
    · subst hqp
      obtain ⟨now', hmem⟩ := hq
      rw [set_world, hself] at hmem
      cases List.mem_singleton.mp hmem
      exact hs.chosen q job after st hp
    · rw [set_world, write_writes_ne _ _ hqp] at hq
      exact hs.written q st' hq
  · intro _
    refine ⟨p, job, next, hproc, ?_, ?_⟩
    · cases next <;> first | rfl | cases hnext
    · rw [set_world, hself]
      cases next <;> first | exact List.cons_ne_nil _ _ | cases hnext
  · have hone : t .finalized = 1 := by rw [hfinal, hzero]
    dsimp only
    rw [hone]
    rw [isFinalizable_iff] at hfin
    have hopen : FinalizeOpen st ((x.1.world.write p (.action (.finalize st) now)).db.writes p) :=
      ⟨now, by rw [hself]; exact List.mem_singleton.mpr rfl⟩
    exact .updated hfin.2 hopen

/-- The commit of the open UPDATE. -/
theorem finalSafe_close {job : BatchJob} {next : BatchPc} {k : Nat} {now : Timestamp}
    (hs : FinalSafe env n a x) (hc : Consistent env (x.1.set w p (.batch job next)))
    (ht : ∀ m, t m = x.2 m) (hnext : ∀ after st, next ≠ .finalizeUpdate after st)
    (hwrites : x.1.world.db.writes p = [.action (.finalize (finalStatus k)) now])
    (hcommit : w.committed = x.1.world.committed.updateAction (.finalize (finalStatus k)) now)
    (others : ∀ q, q ≠ p → w.db.writes q = x.1.world.db.writes q) (closed : w.db.writes p = []) :
    FinalSafe env n ((ActionUpdate.finalize (finalStatus k)).set now a)
      (x.1.set w p (.batch job next), t) := by
  obtain rfl : t = x.2 := funext ht
  have hopen : FinalizeOpen (finalStatus k) (x.1.world.db.writes p) :=
    ⟨now, by rw [hwrites]; exact List.mem_singleton.mpr rfl⟩
  have hprocessing : a.status = .processing := by
    have hfin := hs.consistent.applied p (.action (.finalize (finalStatus k)) now)
      (by simp [hwrites]) a hs.action
    rw [finalize_applies_iff] at hfin
    rw [isFinalizable_iff] at hfin
    exact hfin.2
  have hst : ((ActionUpdate.finalize (finalStatus k)).set now a).status ≠ .processing := by
    rcases finalStatus_cases k with hk | hk <;> simp [ActionUpdate.set, hk]
  have hone : x.2 .finalized = 1 := by
    generalize hf : x.2 .finalized = f
    have hclosure := hs.closure
    rw [hf] at hclosure
    cases hclosure with
    | running _ hnone => exact absurd hopen (hnone p _)
    | updated _ _ => rfl
    | closed hst' _ => exact absurd hprocessing hst'
  refine ⟨hc, ?_, runsBatch_set hs.runs rfl, ?_, hs.total, hs.counted, ?_, ?_, ?_, ?_⟩
  · rw [set_world, hcommit, Tables.updateAction_action, hs.action]
    rfl
  · intro i hi
    rw [set_world, hcommit] at hi
    exact hs.rows i hi
  · intro q job' after st hq
    by_cases hqp : q = p
    · subst hqp
      rw [set_procs_self] at hq
      cases hq
      exact absurd rfl (hnext after st)
    · rw [set_procs_ne _ _ _ hqp] at hq
      exact hs.chosen q job' after st hq
  · intro q st hq
    by_cases hqp : q = p
    · subst hqp
      obtain ⟨now', hmem⟩ := hq
      rw [set_world, closed] at hmem
      simp at hmem
    · rw [set_world, others q hqp] at hq
      exact hs.written q st hq
  · intro hfin
    rw [isFinalizable_iff] at hfin
    exact absurd hfin.2 hst
  · dsimp only
    rw [hone]
    exact .closed hst (hs.written p _ hopen)

theorem tally_same {ext : External} {job : BatchJob} {pc : BatchPc}
    (ht : ∀ m, t m = x.2 m + (marks x.1 (.run p ext) m).toNat) (hp : x.1.procs p = .batch job pc)
    (hr : pc.reports = false) (hf : marks x.1 (.run p ext) .finalized = false) (m : Mark) :
    t m = x.2 m := by
  rw [ht m]
  cases m with
  | report i =>
    rw [marks_report hp, hr, Bool.and_false]
    rfl
  | finalized =>
    rw [hf]
    rfl

/-- A step of a delivery away from reports and finalisation. -/
theorem finalSafe_aside {ext : External} {job : BatchJob} {pc next : BatchPc} {reply : Reply}
    (hs : FinalSafe env n a x) (hc : Consistent env (x.1.set w p (.batch job next)))
    (ht : ∀ m, t m = x.2 m + (marks x.1 (.run p ext) m).toNat) (hp : x.1.procs p = .batch job pc)
    (he : x.1.world.exec p ext.now (pc.stmt env.settings job) = some (w, reply))
    (hpub : Publishes env x.1.world.committed (.batch job pc) w.committed)
    (hr : pc.reports = false) (hclosing : pc.closing = false) (hnext : next.closing = false) :
    FinalSafe env n a (x.1.set w p (.batch job next), t) := by
  have hwrote := hs.consistent.wrote p
  have hwrote' := hc.wrote p
  rw [hp] at hwrote
  rw [set_procs_self, set_world] at hwrote'
  have hupd : pc.updated = false := by cases pc <;> first | rfl | cases hclosing
  have hupd' : next.updated = false := by cases next <;> first | rfl | cases hnext
  have hnot : ∀ after st, pc ≠ .finalizeUpdate after st := by
    rintro after st rfl
    cases hclosing
  have hact : w.committed.action = x.1.world.committed.action := by
    rcases hpub with ⟨hw, _⟩ | ⟨_, heff⟩
    · rw [hw]
    · exact effect_action_same heff hr hclosing
  have hrows : ∀ i, (w.committed.batches i).isSome → (x.1.world.committed.batches i).isSome := by
    intro i hi
    rcases hpub with ⟨hw, _⟩ | ⟨_, heff⟩
    · rwa [hw] at hi
    · rwa [batch_effect_isSome heff] at hi
  refine finalSafe_quiet hs hc (tally_same ht hp hr (marks_finalized hp hnot)) hact hrows
    (fun q => exec_writes_ne he) ?_ rfl ?_ ?_
  · intro st
    exact iff_of_false (not_finalizeOpen hwrote' hupd' st) (not_finalizeOpen hwrote hupd st)
  · rintro job' after st he'
    cases he'
    cases hnext
  · rintro _ ⟨job', pc', hp', hclosing', _⟩
    cases hp.symm.trans hp'
    simp [hclosing] at hclosing'

theorem finalSafe_reported {ext : External} {job : BatchJob} {pc : BatchPc} {after : AfterFinalize}
    {reply : Reply} (hs : FinalSafe env n a x)
    (hc : Consistent env (x.1.set w p (.batch job (.finalizeSelect after))))
    (ht : ∀ m, t m = x.2 m + (marks x.1 (.run p ext) m).toNat) (hp : x.1.procs p = .batch job pc)
    (he : x.1.world.exec p ext.now .commit = some (w, reply))
    (heff : Effect env.settings x.1.world.committed (.batch job pc) w.committed)
    (hr : pc.reports) :
    ∃ a', FinalSafe env n a' (x.1.set w p (.batch job (.finalizeSelect after)), t) := by
  obtain ⟨r, now, hact⟩ := report_effect heff hr
  have hupd : pc.updated = false := by cases pc <;> first | rfl | cases hr
  have hnot : ∀ after st, pc ≠ .finalizeUpdate after st := by
    rintro after st rfl
    cases hr
  have hpresent : (x.1.world.committed.batches job.index).isSome := by
    have hpresent := hs.consistent.present p
    rw [hp] at hpresent
    cases pc <;> first | exact hpresent.2 | cases hr
  refine ⟨_, finalSafe_report hs hc hp hupd ?_ ?_ hact hpresent ?_ (fun q => exec_writes_ne he)
    (exec_commit_writes he)⟩
  · intro i
    rw [ht (.report i), marks_report hp, hr, Bool.and_true]
  · rw [ht .finalized, marks_finalized hp hnot]
    rfl
  · intro i hi
    rwa [batch_effect_isSome heff] at hi

/-- A step of the finalisation that leaves the tables and the open writes alone. -/
theorem finalSafe_passing {job : BatchJob} {pc next : BatchPc}
    (hs : FinalSafe env n a x) (hc : Consistent env (x.1.set w p (.batch job next)))
    (ht : ∀ m, t m = x.2 m) (hp : x.1.procs p = .batch job pc)
    (hw : w.committed = x.1.world.committed) (hwrites : w.db.writes = x.1.world.db.writes)
    (chosen : ∀ after st, next = .finalizeUpdate after st → Judged n a st)
    (live : a.isFinalizable → pc.finalising (x.1.world.db.writes p) →
      next.closing ∧ next.finalising (x.1.world.db.writes p)) :
    FinalSafe env n a (x.1.set w p (.batch job next), t) := by
  refine finalSafe_quiet hs hc ht (by rw [hw]) (fun i hi => by rwa [hw] at hi)
    (fun q _ => by rw [hwrites]) (fun st => by rw [hwrites]) rfl ?_ ?_
  · intro job' after st he'
    cases he'
    exact chosen after st rfl
  · rintro hfin ⟨job', pc', hp', _, hfinal⟩
    cases hp.symm.trans hp'
    obtain ⟨hclosing, hfinal'⟩ := live hfin hfinal
    exact ⟨job, next, set_procs_self .., hclosing, by rwa [set_world, hwrites]⟩

/-- The end of the transaction of `finalize_if_complete`. -/
theorem finalSafe_committed {ext : External} {job : BatchJob} {after : AfterFinalize}
    {next : BatchPc} {reply : Reply} (hs : FinalSafe env n a x)
    (hc : Consistent env (x.1.set w p (.batch job next)))
    (ht : ∀ m, t m = x.2 m + (marks x.1 (.run p ext) m).toNat)
    (hp : x.1.procs p = .batch job (.finalizeCommit after))
    (he : x.1.world.exec p ext.now .commit = some (w, reply))
    (hnext : ∀ after st, next ≠ .finalizeUpdate after st) :
    ∃ a', FinalSafe env n a' (x.1.set w p (.batch job next), t) := by
  have hsame := tally_same ht hp rfl (marks_finalized hp (by simp))
  have hcommit : w.committed =
      ReadCommitted.replay Write.apply (x.1.world.db.writes p) x.1.world.committed := by
    rw [exec_commit he]
    rfl
  have hclosed := exec_commit_writes he
  have hwrote := hs.consistent.wrote p
  rw [hp] at hwrote
  rcases hwrote with hempty | ⟨k, now, hws⟩
  · rw [hempty] at hcommit
    refine ⟨a, finalSafe_quiet hs hc hsame (by rw [hcommit]; rfl)
      (fun i hi => by rwa [hcommit] at hi) (fun q => exec_writes_ne he)
      (fun st => by rw [hclosed, hempty]) rfl ?_ ?_⟩
    · intro job' after' st he'
      cases he'
      exact absurd rfl (hnext after' st)
    · rintro _ ⟨job', pc', hp', _, hfinal⟩
      cases hp.symm.trans hp'
      exact absurd hempty hfinal
  · rw [hws] at hcommit
    exact ⟨_, finalSafe_close hs hc hsame hnext hws hcommit (fun q => exec_writes_ne he) hclosed⟩

/-- The UPDATE of `finalize_if_complete`, whether it finds the action or not. -/
theorem finalSafe_updated {ext : External} {job : BatchJob} {after : AfterFinalize}
    {st : BulkActionStatus} {reply : Reply} (hs : FinalSafe env n a x)
    (hc : Consistent env (x.1.set w p (.batch job (BatchPc.afterFinalize after))))
    (ht : ∀ m, t m = x.2 m + (marks x.1 (.run p ext) m).toNat)
    (hp : x.1.procs p = .batch job (.finalizeUpdate after st))
    (he : x.1.world.exec p ext.now (.updateAction (.finalize st)) = some (w, reply)) :
    FinalSafe env n a (x.1.set w p (.batch job (BatchPc.afterFinalize after)), t) := by
  have hmark : marks x.1 (.run p ext) .finalized = reply.action.isSome := by
    simp [marks, Label.pid, hp, he]
  have hview : (x.1.world.view p).action = some a := by
    have hwrote := hs.consistent.wrote p
    rw [hp] at hwrote
    rw [view_eq_committed hwrote]
    exact hs.action
  rcases exec_updateAction he with ⟨hmiss, rfl, hnone⟩ | ⟨a', ha', happlies, hfree, rfl, hsome⟩
  · rw [hnone] at hmark
    refine finalSafe_passing hs hc (tally_same ht hp rfl hmark) hp rfl rfl ?_ ?_
    · intro after' st' he'
      cases after <;> cases he'
    · intro hfin
      rw [hview] at hmiss
      simp [finalize_applies_iff, hfin] at hmiss
  · cases Option.some.inj (hview.symm.trans ha')
    rw [hsome] at hmark
    refine finalSafe_update hs hc hp ?_ ?_ ?_ (finalize_applies_iff ▸ happlies) hfree
    · cases after <;> rfl
    · intro i
      rw [ht (.report i), marks_report hp]
      simp [BatchPc.reports]
    · rw [ht .finalized, hmark]
      rfl

/-- A step of a delivery. -/
theorem finalSafe_batch {ext : External} {job : BatchJob} {pc next : BatchPc} {reply : Reply}
    (hs : FinalSafe env n a x) (hc : Consistent env (x.1.set w p (.batch job next)))
    (ht : ∀ m, t m = x.2 m + (marks x.1 (.run p ext) m).toNat) (hp : x.1.procs p = .batch job pc)
    (he : x.1.world.exec p ext.now (pc.stmt env.settings job) = some (w, reply))
    (hm : BatchMove env.text job ext x.1.world.committed (w.db.writes p) pc next)
    (hpub : Publishes env x.1.world.committed (.batch job pc) w.committed) :
    ∃ a', FinalSafe env n a' (x.1.set w p (.batch job next), t) := by
  have effect : pc.stmt env.settings job = .commit →
      Effect env.settings x.1.world.committed (.batch job pc) w.committed := by
    intro hst
    rcases hpub with ⟨_, hne⟩ | ⟨_, heff⟩
    · exact absurd hst hne
    · exact heff
  cases hm with
  | workCommit => exact finalSafe_reported hs hc ht hp he (effect rfl) rfl
  | markCommit => exact finalSafe_reported hs hc ht hp he (effect rfl) rfl
  | @notFinalizable after hnot =>
    obtain ⟨rfl, _⟩ := exec_selectFinalizable he
    refine ⟨a, finalSafe_passing hs hc (tally_same ht hp rfl (marks_finalized hp (by simp))) hp rfl
      rfl ?_ (fun hfin => absurd hfin (hnot a hs.action))⟩
    intro after' st he'
    cases after <;> cases he'
  | @finalizable after a' ha' hfin =>
    cases Option.some.inj (hs.action.symm.trans ha')
    obtain ⟨rfl, _⟩ := exec_selectFinalizable he
    refine ⟨a, finalSafe_passing hs hc (tally_same ht hp rfl (marks_finalized hp (by simp))) hp rfl
      rfl ?_ (fun _ _ => ⟨rfl, trivial⟩)⟩
    intro after' st he'
    cases he'
    rw [isFinalizable_iff] at hfin
    exact ⟨hs.total ▸ hfin.1, fun _ => rfl⟩
  | finalizeUpdate _ => exact ⟨a, finalSafe_updated hs hc ht hp he⟩
  | refreshMissing =>
    obtain ⟨rfl, _⟩ := exec_selectAction he
    exact ⟨a, finalSafe_passing hs hc (tally_same ht hp rfl (marks_finalized hp (by simp))) hp rfl
      rfl (by simp) (fun _ hfinal => ⟨rfl, hfinal⟩)⟩
  | refreshed =>
    obtain ⟨rfl, _⟩ := exec_selectAction he
    exact ⟨a, finalSafe_passing hs hc (tally_same ht hp rfl (marks_finalized hp (by simp))) hp rfl
      rfl (by simp) (fun _ hfinal => ⟨rfl, hfinal⟩)⟩
  | publish =>
    cases exec_publish he
    exact ⟨a, finalSafe_passing hs hc (tally_same ht hp rfl (marks_finalized hp (by simp))) hp rfl
      rfl (by simp) (fun _ hfinal => ⟨rfl, hfinal⟩)⟩
  | finalizeCommit => exact finalSafe_committed hs hc ht hp he (by simp)
  | failedCommit => exact finalSafe_committed hs hc ht hp he (by simp)
  | _ => exact ⟨a, finalSafe_aside hs hc ht hp he hpub rfl rfl rfl⟩

/-- A process that is not finalising goes elsewhere without publishing anything. -/
theorem finalSafe_leave {proc : Proc} (hs : FinalSafe env n a x)
    (hc : Consistent env (x.1.set w p proc)) (ht : ∀ m, t m = x.2 m)
    (hw : w.committed = x.1.world.committed)
    (others : ∀ q, q ≠ p → w.db.writes q = x.1.world.db.writes q)
    (hp : ∀ job pc, x.1.procs p = .batch job pc → pc.closing = false)
    (hproc : ∀ job pc, proc = .batch job pc → pc.closing = false) (runs : proc.runsBatch) :
    FinalSafe env n a (x.1.set w p proc, t) := by
  have none : ∀ (q : Pid) (s : Sys), Consistent env s → (s.procs q).runsBatch →
      (∀ job pc, s.procs q = .batch job pc → pc.closing = false) →
      ∀ st, ¬ FinalizeOpen st (s.world.db.writes q) := by
    intro q s hcons hruns hpc st hopen
    have hwrote := hcons.wrote q
    cases hq : s.procs q with
    | batch job pc =>
      rw [hq] at hwrote
      have hclosing := hpc job pc hq
      refine not_finalizeOpen hwrote ?_ st hopen
      cases pc <;> first | rfl | cases hclosing
    | idle =>
      rw [hq] at hwrote
      obtain ⟨now, hmem⟩ := hopen
      rw [show s.world.db.writes q = [] from hwrote] at hmem
      simp at hmem
    | lost job =>
      rw [hq] at hwrote
      obtain ⟨now, hmem⟩ := hopen
      rw [show s.world.db.writes q = [] from hwrote] at hmem
      simp at hmem
    | plan pc => simp [hq, Proc.runsBatch] at hruns
    | cancel pc => simp [hq, Proc.runsBatch] at hruns
  refine finalSafe_quiet hs hc ht (by rw [hw]) (fun i hi => by rwa [hw] at hi) others ?_ runs ?_ ?_
  · intro st
    refine iff_of_false ?_ (none p x.1 hs.consistent (hs.runs p) hp st)
    have hnew := none p _ hc (runsBatch_set hs.runs runs p) (by simpa using hproc) st
    simpa using hnew
  · rintro job after st rfl
    cases hproc job _ rfl
  · rintro _ ⟨job, pc, hp', hclosing, _⟩
    simp [hp job pc hp'] at hclosing

end Steps

theorem finalSafe_step {env : Env} {n : Nat} {x x' : Sys × (Mark → Nat)} {l : Label}
    (hs : ∃ a, FinalSafe env n a x) (ok : closesReports x.1 l)
    (h : Runs.tallied (Sys.step env) marks x l = some x') : ∃ a, FinalSafe env n a x' := by
  obtain ⟨a, hs⟩ := hs
  obtain ⟨s', t⟩ := x'
  obtain ⟨hstep, ht⟩ := Runs.tallied_eq_some h
  dsimp only at hstep ht
  have hc := consistent_step hs.consistent hstep
  obtain ⟨hex, hclose⟩ := Bool.and_eq_true_iff.mp ok
  have idle : (∀ ext p, l ≠ .run p ext) → ∀ m, t m = x.2 m := by
    intro hl m
    rw [ht m]
    cases l <;> cases m <;> first | rfl | exact absurd rfl (hl _ _)
  -- A delivery starts, on a slot that had none.
  have starts : ∀ {p : Pid} {w : World} (job : Job), (∀ ext p, l ≠ .run p ext) →
      Consistent env (x.1.set w p job.proc) → (∀ job' pc, x.1.procs p ≠ .batch job' pc) →
      w.db = x.1.world.db → (∃ j, job = .batch j) →
      ∃ a, FinalSafe env n a (x.1.set w p job.proc, t) := by
    rintro p w _ hl hc hp hw ⟨job, rfl⟩
    refine ⟨a, finalSafe_leave hs hc (idle hl) (by rw [World.committed, hw]; rfl)
      (fun q _ => by rw [hw]) (fun job' pc hp' => absurd hp' (hp job' pc)) ?_ rfl⟩
    intro job' pc he
    cases he
    rfl
  cases step_moves hs.consistent hstep with
  | @deliver p job hp _ =>
    refine starts job (by simp) hc (by simp [hp]) rfl ?_
    cases job <;> first | exact ⟨_, rfl⟩ | cases hex
  | @duplicate p job hp =>
    refine starts job (by simp) hc (by simp [hp]) rfl ?_
    cases job <;> first | exact ⟨_, rfl⟩ | cases hex
  | @redeliver p job hp =>
    have hrun := hs.runs p
    rw [hp] at hrun
    refine starts job.again (by simp) hc (by simp [hp]) rfl ?_
    cases job <;> first | exact ⟨_, rfl⟩ | cases hrun
  | cancel _ => cases hex
  | @batch p ext job pc next w reply hp he hm hpub => exact finalSafe_batch hs hc ht hp he hm hpub
  | @refused p ext job limit k hp =>
    refine ⟨a, finalSafe_leave hs hc (tally_same ht hp rfl (marks_finalized hp (by simp))) rfl
      (fun q hq => rollback_writes_ne _ hq) ?_ (by simp) rfl⟩
    intro job' pc hp'
    cases hp.symm.trans hp'
    rfl
  | @plan p ext pc next w reply hp _ _ _ _ => simpa [hp, Proc.runsBatch] using hs.runs p
  | @planFailed p ext error w reply hp _ _ => simpa [hp, Proc.runsBatch] using hs.runs p
  | @cancelling p ext pc w reply hp _ _ _ => simpa [hp, Proc.runsBatch] using hs.runs p
  | @raise p error hr hpub =>
    obtain ⟨job, pc, hp⟩ := batch_of_running hr (hs.runs p)
    rw [hp] at hc hpub ⊢
    have hclosing : pc.closing = false := by simpa [Label.pid, hp, hpub] using hclose
    refine ⟨a, finalSafe_leave hs hc (idle (by simp)) rfl (fun q hq => rollback_writes_ne _ hq) ?_
      ?_ ?_⟩
    · intro job' pc' hp'
      cases hp.symm.trans hp'
      exact hclosing
    · intro job' pc' he
      rcases handler_batch env error job pc with ⟨hl, _⟩ | ⟨k, _, _, hm⟩
      · cases hl.symm.trans he
      · cases hm.symm.trans he
        rfl
    · exact handler_runsBatch (by rfl)
  | @swallow p job k r payload error hp =>
    exact ⟨a, finalSafe_passing hs hc (idle (by simp)) hp rfl rfl (by simp)
      (fun _ hfinal => ⟨rfl, hfinal⟩)⟩
  | @crash p hr =>
    obtain ⟨job, pc, hp⟩ := batch_of_running hr (hs.runs p)
    rw [hp] at hc ⊢
    have hclosing : pc.closing = false := by simpa [Label.pid, hp] using hclose
    refine ⟨a, finalSafe_leave hs hc (idle (by simp)) rfl (fun q hq => rollback_writes_ne _ hq) ?_
      (by simp [Proc.killed]) rfl⟩
    intro job' pc' hp'
    cases hp.symm.trans hp'
    exact hclosing

/-- A call that returns a status has found every batch counted. -/
theorem marked_complete {env : Env} {n : Nat} {a : BulkAction} {x : Sys × (Mark → Nat)} {l : Label}
    (hs : FinalSafe env n a x) (h : marks x.1 l .finalized) : n ≤ a.completedBatches := by
  simp only [marks] at h
  split at h
  next p ext job after st hp => exact (hs.chosen _ job after st hp).1
  next => cases h

/-- A processing action of `n` planned batches, none of which has reported. -/
structure Unreported (s : Sys) (n : Nat) : Prop extends s.AtRest where
  action : ∃ a, s.world.committed.action = some a ∧ a.status = .processing ∧ a.totalBatches = n ∧
    a.completedBatches = 0
  some : 1 ≤ n
  rows : ∀ i, (s.world.committed.batches i).isSome ↔ i < n

theorem finalSafe_unreported {env : Env} {s : Sys} {n : Nat} (h : Unreported s n) :
    ∃ a, FinalSafe env n a (s, fun _ => 0) := by
  obtain ⟨a, ha, hst, htotal, hzero⟩ := h.action
  have none : ∀ p st, ¬ FinalizeOpen st (s.world.db.writes p) := by
    rintro p st ⟨now, hmem⟩
    simp [h.closed p] at hmem
  refine ⟨a, consistent_atRest h.toAtRest, ha, fun p => by simp [h.idle p, Proc.runsBatch],
    fun i hi => (h.rows i).mp hi, htotal, by simp [hzero], fun p job after st hp => ?_,
    fun p st hp => absurd hp (none p st), ?_, .running hst none⟩
  · simp [h.idle p] at hp
  · intro hfin
    simp only [BulkAction.isFinalizable, htotal, hzero, Bool.and_eq_true, decide_eq_true_eq] at hfin
    exact absurd hfin.1 (not_le.mpr h.some)

/-- Runs in which a report is followed by the finalisation, with the reports counted. -/
def ReportRun (env : Env) : Sys × (Mark → Nat) → Sys × (Mark → Nat) → Prop :=
  Runs.Reaches (Runs.tallied (Sys.step env) marks) (fun x l => closesReports x.1 l)

/-- When each of `n` batches reports once and then calls `finalize_if_complete`, exactly one
of the calls returns a status, after all reports have committed, and the status is the one
that the final failure count calls for. -/
theorem finalised_exactly_once {env : Env} {n : Nat} {s₀ s : Sys} {t : Mark → Nat}
    (start : Unreported s₀ n)
    (h : ReportRun env (s₀, fun _ => 0) (s, t)) (once : ∀ i < n, t (.report i) = 1)
    (ended : ∀ p job pc, s.procs p = .batch job pc → pc.closing = false) :
    t .finalized = 1 ∧
    (∃ a, s.world.committed.action = some a ∧
      a.status = if 0 < a.failureCount then .completedWithErrors else .completed) ∧
    ∀ x₁ x₂ l, ReportRun env (s₀, fun _ => 0) x₁ →
      Runs.tallied (Sys.step env) marks x₁ l = some x₂ → marks x₁.1 l .finalized →
      ReportRun env x₂ (s, t) → ∀ i < n, x₁.2 (.report i) = 1 := by
  have safe : ∀ {x}, ReportRun env (s₀, fun _ => 0) x → ∃ a, FinalSafe env n a x :=
    fun hx => hx.invariant finalSafe_step (finalSafe_unreported start)
  obtain ⟨a, ha⟩ := safe h
  have hall : a.completedBatches = n := by
    rw [ha.counted, Finset.sum_congr rfl (fun i hi => once i (Finset.mem_range.mp hi))]
    simp
  have hst : a.status ≠ .processing := by
    intro hst
    obtain ⟨p, job, pc, hp, hclosing, _⟩ := ha.live (by
      simp [BulkAction.isFinalizable, ha.total, hall, hst])
    simp [ended p job pc hp] at hclosing
  obtain ⟨hone, hjudged⟩ : t .finalized = 1 ∧ Judged n a a.status := by
    have hclosure := ha.closure
    dsimp only at hclosure
    generalize t .finalized = k at hclosure
    cases hclosure with
    | running hrun _ => exact absurd hrun hst
    | updated hrun _ => exact absurd hrun hst
    | closed _ hj => exact ⟨rfl, hj⟩
  refine ⟨hone, ⟨a, ha.action, hjudged.2 hall⟩, ?_⟩
  intro x₁ x₂ l h₁ hl hmark h₂ i hi
  obtain ⟨a₁, ha₁⟩ := safe h₁
  have hle : ∀ i ∈ Finset.range n, x₁.2 (.report i) ≤ 1 := by
    intro i hi
    rw [← once i (Finset.mem_range.mp hi)]
    refine le_trans ?_ (h₂.tally_le (.report i))
    rw [(Runs.tallied_eq_some hl).2]
    exact Nat.le_add_right _ _
  have hsum : n ≤ ∑ i ∈ Finset.range n, x₁.2 (.report i) := ha₁.counted ▸ marked_complete ha₁ hmark
  by_contra hne
  have hlt : ∑ i ∈ Finset.range n, x₁.2 (.report i) < ∑ i ∈ Finset.range n, 1 :=
    Finset.sum_lt_sum hle ⟨i, Finset.mem_range.mpr hi,
      lt_of_le_of_ne (hle i (Finset.mem_range.mpr hi)) hne⟩
  simp only [Finset.sum_const, Finset.card_range, nsmul_eq_mul, mul_one, Nat.cast_id] at hlt
  omega

/-- One batch, delivered twice: the second delivery finds it completed. -/
theorem finalised_exactly_once_delivered :
    ∃ s t, ReportRun defaultEnv (plannedContacts [contactsJob], fun _ => 0) (s, t) ∧
      t (.report 0) = 1 ∧ t .finalized = 1 := by
  let labels : List Label := .deliver 0 contactsJob :: List.replicate 8 (.run 0 {}) ++
    .run 0 activeContact :: List.replicate 10 (.run 0 {}) ++ .duplicate 1 contactsJob ::
    List.replicate 2 (.run 1 {})
  have start : Unreported (plannedContacts [contactsJob]) 1 := by
    refine ⟨Tables.sys_atRest _ _, ⟨_, rfl, rfl, rfl, rfl⟩, le_refl 1, ?_⟩
    intro i
    cases i <;> simp [plannedContacts, Tables.sys, World.committed]
  obtain ⟨s, t, hs, hone, hret⟩ : ∃ s t,
      Runs.checkedSteps (Runs.tallied (Sys.step defaultEnv) marks) (fun x l => closesReports x.1 l)
        (plannedContacts [contactsJob], fun _ => 0) labels = some (s, t) ∧
      t (.report 0) = 1 ∧ ∀ p, (s.procs p).returned :=
    ⟨_, _, rfl, rfl, Nat.rec rfl (fun p _ => Nat.rec rfl (fun _ _ => rfl) p)⟩
  have hr : ReportRun defaultEnv (plannedContacts [contactsJob], fun _ => 0) (s, t) :=
    Runs.reaches_checked (fun h => h) hs
  have once : ∀ i < 1, t (.report i) = 1 := by
    intro i hi
    rwa [Nat.lt_one_iff.mp hi]
  have ended : ∀ p job pc, s.procs p = .batch job pc → pc.closing = false := by
    intro p job pc hp
    have hp' := hret p
    rw [hp] at hp'
    cases pc <;> first | rfl | cases hp'
  exact ⟨s, t, hr, hone, (finalised_exactly_once start hr once ended).1⟩

end BulkActions
