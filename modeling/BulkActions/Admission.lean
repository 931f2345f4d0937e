import BulkActions.Submission

namespace BulkActions

/-- The row that `create_bulk_action` has built, and what becomes of it. -/
structure AccountAction where
  row : BulkAction
  handoff : Handoff

/-- The accounts with their limits, next to the submitted actions. -/
structure Platform where
  accounts : Uuid → Option Nat
  actions : Uuid → Option AccountAction

/-- The range that both account routes accept. -/
def acceptedLimit (limit : Nat) : Bool := 1 ≤ limit && limit ≤ 10000000

inductive PlatformLabel where
  | createAccount (id : Uuid) (limit : Nat)
  | updateAccount (id : Uuid) (limit : Nat)
  /-- the SELECT of the account in `create_bulk_action`, and the row built from it -/
  | submit (request : SubmitRequest)
  | action (id : Uuid) (l : HandoffLabel)

/-- The page query of a planning pass has `LIMIT batch_size`. -/
def Label.limited (s : Sys) : Label → Label
  | .run p ext =>
    match s.procs p with
    | .plan (.nextBatch loop) =>
      .run p { ext with page := ext.page.take loop.action.batchSize }
    | _ => .run p ext
  | l => l

def HandoffLabel.limited (s : Sys) : HandoffLabel → HandoffLabel
  | .worker l => .worker (l.limited s)
  | l => l

/-- The platform as a worker finds it while the account has this limit. -/
def Handoff.charged (h : Handoff) (limit : Nat) : Handoff :=
  { h with sys := { h.sys with world := { h.sys.world with rateLimitPerMinute := limit } } }

namespace Platform

def empty : Platform := ⟨fun _ => none, fun _ => none⟩

def setAccount (f : Platform) (id : Uuid) (limit : Nat) : Platform :=
  { f with accounts := Function.update f.accounts id (some limit) }

def setAction (f : Platform) (id : Uuid) (x : AccountAction) : Platform :=
  { f with actions := Function.update f.actions id (some x) }

def step (env : Env) (f : Platform) : PlatformLabel → Option Platform
  | .createAccount id limit =>
    if acceptedLimit limit && (f.accounts id).isNone then some (f.setAccount id limit) else none
  | .updateAccount id limit =>
    if acceptedLimit limit && (f.accounts id).isSome then some (f.setAccount id limit) else none
  | .submit r =>
    match f.accounts r.accountId, f.actions r.id with
    | some limit, none =>
      let row := r.row env.settings limit
      some (f.setAction r.id ⟨row, ⟨Tables.sys ⟨none, fun _ => none, []⟩ [], .flush row⟩⟩)
    | _, _ => none
  | .action id l =>
    match f.actions id with
    | none => none
    | some x =>
      match f.accounts x.row.accountId with
      | none => none
      | some limit =>
        ((x.handoff.charged limit).step env (l.limited x.handoff.sys)).map
          (fun h => f.setAction id { x with handoff := h })

def Reaches (env : Env) (ok : Platform → PlatformLabel → Prop) : Platform → Platform → Prop :=
  Runs.Reaches (step env) ok

end Platform

def PlanSource.Sized (size : Nat) : PlanSource → Prop
  | .ids rest => ∀ b ∈ rest, b.entityCount ≤ size
  | _ => True

/-- The batches of a planning pass are no larger than the batch size of its action. -/
structure PlanLoop.Sized (size : Nat) (loop : PlanLoop) : Prop where
  action : loop.action.batchSize = size
  source : loop.source.Sized size
  pending : ∀ row ∈ loop.pending, row.entityCount ≤ size

def PlanPc.Sized (size : Nat) : PlanPc → Prop
  | .setPlanning a => a.batchSize = size
  | .planningCommit a => a.batchSize = size
  | .nextBatch loop => loop.Sized size
  | .insertRows loop _ => loop.Sized size
  | .rowsCommit loop _ => loop.Sized size
  | .enqueueJobs loop _ _ => loop.Sized size
  | _ => True

/-- A delivery that has read the limit can be admitted. -/
def BatchPc.Sized (size : Nat) : BatchPc → Prop
  | .loadAccount n => n ≤ size
  | .rateLimit limit n => n ≤ limit
  | _ => True

def Proc.Sized (size : Nat) : Proc → Prop
  | .plan pc => pc.Sized size
  | .batch _ pc => pc.Sized size
  | _ => True

def Write.Sized (size : Nat) : Write → Prop
  | .insertBatch row => row.entityCount ≤ size
  | _ => True

structure Tables.Sized (size : Nat) (c : Tables) : Prop where
  action : ∀ a, c.action = some a → a.batchSize = size
  rows : ∀ i b, c.batches i = some b → b.entityCount ≤ size

structure World.Sized (size : Nat) (w : World) : Prop where
  committed : w.committed.Sized size
  writes : ∀ p, ∀ v ∈ w.db.writes p, v.Sized size

/-- Every batch of the action fits its batch size. -/
structure Sys.Sized (size : Nat) (s : Sys) : Prop where
  world : s.world.Sized size
  procs : ∀ p, (s.procs p).Sized size

def RequestPc.Sized (size : Nat) : RequestPc → Prop
  | .flush row => row.batchSize = size
  | .enqueue row => row.batchSize = size
  | .commit row => row.batchSize = size
  | _ => True

structure Handoff.Sized (size : Nat) (h : Handoff) : Prop where
  sys : h.sys.Sized size
  request : h.request.Sized size

/-- Every action of an account fits the account's limit. -/
structure Platform.Admits (f : Platform) : Prop where
  positive : ∀ id limit, f.accounts id = some limit → 1 ≤ limit
  fits : ∀ id x, f.actions id = some x → ∃ limit, f.accounts x.row.accountId = some limit ∧
    x.row.batchSize ≤ limit ∧ x.handoff.Sized x.row.batchSize

theorem effectiveBatchSize_le {settings : Settings} {requested : Option Nat} {limit : Nat}
    (h : 1 ≤ limit) : effectiveBatchSize settings requested limit ≤ limit := by
  unfold effectiveBatchSize
  exact max_le h (min_le_right _ _)

theorem planFromIds_le {ids : List Uuid} {batchSize : Nat} :
    ∀ b ∈ planFromIds ids batchSize, b.entityCount ≤ batchSize := by
  intro b hb
  simp only [planFromIds, List.mem_mapIdx] at hb
  obtain ⟨i, hi, rfl⟩ := hb
  simp [plannedChunk]

section Statements

variable {size : Nat} {w w' : World} {p : Pid} {now : Timestamp} {st : Stmt} {reply : Reply}

theorem apply_sized {v : Write} {c : Tables} (hv : v.Sized size) (hc : c.Sized size) :
    (v.apply c).Sized size := by
  cases v with
  | action u now =>
    refine ⟨?_, hc.rows⟩
    intro a ha
    obtain ⟨a₀, ha₀, rfl⟩ := Option.map_eq_some_iff.mp ha
    have hsize := hc.action a₀ ha₀
    cases u <;> exact hsize
  | batch i u now =>
    refine ⟨hc.action, ?_⟩
    intro j b hb
    by_cases hj : j = i
    · subst hj
      simp only [Write.apply, Function.update_self] at hb
      obtain ⟨b₀, hb₀, rfl⟩ := Option.map_eq_some_iff.mp hb
      have hsize := hc.rows j b₀ hb₀
      cases u <;> exact hsize
    · simp only [Write.apply, Function.update_of_ne hj] at hb
      exact hc.rows j b hb
  | insertBatch row =>
    refine ⟨hc.action, ?_⟩
    intro j b hb
    by_cases hj : j = row.batchIndex
    · subst hj
      simp only [Write.apply, Function.update_self, Option.some.injEq] at hb
      exact hb ▸ hv
    · simp only [Write.apply, Function.update_of_ne hj] at hb
      exact hc.rows j b hb
  | logs rows => exact ⟨hc.action, hc.rows⟩

theorem replay_sized {ws : List Write} {c : Tables} (hws : ∀ v ∈ ws, v.Sized size)
    (hc : c.Sized size) : (ReadCommitted.replay Write.apply ws c).Sized size := by
  induction ws generalizing c with
  | nil => exact hc
  | cons v ws ih =>
    exact ih (fun v' hv' => hws v' (List.mem_cons_of_mem _ hv'))
      (apply_sized (hws v List.mem_cons_self) hc)

theorem World.Sized.view (h : w.Sized size) (p : Pid) : (w.view p).Sized size :=
  replay_sized (h.writes p) h.committed

theorem World.Sized.write {v : Write} (h : w.Sized size) (hv : v.Sized size) :
    (w.write p v).Sized size := by
  refine ⟨h.committed, ?_⟩
  intro q v' hv'
  by_cases hq : q = p
  · subst hq
    rw [World.write, ReadCommitted.Store.write_writes_self, List.mem_append,
      List.mem_singleton] at hv'
    rcases hv' with hv' | rfl
    · exact h.writes q v' hv'
    · exact hv
  · rw [write_writes_ne _ _ hq] at hv'
    exact h.writes q v' hv'

theorem World.Sized.insertAll (h : w.Sized size) {rows : List BulkActionBatch}
    (hrows : ∀ row ∈ rows, row.entityCount ≤ size) : (w.insertAll p rows).Sized size := by
  induction rows generalizing w with
  | nil => exact h
  | cons row rows ih =>
    exact ih (h.write (v := .insertBatch row) (hrows row List.mem_cons_self))
      (fun row' hrow' => hrows row' (List.mem_cons_of_mem _ hrow'))

theorem World.Sized.closed (h : w.Sized size) {db : ReadCommitted.Store Pid RowId Write Tables}
    (hdb : db.committed.Sized size) (hw : db.writes = Function.update w.db.writes p []) :
    ({ w with db := db } : World).Sized size := by
  refine ⟨hdb, ?_⟩
  intro q v hv
  dsimp only at hv
  rw [hw] at hv
  by_cases hq : q = p
  · subst hq
    simp at hv
  · rw [Function.update_of_ne hq] at hv
    exact h.writes q v hv

theorem exec_sized (hw : w.Sized size)
    (hst : ∀ rows, st = .insertBatches rows → ∀ row ∈ rows, row.entityCount ≤ size)
    (h : w.exec p now st = some (w', reply)) : w'.Sized size := by
  cases st with
  | updateAction u =>
    rcases exec_updateAction h with ⟨_, rfl, _⟩ | ⟨a, _, _, _, rfl, _⟩
    · exact hw
    · exact hw.write trivial
  | updateBatch i u =>
    rcases exec_updateBatch h with ⟨_, rfl⟩ | ⟨b, _, _, _, rfl⟩
    · exact hw
    · exact hw.write trivial
  | insertBatches rows =>
    obtain ⟨fresh, rfl, _, rfl⟩ := exec_insertBatches h
    exact hw.insertAll (fun row hrow => hst rows rfl row (List.mem_of_mem_filter hrow))
  | insertLogs i outcomes =>
    cases Option.some.inj h
    have hlogs := hw.write (p := p) (v := .logs (World.logRows w.logSeq i outcomes)) trivial
    exact ⟨hlogs.committed, hlogs.writes⟩
  | commit =>
    cases Option.some.inj h
    exact hw.closed (replay_sized (hw.writes p) hw.committed) rfl
  | _ =>
    cases Option.some.inj h
    exact ⟨hw.committed, hw.writes⟩

theorem World.Sized.rollback (h : w.Sized size) : (w.rollback p).Sized size :=
  h.closed h.committed rfl

end Statements

section Tasks

variable {size : Nat} {w w' : World} {p : Pid} {reply : Reply}

theorem start_sized {action : BulkAction} (h : action.batchSize = size) :
    (PlanLoop.start action).Sized size := by
  refine ⟨h, ?_, by simp [PlanLoop.start]⟩
  simp only [PlanLoop.start, PlanSource.start]
  split
  · exact h ▸ planFromIds_le
  · trivial

/-- The generator yields batches of at most the batch size. -/
theorem next_sized {source source' : PlanSource} {page : List Uuid} {planned : PlannedBatch}
    (h : source.Sized size) (hpage : page.length ≤ size)
    (hn : source.next size page = some (planned, source')) :
    planned.entityCount ≤ size ∧ source'.Sized size := by
  cases source with
  | filter lastId index =>
    simp only [PlanSource.next] at hn
    split_ifs at hn <;> cases Option.some.inj hn
    · exact ⟨hpage, trivial⟩
    · exact ⟨hpage, trivial⟩
  | ids rest =>
    cases rest with
    | nil => cases hn
    | cons b rest =>
      cases Option.some.inj hn
      exact ⟨h _ List.mem_cons_self, fun b' hb' => h b' (List.mem_cons_of_mem _ hb')⟩
  | exhausted => cases hn

theorem afterPage_sized {loop : PlanLoop} {page : List Uuid} (h : loop.Sized size)
    (hpage : page.length ≤ size) : (PlanPc.afterPage loop page).Sized size := by
  unfold PlanPc.afterPage
  split
  · split_ifs
    · trivial
    · exact h
  · rename_i planned source hn
    rw [h.action] at hn
    obtain ⟨hcount, hsource⟩ := next_sized h.source hpage hn
    have happend : (loop.append planned source).Sized size := by
      refine ⟨h.action, hsource, ?_⟩
      intro row hrow
      rcases List.mem_append.mp hrow with hrow | hrow
      · exact h.pending row hrow
      · rw [List.mem_singleton.mp hrow]
        exact hcount
    dsimp only
    split_ifs <;> exact happend

theorem plan_sized {ext : External} {pc next : PlanPc} (hw : w.Sized size) (h : pc.Sized size)
    (hpage : ∀ loop, pc = .nextBatch loop → ext.page.length ≤ size)
    (he : w.exec p ext.now pc.stmt = some (w', reply)) (hn : pc.resume ext reply = .ok next) :
    next.Sized size := by
  cases pc with
  | loadAction =>
    have hv := (exec_selectAction he).2
    simp only [PlanPc.resume] at hn
    split at hn <;> cases Except.ok.inj hn
    next => trivial
    next a ha =>
      split_ifs
      · trivial
      · exact (hw.view p).action a (hv ▸ ha)
  | planningCommit a =>
    cases Except.ok.inj hn
    exact start_sized h
  | nextBatch loop =>
    cases Except.ok.inj hn
    exact afterPage_sized h (hpage loop rfl)
  | rowsCommit loop last =>
    cases Except.ok.inj hn
    exact ⟨h.action, h.source, by simp⟩
  | enqueueJobs loop rows last =>
    cases rows with
    | nil =>
      cases Except.ok.inj hn
      unfold PlanPc.afterFlush
      split_ifs
      · trivial
      · exact h
    | cons row rows =>
      cases Except.ok.inj hn
      exact h
  | failCommit error => cases hn
  | _ =>
    cases Except.ok.inj hn
    exact h

theorem batch_sized {env : Env} {job : BatchJob} {ext : External} {pc next : BatchPc}
    (hw : w.Sized size) (h : pc.Sized size) (hlimit : size ≤ w.rateLimitPerMinute)
    (he : w.exec p ext.now (pc.stmt env.settings job) = some (w', reply))
    (hn : pc.resume env.text ext reply = .ok next) : next.Sized size := by
  cases pc with
  | loadAction =>
    simp only [BatchPc.resume] at hn
    split at hn <;> cases Except.ok.inj hn <;> trivial
  | loadBatch a =>
    have hv := (exec_selectBatch he).2
    cases Except.ok.inj hn
    cases hb : reply.batch with
    | none => trivial
    | some b =>
      simp only [BatchPc.afterLoad]
      split_ifs
      · trivial
      · trivial
      · exact (hw.view p).rows job.index b (hv ▸ hb)
  | loadAccount n =>
    cases Option.some.inj he
    cases Except.ok.inj hn
    exact le_trans h hlimit
  | rateLimit limit n =>
    simp only [BatchPc.resume] at hn
    cases hc : consume limit n ext.decision with
    | error e => simp [hc, Except.map] at hn
    | ok d =>
      simp only [hc, Except.map, Except.ok.injEq] at hn
      subst hn
      split_ifs <;> trivial
  | reloadAction n =>
    simp only [BatchPc.resume] at hn
    split at hn <;> cases Except.ok.inj hn <;> trivial
  | reloadBatch n a =>
    simp only [BatchPc.resume] at hn
    split at hn
    · cases hn
    · cases Except.ok.inj hn
      split_ifs <;> trivial
  | finalizeSelect after =>
    simp only [BatchPc.resume] at hn
    split at hn <;> cases Except.ok.inj hn
    · cases after <;> trivial
    · trivial
  | finalizeUpdate after st =>
    cases Except.ok.inj hn
    cases after <;> trivial
  | refresh n r =>
    simp only [BatchPc.resume] at hn
    split at hn <;> cases Except.ok.inj hn <;> trivial
  | finalizeCommit after =>
    cases after <;> cases Except.ok.inj hn <;> trivial
  | _ =>
    cases Except.ok.inj hn
    trivial

theorem handler_sized {env : Env} {error : String} {proc : Proc} (h : proc.Sized size) :
    (proc.handler env error).Sized size := by
  cases proc with
  | plan pc => cases pc <;> trivial
  | batch job pc =>
    rcases handler_batch env error job pc with ⟨hl, _⟩ | ⟨n, _, _, hm⟩
    · rw [hl]
      trivial
    · rw [hm]
      trivial
  | _ => exact h

theorem stmt_sized {env : Env} {proc : Proc} (h : proc.Sized size) :
    ∀ rows, proc.stmt env = .insertBatches rows → ∀ row ∈ rows, row.entityCount ≤ size := by
  intro rows hst
  cases proc with
  | plan pc =>
    cases pc with
    | insertRows loop last =>
      cases hst
      exact h.pending
    | enqueueJobs loop rows last => cases rows <;> cases hst
    | _ => cases hst
  | batch job pc =>
    cases pc with
    | writeOutcomes n r =>
      simp only [Proc.stmt, BatchPc.stmt, writeOutcomes] at hst
      split at hst <;> cases hst
    | markOutcomes n error =>
      simp only [Proc.stmt, BatchPc.stmt, writeOutcomes] at hst
      split at hst <;> cases hst
    | _ => cases hst
  | cancel pc => cases pc <;> cases hst
  | idle => cases hst
  | lost job => cases hst

theorem Sys.Sized.set {s : Sys} {w : World} {proc : Proc} (hs : s.Sized size) (hw : w.Sized size)
    (hp : proc.Sized size) : (s.set w p proc).Sized size :=
  ⟨hw, forall_procs_set hp (fun q _ => hs.procs q)⟩

theorem job_sized (job : Job) : job.proc.Sized size := by
  cases job <;> trivial

theorem sized_step {env : Env} {s s' : Sys} {l : Label} (hs : s.Sized size)
    (hlimit : size ≤ s.world.rateLimitPerMinute)
    (hpage : ∀ p ext loop, l = .run p ext → s.procs p = .plan (.nextBatch loop) →
      ext.page.length ≤ size)
    (h : s.step env l = some s') : s'.Sized size := by
  cases step_happens h with
  | deliver _ _ => exact hs.set ⟨hs.world.committed, hs.world.writes⟩ (job_sized _)
  | duplicate _ => exact hs.set hs.world (job_sized _)
  | redeliver _ => exact hs.set hs.world (job_sized _)
  | cancel _ => exact hs.set hs.world trivial
  | @run p ext w reply next hr he hn =>
    refine hs.set (exec_sized hs.world (stmt_sized (hs.procs p)) he) ?_
    have hsized := hs.procs p
    cases hp : s.procs p with
    | batch job pc =>
      rw [hp] at he hn hsized
      obtain ⟨pc', hpc, rfl⟩ := batch_resume_ok hn
      exact batch_sized hs.world hsized hlimit he hpc
    | plan pc =>
      rw [hp] at he hn hsized
      obtain ⟨pc', hpc, rfl⟩ := plan_resume_ok hn
      refine plan_sized hs.world hsized ?_ he hpc
      rintro loop rfl
      exact hpage p ext loop rfl hp
    | cancel pc =>
      rw [hp] at hn
      cases Except.ok.inj hn
      trivial
    | idle => simp [hp, Proc.running] at hr
    | lost job => simp [hp, Proc.running] at hr
  | @fail p ext w reply error hr he hn =>
    exact hs.set (exec_sized hs.world (stmt_sized (hs.procs p)) he).rollback
      (handler_sized (hs.procs p))
  | @raise p error _ _ => exact hs.set hs.world.rollback (handler_sized (hs.procs p))
  | swallow _ => exact hs.set hs.world trivial
  | @crash p _ =>
    refine hs.set hs.world.rollback ?_
    cases s.procs p <;> trivial

end Tasks

theorem Handoff.Sized.charged {size : Nat} {h : Handoff} (hs : h.Sized size) (limit : Nat) :
    (h.charged limit).Sized size :=
  ⟨⟨⟨hs.sys.world.committed, hs.sys.world.writes⟩, hs.sys.procs⟩, hs.request⟩

theorem insertAction_sized {size : Nat} {s : Sys} {row : BulkAction} (hs : s.Sized size)
    (hrow : row.batchSize = size) : (s.insertAction row).Sized size := by
  refine ⟨⟨⟨?_, hs.world.committed.rows⟩, hs.world.writes⟩, hs.procs⟩
  intro a ha
  cases Option.some.inj ha
  exact hrow

/-- The page that a pass is given has passed the LIMIT. -/
theorem limited_page {s : Sys} {l : Label} {p : Pid} {ext : External} {loop : PlanLoop}
    (hl : l.limited s = .run p ext) (hp : s.procs p = .plan (.nextBatch loop)) :
    ext.page.length ≤ loop.action.batchSize := by
  cases l with
  | run q ext' =>
    simp only [Label.limited] at hl
    split at hl
    next loop' hq =>
      cases hl
      cases hq.symm.trans hp
      exact List.length_take_le _ _
    next hq =>
      cases hl
      exact absurd hp (hq loop)
  | _ => cases hl

theorem handoff_sized_step {env : Env} {size limit : Nat} {h h' : Handoff} {l : HandoffLabel}
    (hs : h.Sized size) (hlimit : size ≤ limit)
    (hstep : (h.charged limit).step env (l.limited h.sys) = some h') : h'.Sized size := by
  have hcharged := hs.charged limit
  cases l with
  | request =>
    simp only [HandoffLabel.limited, Handoff.step] at hstep
    have hrequest := hcharged.request
    split at hstep
    next row hr =>
      cases Option.some.inj hstep
      rw [hr] at hrequest
      exact ⟨hcharged.sys, hrequest⟩
    next row hr =>
      cases Option.some.inj hstep
      rw [hr] at hrequest
      exact ⟨⟨⟨hcharged.sys.world.committed, hcharged.sys.world.writes⟩, hcharged.sys.procs⟩,
        hrequest⟩
    next row hr =>
      cases Option.some.inj hstep
      rw [hr] at hrequest
      exact ⟨insertAction_sized hcharged.sys hrequest, trivial⟩
    next => cases hstep
    next => cases hstep
  | abort =>
    simp only [HandoffLabel.limited, Handoff.step] at hstep
    split at hstep
    next => cases hstep
    next => cases hstep
    next =>
      cases Option.some.inj hstep
      exact ⟨hcharged.sys, trivial⟩
  | worker l =>
    simp only [HandoffLabel.limited, Handoff.step] at hstep
    obtain ⟨s', hs', rfl⟩ := Option.map_eq_some_iff.mp hstep
    refine ⟨sized_step hcharged.sys hlimit ?_ hs', hcharged.request⟩
    intro p ext loop hl hp
    have hloop := hs.sys.procs p
    rw [show h.sys.procs p = .plan (.nextBatch loop) from hp] at hloop
    exact hloop.action ▸ limited_page hl hp

/-- No PATCH takes the limit of an account below the batch size of an action that has been
submitted for it. -/
def KeepsBatchSizes (f : Platform) : PlatformLabel → Prop
  | .updateAccount id limit => ∀ i x, f.actions i = some x → x.row.accountId = id →
      x.row.batchSize ≤ limit
  | _ => True

theorem admits_setAccount {f : Platform} {id : Uuid} {limit : Nat} (hf : f.Admits)
    (hpos : 1 ≤ limit) (hfits : ∀ i x, f.actions i = some x → x.row.accountId = id →
      x.row.batchSize ≤ limit) : (f.setAccount id limit).Admits := by
  constructor
  · intro id' limit' h
    by_cases hid : id' = id
    · subst hid
      simp only [Platform.setAccount, Function.update_self, Option.some.injEq] at h
      exact h ▸ hpos
    · simp only [Platform.setAccount, Function.update_of_ne hid] at h
      exact hf.positive id' limit' h
  · intro i x hx
    obtain ⟨limit', hlimit, hle, hsized⟩ := hf.fits i x hx
    by_cases hid : x.row.accountId = id
    · refine ⟨limit, ?_, hfits i x hx hid, hsized⟩
      rw [hid]
      exact Function.update_self ..
    · exact ⟨limit', (Function.update_of_ne hid ..).trans hlimit, hle, hsized⟩

theorem admits_setAction {f : Platform} {id : Uuid} {x : AccountAction} {limit : Nat}
    (hf : f.Admits) (hlimit : f.accounts x.row.accountId = some limit)
    (hle : x.row.batchSize ≤ limit) (hsized : x.handoff.Sized x.row.batchSize) :
    (f.setAction id x).Admits := by
  refine ⟨hf.positive, ?_⟩
  intro i y hy
  by_cases hi : i = id
  · subst hi
    simp only [Platform.setAction, Function.update_self, Option.some.injEq] at hy
    subst hy
    exact ⟨limit, hlimit, hle, hsized⟩
  · simp only [Platform.setAction, Function.update_of_ne hi] at hy
    exact hf.fits i y hy

theorem admits_step {env : Env} {f f' : Platform} {l : PlatformLabel} (hf : f.Admits)
    (ok : KeepsBatchSizes f l) (h : f.step env l = some f') : f'.Admits := by
  cases l with
  | createAccount id limit =>
    simp only [Platform.step, acceptedLimit, Bool.and_eq_true, decide_eq_true_eq] at h
    split_ifs at h with hc
    cases Option.some.inj h
    refine admits_setAccount hf hc.1.1 ?_
    -- An account that does not exist yet has no actions.
    rintro i x hx rfl
    obtain ⟨limit', hlimit, _⟩ := hf.fits i x hx
    simp [hlimit] at hc
  | updateAccount id limit =>
    simp only [Platform.step, acceptedLimit, Bool.and_eq_true, decide_eq_true_eq] at h
    split_ifs at h with hc
    cases Option.some.inj h
    exact admits_setAccount hf hc.1.1 ok
  | submit r =>
    simp only [Platform.step] at h
    split at h
    next limit hlimit _ =>
      cases Option.some.inj h
      refine admits_setAction hf hlimit (effectiveBatchSize_le (hf.positive _ _ hlimit)) ⟨?_, rfl⟩
      exact ⟨⟨⟨by simp [Tables.sys, World.committed], by simp [Tables.sys, World.committed]⟩,
        by simp [Tables.sys]⟩, fun _ => trivial⟩
    next => cases h
  | action id l =>
    simp only [Platform.step] at h
    split at h
    next => cases h
    next x hx =>
      obtain ⟨limit, hlimit, hle, hsized⟩ := hf.fits id x hx
      simp only [hlimit] at h
      obtain ⟨h', hstep, rfl⟩ := Option.map_eq_some_iff.mp h
      exact admits_setAction hf hlimit hle (handoff_sized_step hsized hle hstep)

theorem admits_reaches {env : Env} {f : Platform}
    (h : Platform.Reaches env KeepsBatchSizes .empty f) : f.Admits := by
  refine h.invariant admits_step ⟨?_, ?_⟩
  · intro id limit hnone
    cases hnone
  · intro id x hnone
    cases hnone

/-- Raising a limit is always allowed. -/
theorem keepsBatchSizes_raise {f : Platform} {id : Uuid} {limit limit' : Nat} (hf : f.Admits)
    (h : f.accounts id = some limit) (hle : limit ≤ limit') :
    KeepsBatchSizes f (.updateAccount id limit') := by
  rintro i x hx rfl
  obtain ⟨limit₀, hlimit₀, hsize, _⟩ := hf.fits i x hx
  cases Option.some.inj (h.symm.trans hlimit₀)
  exact hsize.trans hle

/-- While no PATCH goes below the batch size of a submitted action, `process_batch` never asks
the bucket for more than the limit it has read. -/
theorem planned_batches_admitted {env : Env} {f : Platform}
    (h : Platform.Reaches env KeepsBatchSizes .empty f) {id : Uuid} {x : AccountAction} {p : Pid}
    {job : BatchJob} {limit n : Nat} (hx : f.actions id = some x)
    (hp : x.handoff.sys.procs p = .batch job (.rateLimit limit n)) :
    n ≤ limit ∧ ∀ d, ∃ d', consume limit n d = .ok d' := by
  obtain ⟨_, _, _, hsized⟩ := (admits_reaches h).fits id x hx
  have hle : n ≤ limit := by
    have hproc := hsized.sys.procs p
    rw [hp] at hproc
    exact hproc
  refine ⟨hle, fun d => ?_⟩
  unfold consume
  split_ifs with hzero hlt
  · exact ⟨_, rfl⟩
  · exact absurd hlt (not_lt.mpr hle)
  · exact ⟨d, rfl⟩

/-- Contacts 5, 6 and 7 of account 1, in batches of ten at most. -/
def contactsRequest : SubmitRequest where
  id := 7
  accountId := 1
  entityType := .contact
  config := deactivateContacts
  batchSize := some 10

def contactsTask (l : Label) : PlatformLabel := .action 7 (.worker l)

/-- The request commits and its plan job plans one batch of three. -/
def planThreeContacts : List PlatformLabel :=
  List.replicate 3 (.action 7 .request) ++ [contactsTask (.deliver 0 .plan)] ++
    List.replicate 3 (contactsTask (.run 0 {})) ++
    [contactsTask (.run 0 { page := [5, 6, 7] })] ++
    List.replicate 8 (contactsTask (.run 0 {}))

/-- The batch comes to the gate. -/
def gateThreeContacts : List PlatformLabel :=
  contactsTask (.deliver 1 (.batch ⟨0, 0, 1⟩)) :: List.replicate 3 (contactsTask (.run 1 {}))

/-- The limit and the amount with which worker 1 is about to ask the bucket. -/
def Proc.gate : Proc → Option (Nat × Nat)
  | .batch _ (.rateLimit limit n) => some (limit, n)
  | _ => none

theorem Proc.gate_eq_some {proc : Proc} {limit n : Nat} (h : proc.gate = some (limit, n)) :
    ∃ job, proc = .batch job (.rateLimit limit n) := by
  unfold Proc.gate at h
  split at h
  · cases Option.some.inj h
    exact ⟨_, rfl⟩
  · cases h

def PlatformLabel.patches : PlatformLabel → Bool
  | .updateAccount _ _ => true
  | _ => false

/-- The limit is raised after the submission. -/
theorem planned_batches_admitted_raised :
    ∃ f x job limit n, Platform.Reaches defaultEnv KeepsBatchSizes .empty f ∧
      f.actions 7 = some x ∧ x.handoff.sys.procs 1 = .batch job (.rateLimit limit n) ∧
      n = 3 ∧ n ≤ limit := by
  have unpatched : ∀ {f f' : Platform} {ls : List PlatformLabel},
      Runs.checkedSteps (Platform.step defaultEnv) (fun _ l => !l.patches) f ls = some f' →
      Platform.Reaches defaultEnv KeepsBatchSizes f f' := by
    intro f f' ls hls
    refine Runs.reaches_checked ?_ hls
    intro f l hl
    cases l <;> trivial
  obtain ⟨f₁, h₁, hlimit, f, h₂, hgate⟩ : ∃ f₁,
      Runs.checkedSteps (Platform.step defaultEnv) (fun _ l => !l.patches) .empty
        [.createAccount 1 10, .submit contactsRequest] = some f₁ ∧ f₁.accounts 1 = some 10 ∧
      ∃ f, Runs.checkedSteps (Platform.step defaultEnv) (fun _ l => !l.patches)
        (f₁.setAccount 1 20) (planThreeContacts ++ gateThreeContacts) = some f ∧
      (f.actions 7).bind (fun x => (x.handoff.sys.procs 1).gate) = some (20, 3) :=
    ⟨_, rfl, rfl, _, rfl, rfl⟩
  have hpatch : KeepsBatchSizes f₁ (.updateAccount 1 20) :=
    keepsBatchSizes_raise (admits_reaches (unpatched h₁)) hlimit (by decide)
  have hstep : f₁.step defaultEnv (.updateAccount 1 20) = some (f₁.setAccount 1 20) := by
    simp [Platform.step, acceptedLimit, hlimit]
  have hr : Platform.Reaches defaultEnv KeepsBatchSizes .empty f :=
    ((unpatched h₁).tail ⟨_, hpatch, hstep⟩).trans (unpatched h₂)
  obtain ⟨x, hx, hp⟩ := Option.bind_eq_some_iff.mp hgate
  obtain ⟨job, hp⟩ := Proc.gate_eq_some hp
  exact ⟨f, x, job, 20, 3, hr, hx, hp, rfl, (planned_batches_admitted hr hx hp).1⟩

/-- The limit is lowered below a batch that has been planned. -/
theorem planned_batch_refused :
    ¬ ∀ f, Platform.Reaches defaultEnv Runs.anyStep .empty f →
      ∀ id x p job limit n, f.actions id = some x →
        x.handoff.sys.procs p = .batch job (.rateLimit limit n) → n ≤ limit := by
  intro always
  obtain ⟨f, hf, hgate⟩ : ∃ f, Runs.steps (Platform.step defaultEnv) .empty
      ([.createAccount 1 10, .submit contactsRequest] ++ planThreeContacts ++
        [.updateAccount 1 2] ++ gateThreeContacts) = some f ∧
      ((f.actions 7).bind (fun x => (x.handoff.sys.procs 1).gate)) = some (2, 3) :=
    ⟨_, rfl, rfl⟩
  obtain ⟨x, hx, hp⟩ := Option.bind_eq_some_iff.mp hgate
  obtain ⟨job, hp⟩ := Proc.gate_eq_some hp
  have hle := always f (Runs.reaches_of_steps hf) 7 x 1 job 2 3 hx hp
  exact absurd hle (by decide)

end BulkActions
