import BulkActions.AuditTrail
import BulkActions.Finalisers

namespace BulkActions

open ReadCommitted

/-- UPDATEs that end the action. -/
def ActionUpdate.ends : ActionUpdate → Bool
  | .closeEmpty => true
  | .finalize status => status.isTerminal
  | .failAction _ => true
  | .cancel => true
  | _ => false

def Write.ends : Write → Bool
  | .action u _ => u.ends
  | _ => false

/-- The open transaction of `p` ends the action. -/
def Sys.ending (s : Sys) (p : Pid) : Bool := (s.world.db.writes p).any Write.ends

/-- The commit that follows the publishing of a progress frame. -/
def Proc.announced : Proc → Bool
  | .batch _ (.finalizeCommit (.batchDone _ _)) => true
  | _ => false

/-- The points of the try block after the refresh. -/
def BatchPc.afterRefresh : BatchPc → Bool
  | .publish _ _ _ => true
  | .finalizeCommit (.batchDone _ _) => true
  | _ => false

def Stmt.commits : Stmt → Bool
  | .commit => true
  | _ => false

/-- A frame of the event stream. -/
inductive Frame where
  | progress (payload : ProgressPayload)
  | done (payload : ProgressPayload)
  | heartbeat

def Frame.terminal : Frame → Bool
  | .progress payload => payload.status.isTerminal
  | .done payload => payload.status.isTerminal
  | .heartbeat => false

/-- Where a call of `stream_progress` stands; a subscriber's next message is named by its place
among all that are published. -/
inductive StreamPc where
  | getAction
  | subscribe
  | getMessage (next : Nat)
  | closed
  deriving DecidableEq, Repr

structure EventStream where
  pc : StreamPc
  sent : List Frame

namespace EventStream

/-- The request goes on: the current state first, then the messages that come after the
subscription. -/
def advance (w : World) (e : EventStream) : Option EventStream :=
  match e.pc with
  | .getAction =>
    match w.committed.action with
    | none => some { e with pc := .closed }
    | some a =>
      let initial := progressPayload a
      some
        { pc := if initial.status.isTerminal then .closed else .subscribe
          sent := e.sent ++ [.progress initial] }
  | .subscribe => some { e with pc := .getMessage w.published.length }
  | .getMessage next =>
    match w.published[next]? with
    | none => some { e with sent := e.sent ++ [.heartbeat] }
    | some payload =>
      if payload.status.isTerminal then
        some { pc := .closed, sent := e.sent ++ [.progress payload, .done payload] }
      else some { pc := .getMessage (next + 1), sent := e.sent ++ [.progress payload] }
  | .closed => none

def connected (e : EventStream) : Bool :=
  match e.pc with
  | .subscribe => true
  | .getMessage _ => true
  | _ => false

/-- The messages that wait for the stream. -/
def undelivered (w : World) (e : EventStream) : List ProgressPayload :=
  match e.pc with
  | .getMessage next => w.published.drop next
  | _ => []

/-- A client that is still there will yet be told of the end. -/
def Informed (w : World) (e : EventStream) : Prop :=
  e.connected → ∃ payload ∈ e.undelivered w, payload.status.isTerminal

variable {w w' : World} {e e' : EventStream} {extra : List ProgressPayload}

theorem informed_published (h : e.Informed w) (hw : w'.published = w.published ++ extra) :
    e.Informed w' := by
  intro hconnected
  obtain ⟨payload, hmem, ht⟩ := h hconnected
  refine ⟨payload, ?_, ht⟩
  cases hpc : e.pc with
  | getMessage next =>
    simp only [undelivered, hpc] at hmem ⊢
    rw [hw, List.drop_append]
    exact List.mem_append_left _ hmem
  | _ => simp [undelivered, hpc] at hmem

/-- A subscriber is told by a message that is published now. -/
theorem informed_publish {payload : ProgressPayload}
    (hbehind : ∀ next, e.pc = .getMessage next → next ≤ w.published.length)
    (hpc : e.pc ≠ .subscribe) (ht : payload.status.isTerminal)
    (hw : w'.published = w.published ++ [payload]) : e.Informed w' := by
  intro hconnected
  refine ⟨payload, ?_, ht⟩
  cases he : e.pc with
  | getMessage next =>
    simp only [undelivered, he]
    rw [hw, List.drop_append_of_le_length (hbehind next he)]
    exact List.mem_append_right _ List.mem_cons_self
  | subscribe => exact absurd he hpc
  | getAction => simp [connected, he] at hconnected
  | closed => simp [connected, he] at hconnected

/-- What a request that is past its first read does next keeps the end in sight. -/
theorem informed_advance (h : e.Informed w) (hpc : e.pc ≠ .getAction)
    (he : e.advance w = some e') : e'.Informed w := by
  unfold advance at he
  split at he
  next hget => exact absurd hget hpc
  next hsub =>
    obtain ⟨payload, hmem, _⟩ := h (by simp [connected, hsub])
    simp [undelivered, hsub] at hmem
  next next hnext =>
    obtain ⟨last, hmem, hlast⟩ := h (by simp [connected, hnext])
    simp only [undelivered, hnext] at hmem
    split at he
    next hnone =>
      rw [List.drop_eq_nil_of_le (List.getElem?_eq_none_iff.mp hnone)] at hmem
      exact absurd hmem List.not_mem_nil
    next payload hpayload =>
      split at he
      next =>
        cases Option.some.inj he
        simp [Informed, connected]
      next hlive =>
        cases Option.some.inj he
        intro _
        refine ⟨last, ?_, hlast⟩
        obtain ⟨hlt, hget⟩ := List.getElem?_eq_some_iff.mp hpayload
        rw [List.drop_eq_getElem_cons hlt, hget] at hmem
        rcases List.mem_cons.mp hmem with rfl | hmem
        · exact absurd hlast hlive
        · exact hmem
  next => cases he

theorem advance_behind (h : ∀ next, e.pc = .getMessage next → next ≤ w.published.length)
    (he : e.advance w = some e') :
    ∀ next, e'.pc = .getMessage next → next ≤ w.published.length := by
  intro next hnext
  unfold advance at he
  split at he
  next =>
    split at he
    next =>
      cases Option.some.inj he
      cases hnext
    next a _ =>
      cases Option.some.inj he
      simp only at hnext
      split at hnext <;> cases hnext
  next =>
    cases Option.some.inj he
    cases hnext
    exact Nat.le_refl _
  next at' hat =>
    split at he
    next =>
      cases Option.some.inj he
      exact h next hnext
    next payload hpayload =>
      split at he
      next =>
        cases Option.some.inj he
        cases hnext
      next =>
        cases Option.some.inj he
        cases hnext
        exact (List.getElem?_eq_some_iff.mp hpayload).1
  next => cases he

end EventStream

section Ending

variable {u : ActionUpdate} {a : BulkAction} {now : Timestamp}

theorem set_not_terminal (hu : u.ends = false) (ha : a.status.isTerminal = false) :
    (u.set now a).status.isTerminal = false := by
  cases u with
  | closeEmpty => cases hu
  | failAction error => cases hu
  | cancel => cases hu
  | finalize status => exact hu
  | setPlanning => rfl
  | markStarted => rfl
  | setTotals entities batches => exact ha
  | recordBatchCompletion processed success failure skipped batchDone => exact ha

/-- Only a transaction that ends the action makes its status terminal. -/
theorem replay_not_terminal {c : Tables} {ws : List Write} (hws : ws.any Write.ends = false)
    (hc : ∀ a, c.action = some a → a.status.isTerminal = false) :
    ∀ a, (replay Write.apply ws c).action = some a → a.status.isTerminal = false := by
  induction ws generalizing c with
  | nil => exact hc
  | cons v ws ih =>
    rw [List.any_cons, Bool.or_eq_false_iff] at hws
    refine ih hws.2 ?_
    intro a ha
    cases v with
    | action u now =>
      obtain ⟨b, hb, rfl⟩ := Option.map_eq_some_iff.mp ha
      exact set_not_terminal hws.1 (hc b hb)
    | batch i u now => exact hc a ha
    | insertBatch row => exact hc a ha
    | logs rows => exact hc a ha

theorem finalStatus_terminal (k : Nat) : (finalStatus k).isTerminal := by
  unfold finalStatus
  split <;> rfl

/-- A delivery that has finalised the action sees it so. -/
theorem finalized_view {w : World} {p : Pid} (hw : FinalizeWrites (w.db.writes p))
    (hends : (w.db.writes p).any Write.ends) (ha : (w.view p).action = some a) :
    a.status.isTerminal := by
  rcases hw with hw | ⟨k, now, hw⟩
  · simp [hw] at hends
  · simp only [World.view, Store.view, hw, replay_cons, replay_nil, Write.apply] at ha
    obtain ⟨b, _, rfl⟩ := Option.map_eq_some_iff.mp ha
    exact finalStatus_terminal k

end Ending

section Points

variable {text : PyText} {ext : External} {reply : Reply} {pc : BatchPc}

/-- The end of the try block comes after a refresh alone. -/
theorem resume_afterRefresh {next : BatchPc} (h : pc.resume text ext reply = .ok next)
    (hnext : next.afterRefresh) :
    (∃ n r a, pc = .refresh n r ∧ reply.action = some a ∧
        next = .publish n r (progressPayload a)) ∨
      (∃ n r, pc = .refresh n r ∧ reply.action = none) ∨
      ∃ n r payload, pc = .publish n r payload ∧ next = .finalizeCommit (.batchDone n r) := by
  cases pc with
  | refresh n r =>
    simp only [BatchPc.resume] at h
    split at h
    next hnone => exact Or.inr (Or.inl ⟨n, r, rfl, hnone⟩)
    next a ha =>
      cases h
      exact Or.inl ⟨n, r, a, rfl, ha, rfl⟩
  | publish n r payload =>
    cases h
    exact Or.inr (Or.inr ⟨n, r, payload, rfl, rfl⟩)
  | rateLimit limit n => rcases rateLimit_next h with rfl | ⟨ms, rfl⟩ <;> cases hnext
  | loadBatch a =>
    simp only [BatchPc.resume, BatchPc.afterLoad] at h
    split at h
    · cases h
      cases hnext
    · split_ifs at h <;> cases h <;> cases hnext
  | loadAction | reloadAction _ =>
    simp only [BatchPc.resume] at h
    split at h <;> cases h <;> cases hnext
  | reloadBatch n a =>
    simp only [BatchPc.resume] at h
    split at h
    · cases h
    · split_ifs at h <;> cases h <;> cases hnext
  | finalizeSelect after =>
    simp only [BatchPc.resume] at h
    split at h <;> cases after <;> cases h <;> cases hnext
  | finalizeUpdate after status => cases after <;> cases h <;> cases hnext
  | finalizeCommit after => cases after <;> cases h <;> cases hnext
  | _ =>
    cases h
    cases hnext

end Points

/-- What a job or a request that is under way can still do. -/
def Label.continues : Label → Bool
  | .duplicate _ _ => false
  | .cancel _ => false
  | _ => true

/-- The platform next to a client of the event stream. -/
structure Streaming where
  sys : Sys
  stream : EventStream

inductive StreamLabel where
  | sys (l : Label)
  /-- the request takes its next step -/
  | advance
  /-- the client hangs up -/
  | disconnect

/-- A step of the client or of the first `n` tasks and requests. -/
def StreamLabel.below (n : Nat) : StreamLabel → Bool
  | .sys l => l.pid < n
  | _ => true

namespace Streaming

def step (env : Env) (x : Streaming) : StreamLabel → Option Streaming
  | .sys l => (x.sys.step env l).map (fun s => { x with sys := s })
  | .advance => (x.stream.advance x.sys.world).map (fun e => { x with stream := e })
  | .disconnect =>
    if x.stream.connected then some { x with stream := { x.stream with pc := .closed } } else none

/-- The end of the action reaches the stream: the transaction that ends it commits behind its
progress frame or without a client, and no client misses the frame. -/
def Heard (env : Env) (x : Streaming) : StreamLabel → Prop
  | .advance => x.stream.pc = .getAction → ∀ p, (x.sys.procs p).announced → ¬ x.sys.ending p
  | .sys (.run p _) => x.sys.ending p →
    (((x.sys.procs p).stmt env).commits → (x.sys.procs p).announced ∨ ¬ x.stream.connected) ∧
      ((x.sys.procs p).publishing → x.stream.pc ≠ .subscribe)
  | .sys (.raise p _) => x.sys.ending p → (x.sys.procs p).publishing → ¬ x.stream.connected
  | _ => True

/-- No step that remains publishes anything. -/
def Silent (env : Env) (s : Sys) : Prop :=
  ∀ s', Sys.Reaches env (fun _ l => l.continues) s s' → s'.world.published = s.world.published

/-- The action has ended and its client waits for a message that will not come. -/
structure Stranded (env : Env) (x : Streaming) : Prop where
  ended : ∃ st, x.sys.status = some st ∧ st.isTerminal
  silent : Silent env x.sys
  connected : x.stream.connected
  unsent : ∀ frame ∈ x.stream.sent, ¬ frame.terminal
  undelivered : ∀ payload ∈ x.stream.undelivered x.sys.world, ¬ payload.status.isTerminal

/-- Before the request reads the action. -/
structure Begins (x : Streaming) : Prop where
  rest : x.sys.AtRest
  stream : x.stream = ⟨.getAction, []⟩

/-- The end of the action is never lost on the way to the stream. -/
structure Safe (env : Env) (x : Streaming) : Prop where
  consistent : Consistent env x.sys
  behind : ∀ next, x.stream.pc = .getMessage next → next ≤ x.sys.world.published.length
  frame : ∀ p job n r payload, x.sys.procs p = .batch job (.publish n r payload) →
    x.sys.ending p → payload.status.isTerminal
  announced : ∀ p, (x.sys.procs p).announced → x.sys.ending p → x.stream.Informed x.sys.world
  terminal : ∀ st, x.sys.status = some st → st.isTerminal → x.stream.Informed x.sys.world

theorem safe_begins {env : Env} {x : Streaming} (h : x.Begins) : x.Safe env where
  consistent := consistent_atRest h.rest
  behind := by simp [h.stream]
  frame := by simp [h.rest.idle]
  announced := by simp [h.rest.idle, Proc.announced]
  terminal := by simp [h.stream, EventStream.Informed, EventStream.connected]

section Steps

variable {env : Env} {x x' : Streaming} {s' : Sys} {l : Label}

theorem ending_set_rollback (s : Sys) (w : World) (p : Pid) (proc : Proc) :
    (s.set (w.rollback p) p proc).ending p = false := by
  simp [Sys.ending]

/-- A delivery comes to the end of the try block with the action it has refreshed. -/
theorem afterRefresh_run {s : Sys} {p : Pid} {ext : External} {w : World} {reply : Reply}
    {job : BatchJob} {pc : BatchPc} (hs : Consistent env s)
    (he : s.world.exec p ext.now ((s.procs p).stmt env) = some (w, reply))
    (hn : (s.procs p).resume env ext reply = .ok (.batch job pc)) (hpc : pc.afterRefresh) :
    (∃ n r a, s.procs p = .batch job (.refresh n r) ∧ w = s.world ∧
        (s.world.view p).action = some a ∧ pc = .publish n r (progressPayload a)) ∨
      ∃ n r payload, s.procs p = .batch job (.publish n r payload) ∧
        pc = .finalizeCommit (.batchDone n r) ∧
        w = { s.world with published := s.world.published ++ [payload] } := by
  have hpresent := hs.present p
  cases hq : s.procs p with
  | batch job' pc' =>
    rw [hq] at he hn hpresent
    obtain ⟨pc'', hresume, hnext⟩ := batch_resume_ok hn
    cases hnext
    rcases resume_afterRefresh hresume hpc with
      ⟨n, r, a, rfl, ha, rfl⟩ | ⟨n, r, rfl, hnone⟩ | ⟨n, r, payload, rfl, rfl⟩
    · obtain ⟨rfl, hreply⟩ := exec_selectAction he
      exact Or.inl ⟨n, r, a, rfl, rfl, hreply ▸ ha, rfl⟩
    · -- the row the delivery has seen is still there
      obtain ⟨rfl, hreply⟩ := exec_selectAction he
      have hsome := view_action_isSome s.world p
      rw [← hreply, hnone, hpresent.1] at hsome
      cases hsome
    · exact Or.inr ⟨n, r, payload, rfl, rfl, exec_publish he⟩
  | plan pc' =>
    rw [hq] at hn
    obtain ⟨_, _, hnext⟩ := plan_resume_ok hn
    cases hnext
  | cancel pc' =>
    rw [hq] at hn
    cases hn
  | idle =>
    rw [hq] at hn
    cases hn
  | lost job' =>
    rw [hq] at hn
    cases hn

/-- The process that a step reaches the end of the try block with. -/
theorem afterRefresh_step {p : Pid} {job : BatchJob} {pc : BatchPc} (hs : Consistent env x.sys)
    (h : x.sys.step env l = some s') (hl : l.pid = p) (hp : s'.procs p = .batch job pc)
    (hpc : pc.afterRefresh) (hends : s'.ending p) :
    (∃ ext n r a, l = .run p ext ∧ x.sys.procs p = .batch job (.refresh n r) ∧
        (x.sys.world.view p).action = some a ∧ s'.ending p = x.sys.ending p ∧
        pc = .publish n r (progressPayload a)) ∨
      ∃ n r payload, x.sys.procs p = .batch job (.publish n r payload) ∧
        pc = .finalizeCommit (.batchDone n r) ∧ s'.ending p = x.sys.ending p ∧
        ((∃ ext, l = .run p ext ∧ s'.world.published = x.sys.world.published ++ [payload]) ∨
          ∃ error, l = .raise p error) := by
  cases step_happens h with
  | @deliver q job' _ _ | @duplicate q job' _ =>
    obtain rfl : q = p := hl
    rw [set_procs_self] at hp
    cases job' <;> cases hp
    cases hpc
  | @redeliver q job' _ =>
    obtain rfl : q = p := hl
    rw [set_procs_self] at hp
    cases job' <;> cases hp
    cases hpc
  | @cancel q _ =>
    obtain rfl : q = p := hl
    rw [set_procs_self] at hp
    cases hp
  | @fail q _ _ _ _ _ _ _ =>
    obtain rfl : q = p := hl
    simp [ending_set_rollback] at hends
  | @raise q _ _ _ =>
    obtain rfl : q = p := hl
    simp [ending_set_rollback] at hends
  | @crash q _ =>
    obtain rfl : q = p := hl
    simp [ending_set_rollback] at hends
  | @swallow q job' n r payload error hq =>
    obtain rfl : q = p := hl
    rw [set_procs_self] at hp
    cases hp
    exact Or.inr ⟨n, r, payload, hq, rfl, rfl, Or.inr ⟨error, rfl⟩⟩
  | @run q ext w reply next hr he hn =>
    obtain rfl : q = p := hl
    rw [set_procs_self] at hp
    subst hp
    rcases afterRefresh_run hs he hn hpc with
      ⟨n, r, a, hq, rfl, ha, rfl⟩ | ⟨n, r, payload, hq, rfl, rfl⟩
    · exact Or.inl ⟨ext, n, r, a, rfl, hq, ha, rfl, rfl⟩
    · exact Or.inr ⟨n, r, payload, hq, rfl, rfl, Or.inl ⟨ext, rfl, rfl⟩⟩

theorem ending_step_ne {p : Pid} (h : x.sys.step env l = some s') (hp : p ≠ l.pid) :
    s'.ending p = x.sys.ending p := by
  unfold Sys.ending
  rw [step_writes_ne h hp]

/-- A frame that is about to be published tells of the end that its transaction brings. -/
theorem frame_step (hx : x.Safe env) (h : x.sys.step env l = some s') :
    ∀ p job n r payload, s'.procs p = .batch job (.publish n r payload) → s'.ending p →
      payload.status.isTerminal := by
  intro p job n r payload hp hends
  by_cases hl : p = l.pid
  · rcases afterRefresh_step hx.consistent h hl.symm hp rfl hends with
      ⟨_, n', r', a, _, hq, ha, hsame, hpc⟩ | ⟨_, _, _, _, hpc, _⟩
    · cases hpc
      have hwrote := hx.consistent.wrote p
      rw [hq] at hwrote
      rw [hsame] at hends
      exact finalized_view hwrote hends ha
    · cases hpc
  · rw [step_procs_ne h hl] at hp
    rw [ending_step_ne h hl] at hends
    exact hx.frame p job n r payload hp hends

theorem announced_eq {proc : Proc} (h : proc.announced) :
    ∃ job n r, proc = .batch job (.finalizeCommit (.batchDone n r)) := by
  unfold Proc.announced at h
  split at h
  next job n r => exact ⟨job, n, r, rfl⟩
  next => cases h

theorem announced_step (hx : x.Safe env) (hok : x.Heard env (.sys l))
    (h : x.sys.step env l = some s') :
    ∀ p, (s'.procs p).announced → s'.ending p → x.stream.Informed s'.world := by
  intro p hannounced hends
  by_cases hl : p = l.pid
  · obtain ⟨job, n, r, hp⟩ := announced_eq hannounced
    rcases afterRefresh_step hx.consistent h hl.symm hp rfl hends with
      ⟨_, _, _, _, _, _, _, _, hpc⟩ |
      ⟨n', r', payload, hq, _, hsame, ⟨ext, rfl, hpublished⟩ | ⟨error, rfl⟩⟩
    · cases hpc
    · rw [hsame] at hends
      have hpub : (x.sys.procs p).publishing := by rw [hq]; rfl
      exact EventStream.informed_publish hx.behind ((hok hends).2 hpub)
        (hx.frame p job n' r' payload hq hends) hpublished
    · rw [hsame] at hends
      have hpub : (x.sys.procs p).publishing := by rw [hq]; rfl
      exact fun hconnected => absurd hconnected (hok hends hpub)
  · rw [step_procs_ne h hl] at hannounced
    rw [ending_step_ne h hl] at hends
    obtain ⟨extra, hpublished⟩ := step_published h
    exact EventStream.informed_published (hx.announced p hannounced hends) hpublished

/-- The commit that ends the action comes after its frame. -/
theorem terminal_step (hx : x.Safe env) (hok : x.Heard env (.sys l))
    (h : x.sys.step env l = some s') :
    ∀ st, s'.status = some st → st.isTerminal → x.stream.Informed s'.world := by
  intro st hst ht
  obtain ⟨extra, hpublished⟩ := step_published h
  have kept : x.stream.Informed x.sys.world → x.stream.Informed s'.world :=
    fun hinformed => EventStream.informed_published hinformed hpublished
  rcases step_committed h with ⟨_, hcommitted⟩ | ⟨p, ext, rfl, hcommit, hcommitted⟩
  · rw [Sys.status, hcommitted] at hst
    exact kept (hx.terminal st hst ht)
  · by_cases hbefore : ∃ st, x.sys.status = some st ∧ st.isTerminal
    · obtain ⟨st₀, hst₀, ht₀⟩ := hbefore
      exact kept (hx.terminal st₀ hst₀ ht₀)
    · have hends : x.sys.ending p := by
        by_contra hnot
        obtain ⟨a, ha, rfl⟩ := Option.map_eq_some_iff.mp hst
        rw [hcommitted] at ha
        have hlive : ∀ a, x.sys.world.committed.action = some a →
            a.status.isTerminal = false := by
          intro b hb
          rw [← Bool.not_eq_true]
          exact fun hterminal => hbefore ⟨_, congrArg (Option.map BulkAction.status) hb, hterminal⟩
        rw [replay_not_terminal (Bool.not_eq_true _ ▸ hnot) hlive a ha] at ht
        cases ht
      have hcommits : ((x.sys.procs p).stmt env).commits := by rw [hcommit]; rfl
      rcases (hok hends).1 hcommits with hannounced | hgone
      · exact kept (hx.announced p hannounced hends)
      · exact fun hconnected => absurd hconnected hgone

theorem safe_step {label : StreamLabel} (hx : x.Safe env) (hok : x.Heard env label)
    (h : x.step env label = some x') : x'.Safe env := by
  cases label with
  | sys l =>
    obtain ⟨s', hs, rfl⟩ := Option.map_eq_some_iff.mp h
    have hannounced := announced_step hx hok hs
    have hterminal := terminal_step hx hok hs
    refine ⟨consistent_step hx.consistent hs, ?_, frame_step hx hs, hannounced, hterminal⟩
    intro next hnext
    obtain ⟨extra, hpublished⟩ := step_published hs
    rw [hpublished, List.length_append]
    exact Nat.le_add_right_of_le (hx.behind next hnext)
  | advance =>
    obtain ⟨e, he, rfl⟩ := Option.map_eq_some_iff.mp h
    have kept : x.stream.pc ≠ .getAction → x.stream.Informed x.sys.world → e.Informed x.sys.world :=
      fun hpc hinformed => EventStream.informed_advance hinformed hpc he
    refine ⟨hx.consistent, EventStream.advance_behind hx.behind he, hx.frame, ?_, ?_⟩
    · intro p hannounced hends
      by_cases hpc : x.stream.pc = .getAction
      · exact absurd hends (hok hpc p hannounced)
      · exact kept hpc (hx.announced p hannounced hends)
    · intro st hst ht
      by_cases hpc : x.stream.pc = .getAction
      · obtain ⟨a, ha, rfl⟩ := Option.map_eq_some_iff.mp hst
        have hclosed : e.pc = .closed := by
          simp only [EventStream.advance, hpc, ha, Option.some.injEq] at he
          subst he
          exact if_pos ht
        simp [EventStream.Informed, EventStream.connected, hclosed]
      · exact kept hpc (hx.terminal st hst ht)
  | disconnect =>
    simp only [step] at h
    split at h
    · cases Option.some.inj h
      exact ⟨hx.consistent, by simp, hx.frame,
        by simp [EventStream.Informed, EventStream.connected],
        by simp [EventStream.Informed, EventStream.connected]⟩
    · cases h

end Steps

/-- In every run that the stream hears, it is never stranded. -/
theorem progress_stream_ends {env : Env} {x₀ x : Streaming} (hbegins : x₀.Begins)
    (h : Runs.Reaches (step env) (Heard env) x₀ x) : ¬ x.Stranded env := by
  intro hstranded
  have safe : x.Safe env :=
    h.invariant (fun hy hok hstep => safe_step hy hok hstep) (safe_begins hbegins)
  obtain ⟨st, hst, ht⟩ := hstranded.ended
  obtain ⟨payload, hmem, hterminal⟩ := safe.terminal st hst ht hstranded.connected
  exact hstranded.undelivered payload hmem hterminal

/-- A client that asks for the progress of the action of a platform at rest. -/
def asks (s : Sys) : Streaming := ⟨s, .getAction, []⟩

/-- What a client sees: the status of the action, whether it is still connected, and whether a
terminal frame has been sent or waits for it. -/
def sees (x : Streaming) : Option BulkActionStatus × Bool × Bool × Bool :=
  (x.sys.status, x.stream.connected, x.stream.sent.any Frame.terminal,
    (x.stream.undelivered x.sys.world).any (fun payload => payload.status.isTerminal))

/-- A check that the stream hears a step, once the action has been read. -/
def hears (env : Env) (x : Streaming) : StreamLabel → Bool
  | .advance => x.stream.pc ≠ .getAction
  | .sys (.run p _) => !x.sys.ending p ||
    (!((x.sys.procs p).stmt env).commits || (x.sys.procs p).announced) &&
      x.stream.pc ≠ .subscribe
  | .sys (.raise _ _) => false
  | _ => true

theorem heard_of_hears {env : Env} {x : Streaming} {label : StreamLabel}
    (h : x.hears env label) : x.Heard env label := by
  cases label with
  | advance => exact fun hpc => by simp [hears, hpc] at h
  | disconnect => trivial
  | sys l =>
    cases l with
    | run p ext =>
      intro hends
      simp only [hears, hends, Bool.not_true, Bool.false_or, Bool.and_eq_true, Bool.or_eq_true,
        Bool.not_eq_true', decide_eq_true_eq] at h
      refine ⟨fun hcommits => ?_, fun _ => h.2⟩
      rcases h.1 with hnot | hannounced
      · simp [hcommits] at hnot
      · exact Or.inl hannounced
    | raise p error => cases h
    | _ => trivial

theorem asks_begins {s : Sys} (h : s.AtRest) : (asks s).Begins := ⟨h, rfl⟩

theorem asks_heard {env : Env} {s : Sys} (h : s.AtRest) : (asks s).Heard env .advance := by
  intro _ p hannounced
  simp [asks, h.idle p, Proc.announced] at hannounced

/-- A subscriber is told of the end by the batch that finalises the action. -/
theorem progress_stream_ends_contact :
    ∃ x, Runs.Reaches (step defaultEnv) (Heard defaultEnv)
        (asks (plannedContacts [contactsJob])) x ∧
      x.sees = (some .completed, true, false, true) ∧ ¬ x.Stranded defaultEnv := by
  have hbegins : (asks (plannedContacts [contactsJob])).Begins :=
    asks_begins (Tables.sys_atRest _ _)
  obtain ⟨x₁, hx₁⟩ : ∃ x₁, (asks (plannedContacts [contactsJob])).step defaultEnv .advance =
      some x₁ := ⟨_, rfl⟩
  obtain ⟨x, hx, hsees⟩ : ∃ x, Runs.checkedSteps (step defaultEnv) (hears defaultEnv) x₁
      ([.advance, .sys (.deliver 0 contactsJob)] ++ List.replicate 8 (.sys (.run 0 {})) ++
        [.sys (.run 0 activeContact)] ++ List.replicate 9 (.sys (.run 0 {}))) = some x ∧
      x.sees = (some .completed, true, false, true) := by
    cases Option.some.inj hx₁
    exact Option.map_eq_some_iff.mp (by decide)
  have hr : Runs.Reaches (step defaultEnv) (Heard defaultEnv)
      (asks (plannedContacts [contactsJob])) x :=
    .head ⟨.advance, asks_heard (Tables.sys_atRest _ _), hx₁⟩
      (Runs.reaches_checked (fun hc => heard_of_hears hc) hx)
  exact ⟨x, hr, hsees, progress_stream_ends hbegins hr⟩

/-- Nothing is left to do once the queue is empty and every task and request has returned. -/
theorem silent_of_returned {env : Env} {s : Sys} (hqueue : s.world.queue = [])
    (hreturned : ∀ p, (s.procs p).returned) : Silent env s := by
  have quiet := quiescent_of_returned hqueue hreturned
  intro s' h
  have same : s' = s := by
    refine h.invariant (P := fun t => t = s) ?_ rfl
    rintro t t' l rfl hl ht
    cases step_happens ht with
    | deliver _ hm => simp [hqueue] at hm
    | duplicate _ => cases hl
    | cancel _ => cases hl
    | redeliver hp => exact absurd hp (quiet.settled _ _)
    | run hr _ _ => exact absurd hr (quiet.returned _)
    | fail hr _ _ => exact absurd hr (quiet.returned _)
    | raise hr _ => exact absurd hr (quiet.returned _)
    | crash hr => exact absurd hr (quiet.returned _)
    | swallow hp => exact absurd (by rw [hp]; rfl) (quiet.returned _)
  rw [same]

theorem idle_step {env : Env} {n : Nat} {x x' : Streaming} {label : StreamLabel}
    (hx : ∀ p, n ≤ p → x.sys.procs p = .idle) (hl : label.below n)
    (h : x.step env label = some x') : ∀ p, n ≤ p → x'.sys.procs p = .idle := by
  intro p hp
  cases label with
  | sys l =>
    obtain ⟨s', hs, rfl⟩ := Option.map_eq_some_iff.mp h
    have hpid : l.pid < n := of_decide_eq_true hl
    exact (step_procs_ne hs (Nat.ne_of_gt (Nat.lt_of_lt_of_le hpid hp))).trans (hx p hp)
  | advance =>
    obtain ⟨e, _, rfl⟩ := Option.map_eq_some_iff.mp h
    exact hx p hp
  | disconnect =>
    simp only [step] at h
    split at h
    · cases Option.some.inj h
      exact hx p hp
    · cases h

/-- A client that reads and subscribes before a cancel, which the planner finds. -/
def cancelledBeforePlanning : List StreamLabel :=
  [.advance, .advance, .sys (.cancel 0)] ++ List.replicate 3 (.sys (.run 0 {})) ++
    [.sys (.deliver 1 .plan), .sys (.run 1 {})]

/-- The end that `cancel_bulk_action` brings is never published. -/
theorem progress_stream_stranded :
    ¬ ∀ (env : Env) (x₀ x : Streaming), x₀.Begins → Runs.Reaches (step env) Runs.anyStep x₀ x →
      ¬ x.Stranded env := by
  intro always
  obtain ⟨x, hx, hv⟩ : ∃ x,
      Runs.steps (step defaultEnv) (asks submittedContacts) cancelledBeforePlanning = some x ∧
      (x.sees, x.sys.world.queue, (x.sys.procs 0).returned, (x.sys.procs 1).returned) =
        ((some .cancelled, true, false, false), [], true, true) :=
    Option.map_eq_some_iff.mp (by decide)
  simp only [Prod.mk.injEq] at hv
  obtain ⟨hsees, hqueue, h0, h1⟩ := hv
  have hallowed : Runs.Reaches (step defaultEnv) (fun _ label => label.below 2)
      (asks submittedContacts) x := Runs.reaches_of_allowed (by decide) hx
  have hidle : ∀ p, 2 ≤ p → x.sys.procs p = .idle :=
    hallowed.invariant (P := fun y => ∀ p, 2 ≤ p → y.sys.procs p = .idle)
      (fun hy hl hstep => idle_step hy hl hstep) (fun _ _ => rfl)
  have hreturned : ∀ p, (x.sys.procs p).returned := by
    intro p
    match p with
    | 0 => exact h0
    | 1 => exact h1
    | p + 2 =>
      rw [hidle (p + 2) (Nat.le_add_left 2 p)]
      rfl
  simp only [sees, Prod.mk.injEq] at hsees
  obtain ⟨hstatus, hconnected, hsent, hundelivered⟩ := hsees
  refine always defaultEnv (asks submittedContacts) x (asks_begins (Tables.sys_atRest _ _))
    (Runs.reaches_of_steps hx) ⟨⟨_, hstatus, rfl⟩, silent_of_returned hqueue hreturned, hconnected,
      ?_, ?_⟩
  · exact fun frame hframe => by simpa using List.any_eq_false.mp hsent frame hframe
  · exact fun payload hp => by simpa using List.any_eq_false.mp hundelivered payload hp

end Streaming

end BulkActions
