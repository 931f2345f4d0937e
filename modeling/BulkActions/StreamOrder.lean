import BulkActions.ProgressStream

namespace BulkActions

open ReadCommitted

/-- The frame that a worker has read and not yet published. -/
def Proc.unpublished : Proc → Option ProgressPayload
  | .batch _ (.publish _ _ payload) => some payload
  | _ => none

def Frame.processedCount : Frame → Option Nat
  | .progress payload => some payload.processedCount
  | .done payload => some payload.processedCount
  | .heartbeat => none

/-- The `processed_count` of the action. -/
def Tables.processed (t : Tables) : Nat := (t.action.map BulkAction.processedCount).getD 0

namespace EventStream

def subscribed (e : EventStream) : Bool :=
  match e.pc with
  | .getMessage _ => true
  | _ => false

/-- The values of `processed_count` that the client has received. -/
def received (e : EventStream) : List Nat := e.sent.filterMap Frame.processedCount

/-- Those that it has received, and then those that wait for it. -/
def coming (w : World) (e : EventStream) : List Nat :=
  e.received ++ (e.undelivered w).map ProgressPayload.processedCount

end EventStream

namespace Streaming

/-- Nobody goes ahead of an older frame that a worker has still to publish: not another
worker with a newer one, nor the client with its subscription. -/
def InOrder (x : Streaming) : StreamLabel → Prop
  | .advance => x.stream.pc = .subscribe → ∀ n ∈ x.stream.received, ∀ q older,
      (x.sys.procs q).unpublished = some older → n ≤ older.processedCount
  | .sys (.run p _) => x.stream.subscribed → ∀ payload, (x.sys.procs p).unpublished = some payload →
      ∀ q older, (x.sys.procs q).unpublished = some older →
        payload.processedCount ≤ older.processedCount
  | _ => True

end Streaming

section Counts

theorem processedCount_le_set (u : ActionUpdate) (now : Timestamp) (a : BulkAction) :
    a.processedCount ≤ (u.set now a).processedCount := by
  cases u with
  | recordBatchCompletion processed success failure skipped batchDone => exact Nat.le_add_right _ _
  | _ => exact Nat.le_refl _

/-- No UPDATE takes anything from `processed_count`. -/
theorem processed_le_replay (ws : List Write) (c : Tables) :
    c.processed ≤ (replay Write.apply ws c).processed := by
  induction ws generalizing c with
  | nil => exact Nat.le_refl _
  | cons v ws ih =>
    refine Nat.le_trans ?_ (ih (v.apply c))
    cases v with
    | action u now =>
      cases h : c.action with
      | none => simp [Tables.processed, h]
      | some a => simpa [Tables.processed, Write.apply, h] using processedCount_le_set u now a
    | _ => exact Nat.le_refl _

/-- A delivery that re-reads the action sees what is committed of its progress. -/
theorem refreshed_processed {w : World} {p : Pid} {a : BulkAction}
    (hw : FinalizeWrites (w.db.writes p)) (ha : (w.view p).action = some a) :
    a.processedCount = w.committed.processed := by
  rcases hw with hw | ⟨k, now, hw⟩
  · rw [view_eq_committed hw] at ha
    simp [Tables.processed, ha]
  · simp only [World.view, Store.view, hw, replay_cons, replay_nil, Write.apply] at ha
    obtain ⟨b, hb, rfl⟩ := Option.map_eq_some_iff.mp ha
    have hcommitted : w.committed.action = some b := hb
    simp [Tables.processed, hcommitted, ActionUpdate.set]

end Counts

section Steps

variable {env : Env} {s s' : Sys} {l : Label}

theorem processed_step (h : s.step env l = some s') :
    s.world.committed.processed ≤ s'.world.committed.processed := by
  rcases step_committed h with ⟨_, hc⟩ | ⟨p, _, _, _, hc⟩
  · rw [hc]
  · rw [hc]
    exact processed_le_replay _ _

theorem unpublished_of_stmt {proc : Proc} {payload : ProgressPayload}
    (h : proc.stmt env = .publish payload) : proc.unpublished = some payload := by
  cases proc with
  | batch job pc =>
    cases pc with
    | publish n r payload' =>
      cases h
      rfl
    | writeOutcomes n r | markOutcomes n error =>
      simp only [Proc.stmt, BatchPc.stmt, writeOutcomes] at h
      split at h <;> cases h
    | _ => cases h
  | plan pc =>
    cases pc with
    | enqueueJobs loop rows last => cases rows <;> cases h
    | _ => cases h
  | cancel pc => cases pc <;> cases h
  | _ => cases h

/-- A step publishes nothing or the frame of its worker. -/
theorem publishes_step (h : s.step env l = some s') :
    s'.world.published = s.world.published ∨
      ∃ p ext payload, l = .run p ext ∧ (s.procs p).unpublished = some payload ∧
        s'.world.published = s.world.published ++ [payload] := by
  have run : ∀ {p : Pid} {ext : External} {w : World} {reply : Reply},
      s.world.exec p ext.now ((s.procs p).stmt env) = some (w, reply) →
      w.published = s.world.published ∨
        ∃ q ext' payload, Label.run p ext = .run q ext' ∧ (s.procs q).unpublished = some payload ∧
          w.published = s.world.published ++ [payload] := by
    intro p ext w reply he
    rcases exec_published he with hw | ⟨payload, hst, hw⟩
    · exact Or.inl hw
    · exact Or.inr ⟨p, ext, payload, rfl, unpublished_of_stmt hst, hw⟩
  cases step_happens h with
  | run _ he _ => exact run he
  | fail _ he _ =>
    have hw := run he
    exact hw
  | _ => exact Or.inl rfl

theorem unpublished_handler (proc : Proc) (error : String) :
    (proc.handler env error).unpublished = none := by
  cases proc with
  | batch job pc =>
    rcases handler_batch env error job pc with ⟨h, _⟩ | ⟨_, _, _, h⟩
    · rw [h]
      rfl
    · rw [h]
      rfl
  | plan pc => cases pc <;> rfl
  | _ => rfl

theorem unpublished_killed (proc : Proc) : proc.killed.unpublished = none := by
  cases proc <;> rfl

theorem unpublished_job (job : Job) : job.proc.unpublished = none := by
  cases job <;> rfl

theorem unpublished_eq_some {proc : Proc} {payload : ProgressPayload}
    (h : proc.unpublished = some payload) :
    ∃ job n r, proc = .batch job (.publish n r payload) := by
  unfold Proc.unpublished at h
  split at h
  next job n r payload' =>
    cases Option.some.inj h
    exact ⟨job, n, r, rfl⟩
  next => cases h

/-- A frame that waits to be published has waited before, or has just been read. -/
theorem unpublished_step (hs : Consistent env s) (h : s.step env l = some s') {p : Pid}
    {payload : ProgressPayload} (hp : (s'.procs p).unpublished = some payload) :
    (s.procs p).unpublished = some payload ∨
      payload.processedCount = s.world.committed.processed := by
  by_cases hl : p = l.pid
  · refine Or.inr ?_
    subst hl
    cases step_happens h with
    | deliver _ _ | duplicate _ | redeliver _ => simp [Label.pid, unpublished_job] at hp
    | cancel _ | swallow _ => simp [Label.pid, Proc.unpublished] at hp
    | fail _ _ _ | raise _ _ => simp [Label.pid, unpublished_handler] at hp
    | crash _ => simp [Label.pid, unpublished_killed] at hp
    | @run p ext w reply next _ he hn =>
      simp only [Label.pid, set_procs_self] at hp
      obtain ⟨job, n, r, rfl⟩ := unpublished_eq_some hp
      rcases Streaming.afterRefresh_run hs he hn rfl with
        ⟨n', r', a, hq, _, ha, hpc⟩ | ⟨_, _, _, _, hpc, _⟩
      · cases hpc
        have hwrote := hs.wrote p
        rw [hq] at hwrote
        exact refreshed_processed hwrote ha
      · cases hpc
  · rw [step_procs_ne h hl] at hp
    exact Or.inl hp

end Steps

namespace Streaming

/-- No frame is behind what the client has received, or is yet to receive. -/
structure Ordered (env : Env) (x : Streaming) : Prop where
  consistent : Consistent env x.sys
  behind : ∀ next, x.stream.pc = .getMessage next → next ≤ x.sys.world.published.length
  fresh : x.stream.pc = .getAction → x.stream.received = []
  unpublished : ∀ p payload, (x.sys.procs p).unpublished = some payload →
    payload.processedCount ≤ x.sys.world.committed.processed
  sorted : (x.stream.coming x.sys.world).Pairwise (· ≤ ·)
  bounded : ∀ n ∈ x.stream.coming x.sys.world, n ≤ x.sys.world.committed.processed
  older : x.stream.subscribed → ∀ n ∈ x.stream.coming x.sys.world, ∀ p payload,
    (x.sys.procs p).unpublished = some payload → n ≤ payload.processedCount

theorem ordered_begins {env : Env} {x : Streaming} (h : x.Begins) : x.Ordered env where
  consistent := consistent_atRest h.rest
  behind := by simp [h.stream]
  fresh _ := by simp [h.stream, EventStream.received]
  unpublished := by simp [h.rest.idle, Proc.unpublished]
  sorted := by simp [h.stream, EventStream.coming, EventStream.received, EventStream.undelivered]
  bounded := by simp [h.stream, EventStream.coming, EventStream.received, EventStream.undelivered]
  older := by simp [h.stream, EventStream.subscribed]

section Steps

variable {env : Env} {x x' : Streaming} {s' : Sys} {l : Label}

theorem coming_of_not_subscribed {e : EventStream} (h : ¬ e.subscribed) (w : World) :
    e.coming w = e.received := by
  unfold EventStream.subscribed at h
  split at h
  next => exact absurd rfl h
  next hpc =>
    have hnone : e.undelivered w = [] := by
      unfold EventStream.undelivered
      split
      next next hnext => exact absurd hnext (hpc next)
      next => rfl
    rw [EventStream.coming, hnone, List.map_nil, List.append_nil]

/-- What is published comes to a subscriber, after all that has been published before. -/
theorem coming_published {e : EventStream} {w w' : World} {payload : ProgressPayload}
    (hbehind : ∀ next, e.pc = .getMessage next → next ≤ w.published.length)
    (hsubscribed : e.subscribed) (hw : w'.published = w.published ++ [payload]) :
    e.coming w' = e.coming w ++ [payload.processedCount] := by
  unfold EventStream.subscribed at hsubscribed
  split at hsubscribed
  next next hnext =>
    simp only [EventStream.coming, EventStream.undelivered, hnext, hw]
    rw [List.drop_append_of_le_length (hbehind next hnext), List.map_append, List.append_assoc]
    rfl
  next => cases hsubscribed

theorem coming_step (hx : x.Ordered env) (h : x.sys.step env l = some s') :
    x.stream.coming s'.world = x.stream.coming x.sys.world ∨
      x.stream.subscribed ∧ ∃ p ext payload, l = .run p ext ∧
        (x.sys.procs p).unpublished = some payload ∧
        x.stream.coming s'.world = x.stream.coming x.sys.world ++ [payload.processedCount] := by
  by_cases hsubscribed : x.stream.subscribed
  · rcases publishes_step h with hw | ⟨p, ext, payload, rfl, hp, hw⟩
    · refine Or.inl ?_
      simp only [EventStream.coming, EventStream.undelivered, hw]
    · exact Or.inr ⟨hsubscribed, p, ext, payload, rfl, hp,
        coming_published hx.behind hsubscribed hw⟩
  · rw [coming_of_not_subscribed hsubscribed, coming_of_not_subscribed hsubscribed]
    exact Or.inl rfl

theorem ordered_sys (hx : x.Ordered env) (hok : x.InOrder (.sys l))
    (h : x.sys.step env l = some s') : Ordered env { x with sys := s' } := by
  have hle := processed_step h
  have hbehind : ∀ next, x.stream.pc = .getMessage next → next ≤ s'.world.published.length := by
    intro next hnext
    obtain ⟨extra, hw⟩ := step_published h
    rw [hw, List.length_append]
    exact Nat.le_add_right_of_le (hx.behind next hnext)
  have hunpublished : ∀ p payload, (s'.procs p).unpublished = some payload →
      payload.processedCount ≤ s'.world.committed.processed := by
    intro p payload hp
    rcases unpublished_step hx.consistent h hp with hold | hread
    · exact Nat.le_trans (hx.unpublished p payload hold) hle
    · exact hread ▸ hle
  rcases coming_step hx h with hcoming | ⟨hsubscribed, p, ext, payload, rfl, hp, hcoming⟩
  · refine ⟨consistent_step hx.consistent h, hbehind, hx.fresh, hunpublished, ?_, ?_, ?_⟩
    · exact hcoming ▸ hx.sorted
    · exact fun n hn => Nat.le_trans (hx.bounded n (hcoming ▸ hn)) hle
    · intro hsubscribed n hn q older hq
      rcases unpublished_step hx.consistent h hq with hold | hread
      · exact hx.older hsubscribed n (hcoming ▸ hn) q older hold
      · exact hread ▸ hx.bounded n (hcoming ▸ hn)
  · have hlast := hx.unpublished p payload hp
    refine ⟨consistent_step hx.consistent h, hbehind, hx.fresh, hunpublished, ?_, ?_, ?_⟩
    · show (x.stream.coming s'.world).Pairwise (· ≤ ·)
      rw [hcoming]
      refine List.pairwise_append.mpr ⟨hx.sorted, List.pairwise_singleton _ _, ?_⟩
      intro n hn m hm
      rw [List.mem_singleton.mp hm]
      exact hx.older hsubscribed n hn p payload hp
    · intro n hn
      have hmem : n ∈ x.stream.coming x.sys.world ++ [payload.processedCount] := hcoming ▸ hn
      rcases List.mem_append.mp hmem with hn | hn
      · exact Nat.le_trans (hx.bounded n hn) hle
      · rw [List.mem_singleton.mp hn]
        exact Nat.le_trans hlast hle
    · intro _ n hn q older hq
      have hmem : n ∈ x.stream.coming x.sys.world ++ [payload.processedCount] := hcoming ▸ hn
      rcases unpublished_step hx.consistent h hq with hold | hread
      · rcases List.mem_append.mp hmem with hn | hn
        · exact hx.older hsubscribed n hn q older hold
        · rw [List.mem_singleton.mp hn]
          exact hok hsubscribed payload hp q older hold
      · rw [hread]
        rcases List.mem_append.mp hmem with hn | hn
        · exact hx.bounded n hn
        · exact List.mem_singleton.mp hn ▸ hlast

theorem received_concat (e : EventStream) (pc : StreamPc) (frames : List Frame) :
    EventStream.received ⟨pc, e.sent ++ frames⟩ =
      e.received ++ frames.filterMap Frame.processedCount :=
  List.filterMap_append

/-- The client takes a step that leaves the platform alone. -/
theorem ordered_stream (hx : x.Ordered env) {e : EventStream}
    (hbehind : ∀ next, e.pc = .getMessage next → next ≤ x.sys.world.published.length)
    (hfresh : e.pc ≠ .getAction) (hsorted : (e.coming x.sys.world).Pairwise (· ≤ ·))
    (hbounded : ∀ n ∈ e.coming x.sys.world, n ≤ x.sys.world.committed.processed)
    (holder : e.subscribed → ∀ n ∈ e.coming x.sys.world, ∀ p payload,
      (x.sys.procs p).unpublished = some payload → n ≤ payload.processedCount) :
    Ordered env { x with stream := e } :=
  ⟨hx.consistent, hbehind, fun hpc => absurd hpc hfresh, hx.unpublished, hsorted, hbounded,
    holder⟩

theorem ordered_same (hx : x.Ordered env) {e : EventStream}
    (hbehind : ∀ next, e.pc = .getMessage next → next ≤ x.sys.world.published.length)
    (hfresh : e.pc ≠ .getAction) (hsubscribed : x.stream.subscribed)
    (hcoming : e.coming x.sys.world = x.stream.coming x.sys.world) :
    Ordered env { x with stream := e } :=
  ordered_stream hx hbehind hfresh (hcoming ▸ hx.sorted) (hcoming ▸ hx.bounded)
    (fun _ => hcoming ▸ hx.older hsubscribed)

theorem ordered_unsubscribed (hx : x.Ordered env) {e : EventStream} (hsubscribed : ¬ e.subscribed)
    (hfresh : e.pc ≠ .getAction) (hsorted : e.received.Pairwise (· ≤ ·))
    (hbounded : ∀ n ∈ e.received, n ≤ x.sys.world.committed.processed) :
    Ordered env { x with stream := e } := by
  have hcoming := coming_of_not_subscribed hsubscribed x.sys.world
  refine ordered_stream hx ?_ hfresh (hcoming ▸ hsorted) (hcoming ▸ hbounded)
    (fun h => absurd h hsubscribed)
  intro next hnext
  simp [EventStream.subscribed, hnext] at hsubscribed

theorem coming_eq {e : EventStream} {w : World} {next : Nat} (h : e.pc = .getMessage next) :
    e.coming w =
      e.received ++ (w.published.drop next).map ProgressPayload.processedCount := by
  simp only [EventStream.coming, EventStream.undelivered, h]

/-- The client reads the action, which is as far as anybody knows. -/
theorem ordered_initial (hx : x.Ordered env) (hpc : x.stream.pc = .getAction) {a : BulkAction}
    (ha : x.sys.world.committed.action = some a) {pc : StreamPc}
    (hclosed : pc = .closed ∨ pc = .subscribe) :
    Ordered env { x with
      stream := ⟨pc, x.stream.sent ++ [.progress (progressPayload a)]⟩ } := by
  have hreceived : EventStream.received
      ⟨pc, x.stream.sent ++ [.progress (progressPayload a)]⟩ =
        [x.sys.world.committed.processed] := by
    rw [received_concat, hx.fresh hpc]
    simp [Frame.processedCount, progressPayload, Tables.processed, ha]
  refine ordered_unsubscribed hx ?_ ?_ ?_ ?_
  · rcases hclosed with rfl | rfl <;> simp [EventStream.subscribed]
  · rcases hclosed with rfl | rfl <;> simp
  · simp [hreceived]
  · simp [hreceived]

/-- Nothing that has been published before comes to a client that subscribes. -/
theorem ordered_subscribe (hx : x.Ordered env) (hok : x.InOrder .advance)
    (hpc : x.stream.pc = .subscribe) :
    Ordered env { x with
      stream := { x.stream with pc := .getMessage x.sys.world.published.length } } := by
  have hold := coming_of_not_subscribed (e := x.stream) (by simp [EventStream.subscribed, hpc])
    x.sys.world
  have hnew : EventStream.coming x.sys.world
      { x.stream with pc := .getMessage x.sys.world.published.length } = x.stream.received := by
    rw [coming_eq rfl, List.drop_length, List.map_nil, List.append_nil]
    rfl
  have hbehind : ∀ next, StreamPc.getMessage x.sys.world.published.length = .getMessage next →
      next ≤ x.sys.world.published.length := by
    rintro next ⟨⟩
    exact Nat.le_refl _
  refine ordered_stream hx hbehind (by simp) ?_ ?_ ?_
  · rw [hnew, ← hold]
    exact hx.sorted
  · rw [hnew, ← hold]
    exact hx.bounded
  · rw [hnew]
    exact fun _ => hok hpc

/-- A terminal frame is received twice. -/
theorem ordered_terminal (hx : x.Ordered env) {next : Nat} {payload : ProgressPayload}
    (hpc : x.stream.pc = .getMessage next)
    (hpayload : x.sys.world.published[next]? = some payload) :
    Ordered env { x with
      stream := ⟨.closed, x.stream.sent ++ [.progress payload, .done payload]⟩ } := by
  obtain ⟨hlt, hget⟩ := List.getElem?_eq_some_iff.mp hpayload
  have hsorted := hx.sorted
  have hbounded := hx.bounded
  rw [coming_eq hpc, List.drop_eq_getElem_cons hlt, hget, List.map_cons] at hsorted hbounded
  obtain ⟨hreceived, _, hlast⟩ := List.pairwise_append.mp hsorted
  have htwice : EventStream.received
      ⟨.closed, x.stream.sent ++ [.progress payload, .done payload]⟩ =
        x.stream.received ++ [payload.processedCount, payload.processedCount] :=
    received_concat ..
  refine ordered_unsubscribed hx (by simp [EventStream.subscribed]) (by simp) ?_ ?_
  · rw [htwice]
    refine List.pairwise_append.mpr ⟨hreceived, by simp, ?_⟩
    intro n hn m hm
    have hm : m = payload.processedCount := by simpa using hm
    exact hm ▸ hlast n hn _ List.mem_cons_self
  · rw [htwice]
    intro n hn
    rcases List.mem_append.mp hn with hn | hn
    · exact hbounded n (List.mem_append_left _ hn)
    · have hn : n = payload.processedCount := by simpa using hn
      exact hn ▸ hbounded _ (List.mem_append_right _ List.mem_cons_self)

/-- What a client does next leaves the order of what comes to it as it was. -/
theorem ordered_advance (hx : x.Ordered env) (hok : x.InOrder .advance) {e : EventStream}
    (h : x.stream.advance x.sys.world = some e) : Ordered env { x with stream := e } := by
  have hbehind := EventStream.advance_behind hx.behind h
  unfold EventStream.advance at h
  split at h
  next hpc =>
    split at h
    next =>
      cases Option.some.inj h
      have hnothing : EventStream.received { x.stream with pc := .closed } = [] := hx.fresh hpc
      exact ordered_unsubscribed hx (by simp [EventStream.subscribed]) (by simp)
        (by simp [hnothing]) (by simp [hnothing])
    next a ha =>
      cases Option.some.inj h
      refine ordered_initial hx hpc ha ?_
      split_ifs
      · exact Or.inl rfl
      · exact Or.inr rfl
  next hpc =>
    cases Option.some.inj h
    exact ordered_subscribe hx hok hpc
  next next hpc =>
    have hsubscribed : x.stream.subscribed := by simp [EventStream.subscribed, hpc]
    split at h
    next =>
      cases Option.some.inj h
      refine ordered_same hx hbehind (by simp [hpc]) hsubscribed ?_
      have hheartbeat : EventStream.received
          ⟨x.stream.pc, x.stream.sent ++ [.heartbeat]⟩ = x.stream.received :=
        (received_concat ..).trans (by simp [Frame.processedCount])
      have hcoming : EventStream.coming x.sys.world
          ⟨x.stream.pc, x.stream.sent ++ [.heartbeat]⟩ = _ := coming_eq hpc
      rw [coming_eq hpc, hcoming, hheartbeat]
    next payload hpayload =>
      split at h
      next =>
        cases Option.some.inj h
        exact ordered_terminal hx hpc hpayload
      next =>
        cases Option.some.inj h
        obtain ⟨hlt, hget⟩ := List.getElem?_eq_some_iff.mp hpayload
        refine ordered_same hx hbehind (by simp) hsubscribed ?_
        rw [coming_eq hpc, coming_eq rfl, received_concat, List.drop_eq_getElem_cons hlt, hget]
        simp [Frame.processedCount]
  next => cases h

theorem ordered_step {label : StreamLabel} (hx : x.Ordered env) (hok : x.InOrder label)
    (h : x.step env label = some x') : x'.Ordered env := by
  cases label with
  | sys l =>
    obtain ⟨s', hs, rfl⟩ := Option.map_eq_some_iff.mp h
    exact ordered_sys hx hok hs
  | advance =>
    obtain ⟨e, he, rfl⟩ := Option.map_eq_some_iff.mp h
    exact ordered_advance hx hok he
  | disconnect =>
    simp only [step] at h
    split at h
    · cases Option.some.inj h
      have hreceived : x.stream.received.Sublist (x.stream.coming x.sys.world) :=
        List.sublist_append_left _ _
      exact ordered_unsubscribed hx (by simp [EventStream.subscribed]) (by simp)
        (hx.sorted.sublist hreceived) (fun n hn => hx.bounded n (hreceived.subset hn))
    · cases h

end Steps

/-- As long as nobody goes ahead of an older frame, the progress that a client receives never
goes backwards. -/
theorem received_never_backwards {env : Env} {x₀ x : Streaming} (hbegins : x₀.Begins)
    (h : Runs.Reaches (step env) InOrder x₀ x) : x.stream.received.Pairwise (· ≤ ·) := by
  have ordered : x.Ordered env :=
    h.invariant (fun hy hok hstep => ordered_step hy hok hstep) (ordered_begins hbegins)
  exact ordered.sorted.sublist (List.sublist_append_left _ _)

/-- The action planned as three batches of one contact each, all of them pending. -/
def threeContacts : Sys :=
  Tables.sys
    { action := some { contactsAction .processing with totalEntities := 3, totalBatches := 3 }
      batches := fun i => if i < 3 then some
        { contactsBatch .pending with
          batchIndex := i, cursorStart := some (5 + i), cursorEnd := some (5 + i) } else none
      logs := [] }
    [.batch ⟨0, 0, 1⟩, .batch ⟨1, 0, 1⟩, .batch ⟨2, 0, 1⟩]

/-- Worker `p` executes batch `p`, commits it and re-reads the action. -/
def untilRefreshed (p : Pid) : List StreamLabel :=
  let contact : External :=
    { rows := [⟨5 + p, [("status", .str "active")]⟩], affected := [5 + p] }
  [StreamLabel.sys (.deliver p (.batch ⟨p, 0, 1⟩))] ++
    List.replicate 8 (StreamLabel.sys (.run p {})) ++ [StreamLabel.sys (.run p contact)] ++
    List.replicate 6 (StreamLabel.sys (.run p {}))

/-- The same, among the first `n` workers. -/
def inOrder (n : Nat) (x : Streaming) : StreamLabel → Bool
  | .advance => x.stream.pc ≠ .subscribe || x.stream.received.all (fun count =>
      (List.range n).all (fun q => (x.sys.procs q).unpublished.all (fun older =>
        count ≤ older.processedCount)))
  | .sys (.run p _) => !x.stream.subscribed || (x.sys.procs p).unpublished.all (fun payload =>
      (List.range n).all (fun q => (x.sys.procs q).unpublished.all (fun older =>
        payload.processedCount ≤ older.processedCount)))
  | _ => true

/-- Whoever is idle has no frame to publish. -/
theorem lt_of_unpublished {n : Nat} {x : Streaming} (hx : ∀ p, n ≤ p → x.sys.procs p = .idle)
    {q : Pid} {older : ProgressPayload} (hq : (x.sys.procs q).unpublished = some older) :
    q < n := by
  by_contra hle
  rw [hx q (Nat.le_of_not_lt hle)] at hq
  cases hq

theorem inOrder_of_check {n : Nat} {x : Streaming} {label : StreamLabel}
    (hx : ∀ p, n ≤ p → x.sys.procs p = .idle) (h : x.inOrder n label) : x.InOrder label := by
  cases label with
  | advance =>
    intro hpc count hcount q older hq
    simp only [inOrder, hpc, ne_eq, not_true_eq_false, decide_false, Bool.false_or,
      List.all_eq_true, List.mem_range, Option.all_eq_true, decide_eq_true_eq] at h
    exact h count hcount q (lt_of_unpublished hx hq) older hq
  | disconnect => trivial
  | sys l =>
    cases l with
    | run p ext =>
      intro hsubscribed payload hp q older hq
      simp only [inOrder, hsubscribed, Bool.not_true, Bool.false_or, List.all_eq_true,
        List.mem_range, Option.all_eq_true, decide_eq_true_eq] at h
      exact h payload hp q (lt_of_unpublished hx hq) older hq
    | _ => trivial

/-- Two workers publish in the order in which they have read. -/
theorem received_never_backwards_contacts :
    ∃ x, Runs.Reaches (step defaultEnv) InOrder (asks threeContacts) x ∧
      x.stream.received = [0, 1, 2] ∧ x.stream.received.Pairwise (· ≤ ·) := by
  obtain ⟨x, hx, hreceived⟩ : ∃ x, Runs.checkedSteps (step defaultEnv)
      (fun y label => label.below 2 && y.inOrder 2 label) (asks threeContacts)
      ([.advance, .advance] ++ untilRefreshed 0 ++ untilRefreshed 1 ++
        [.sys (.run 0 {}), .sys (.run 1 {}), .advance, .advance]) = some x ∧
      x.stream.received = [0, 1, 2] :=
    Option.map_eq_some_iff.mp (by decide)
  have hr : Runs.Reaches (step defaultEnv) InOrder (asks threeContacts) x :=
    Runs.reaches_of_checked (P := fun y => ∀ p, 2 ≤ p → y.sys.procs p = .idle)
      (fun hy hc => inOrder_of_check hy (Bool.and_eq_true_iff.mp hc).2)
      (fun hy hc hstep => idle_step hy (Bool.and_eq_true_iff.mp hc).1 hstep) (fun _ _ => rfl) hx
  exact ⟨x, hr, hreceived, received_never_backwards (asks_begins (Tables.sys_atRest _ _)) hr⟩

/-- A worker publishes what it has read before another one has read and published more. -/
theorem received_may_go_backwards :
    ¬ ∀ (env : Env) (x₀ x : Streaming), x₀.Begins → Runs.Reaches (step env) Runs.anyStep x₀ x →
      x.stream.received.Pairwise (· ≤ ·) := by
  intro always
  obtain ⟨x, hx, hreceived⟩ : ∃ x, Runs.steps (step defaultEnv) (asks threeContacts)
      ([.advance, .advance] ++ untilRefreshed 0 ++ untilRefreshed 1 ++
        [.sys (.run 1 {}), .sys (.run 0 {}), .advance, .advance]) = some x ∧
      x.stream.received = [0, 2, 1] :=
    Option.map_eq_some_iff.mp (by decide)
  have hsorted := always defaultEnv (asks threeContacts) x (asks_begins (Tables.sys_atRest _ _))
    (Runs.reaches_of_steps hx)
  rw [hreceived] at hsorted
  exact absurd hsorted (by decide)

end Streaming

end BulkActions
