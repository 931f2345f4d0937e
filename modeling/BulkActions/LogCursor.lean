import BulkActions.Cancellation
import BulkActions.SerialLog

namespace BulkActions

open ReadCommitted SerialLog

/-- The filters of `list_logs`. -/
structure LogFilters where
  status : Option EntityLogStatus := none
  reasonCode : Option String := none
  entityId : Option Uuid := none

/-- The WHERE clauses of the filters; an empty reason code counts as none. -/
def LogFilters.selects (f : LogFilters) (l : BulkActionLog) : Bool :=
  f.status.all (fun s => l.status = s) &&
    f.reasonCode.all (fun r => r = "" || l.reasonCode = some r) &&
    f.entityId.all (fun id => l.entityId = some id)

structure Page where
  items : List BulkActionLog
  count : Nat
  nextCursor : Option String
  hasMore : Bool

/-- `list_logs`, which finds nothing for a missing action. -/
def listLogs (t : Tables) (filters : LogFilters) (cursor : Option Nat) (limit : Nat) :
    Option Page :=
  t.action.map (fun _ =>
    let rows := (fetch BulkActionLog.id filters.selects t.logs cursor).take (limit + 1)
    let hasMore := decide (limit < rows.length)
    let items := rows.take limit
    { items := items
      count := items.length
      nextCursor := if hasMore then items.getLast?.map (fun l => toString l.id) else none
      hasMore := hasMore })

theorem listLogs_eq_some {t : Tables} {filters : LogFilters} {cursor : Option Nat} {limit : Nat}
    {page : Page} (h : listLogs t filters cursor limit = some page) :
    page.items = (fetch BulkActionLog.id filters.selects t.logs cursor).take limit ∧
      (page.hasMore = false ↔
        (fetch BulkActionLog.id filters.selects t.logs cursor).length ≤ limit) := by
  obtain ⟨_, _, rfl⟩ := Option.map_eq_some_iff.mp h
  constructor
  · simp [List.take_take]
  · simp only [List.length_take, decide_eq_false_iff_not]
    omega

/-- The rows that a write inserts into the log table. -/
def Write.logRows : Write → List BulkActionLog
  | .logs rows => rows
  | _ => []

/-- The log table with the rows of the open transactions. -/
def World.serialLog (w : World) : State Pid BulkActionLog where
  committed := w.committed.logs
  opened p := (w.db.writes p).flatMap Write.logRows
  seq := w.logSeq

section Statements

variable {w w' : World} {p : Pid} {now : Timestamp} {st : Stmt} {reply : Reply}

theorem replay_logs (ws : List Write) (t : Tables) :
    (replay Write.apply ws t).logs = t.logs ++ ws.flatMap Write.logRows := by
  induction ws generalizing t with
  | nil => simp
  | cons v ws ih =>
    rw [replay_cons, ih, List.flatMap_cons]
    cases v <;> simp [Write.apply, Write.logRows]

theorem logRows_ids (seq index : Nat) (outcomes : List EntityOutcome) :
    (World.logRows seq index outcomes).map BulkActionLog.id =
      List.range' seq (World.logRows seq index outcomes).length := by
  refine List.ext_getElem (by simp) (fun k _ _ => ?_)
  simp [World.logRows, outcomeLog]

/-- Executing writes opens their log rows. -/
theorem serialLog_wrote {vs : List Write} (hlogs : w'.committed = w.committed)
    (hself : w'.db.writes p = w.db.writes p ++ vs)
    (hne : ∀ q, q ≠ p → w'.db.writes q = w.db.writes q)
    (hseq : w'.logSeq = w.logSeq + (vs.flatMap Write.logRows).length) :
    w'.serialLog = ⟨w.serialLog.committed,
      Function.update w.serialLog.opened p
        (w.serialLog.opened p ++ vs.flatMap Write.logRows),
      w.serialLog.seq + (vs.flatMap Write.logRows).length⟩ := by
  have hopened : w'.serialLog.opened = Function.update w.serialLog.opened p
      (w.serialLog.opened p ++ vs.flatMap Write.logRows) := by
    funext q
    by_cases hq : q = p
    · subst hq
      simp [World.serialLog, hself]
    · simp [World.serialLog, hq, hne q hq]
  rw [← hopened]
  simp [World.serialLog, hlogs, hseq]

/-- Closing a transaction leaves it nothing open. -/
theorem serialLog_closed (hne : ∀ q, q ≠ p → w'.db.writes q = w.db.writes q)
    (hself : w'.db.writes p = []) :
    w'.serialLog.opened = Function.update w.serialLog.opened p [] := by
  funext q
  by_cases hq : q = p
  · subst hq
    simp [World.serialLog, hself]
  · simp [World.serialLog, hq, hne q hq]

/-- A statement that is no commit adds writes, whose log rows take the next numbers. -/
theorem exec_wrote (h : w.exec p now st = some (w', reply)) (hst : st ≠ .commit) :
    ∃ vs, w'.db.writes p = w.db.writes p ++ vs ∧
      w'.logSeq = w.logSeq + (vs.flatMap Write.logRows).length ∧
      (vs.flatMap Write.logRows).map BulkActionLog.id =
        List.range' w.logSeq (vs.flatMap Write.logRows).length := by
  cases st with
  | commit => exact absurd rfl hst
  | updateAction u =>
    rcases exec_updateAction h with ⟨_, rfl, _⟩ | ⟨_, _, _, _, rfl, _⟩
    · exact ⟨[], by simp, by simp, by simp⟩
    · exact ⟨[.action u now], write_writes_self w p _, by simp [Write.logRows, World.write],
        by simp [Write.logRows]⟩
  | updateBatch i u =>
    rcases exec_updateBatch h with ⟨_, rfl⟩ | ⟨_, _, _, _, rfl⟩
    · exact ⟨[], by simp, by simp, by simp⟩
    · exact ⟨[.batch i u now], write_writes_self w p _, by simp [Write.logRows, World.write],
        by simp [Write.logRows]⟩
  | insertBatches rows =>
    obtain ⟨fresh, _, _, rfl⟩ := exec_insertBatches h
    have hrows : (fresh.map Write.insertBatch).flatMap Write.logRows = [] := by
      simp [List.flatMap_map, Write.logRows]
    have hseq : (w.insertAll p fresh).logSeq = w.logSeq :=
      insertAll_proj (f := World.logSeq) (fun _ _ => rfl) w fresh
    exact ⟨_, insertAll_writes_self w p fresh, by simp [hrows, hseq], by simp [hrows]⟩
  | insertLogs i outcomes =>
    cases Option.some.inj h
    have hrows : [Write.logs (World.logRows w.logSeq i outcomes)].flatMap Write.logRows =
        World.logRows w.logSeq i outcomes := by simp [Write.logRows]
    refine ⟨_, write_writes_self w p _, ?_, ?_⟩
    · rw [hrows]
      simp [World.logRows]
    · rw [hrows]
      exact logRows_ids _ _ _
  | _ =>
    cases Option.some.inj h
    exact ⟨[], by simp, by simp, by simp⟩

/-- A statement is a step of the log. -/
theorem exec_serialLog (h : w.exec p now st = some (w', reply)) :
    Step BulkActionLog.id w.serialLog w'.serialLog := by
  have hne : ∀ q, q ≠ p → w'.db.writes q = w.db.writes q := fun q hq => exec_writes_ne h hq
  rcases exec_committed h with ⟨hcommitted, hst⟩ | ⟨rfl, hcommitted⟩
  · obtain ⟨vs, hself, hseq, hids⟩ := exec_wrote h hst
    rw [serialLog_wrote hcommitted hself hne hseq]
    exact .insert p _ hids
  · have hlogs : w'.committed.logs = w.committed.logs ++ w.serialLog.opened p := by
      rw [hcommitted, replay_logs]
      rfl
    have hself : w'.db.writes p = [] := exec_commit_writes h
    have hseq : w'.logSeq = w.logSeq := by rw [exec_commit h]
    have heq : w'.serialLog = ⟨w.serialLog.committed ++ w.serialLog.opened p,
        Function.update w.serialLog.opened p [], w.serialLog.seq⟩ := by
      rw [← serialLog_closed hne hself]
      simp [World.serialLog, hlogs, hseq]
    rw [heq]
    exact .commit p

theorem rollback_serialLog (w : World) (p : Pid) :
    Step BulkActionLog.id w.serialLog (w.rollback p).serialLog := by
  have hopened : (w.rollback p).serialLog.opened = Function.update w.serialLog.opened p [] :=
    serialLog_closed (fun _ hq => Store.rollback_writes_ne hq) Store.rollback_writes_self
  have heq : (w.rollback p).serialLog =
      ⟨w.serialLog.committed, Function.update w.serialLog.opened p [], w.serialLog.seq⟩ := by
    rw [← hopened]
    rfl
  rw [heq]
  exact .rollback p

end Statements

/-- Steps of the platform keep the numbers of the log apart. -/
theorem serial_sys_step {env : Env} {s s' : Sys} {l : Label}
    (hs : Serial BulkActionLog.id s.world.serialLog) (h : s.step env l = some s') :
    Serial BulkActionLog.id s'.world.serialLog := by
  cases step_happens h with
  | run _ he _ => exact serial_step hs (exec_serialLog he)
  | @fail p _ w _ _ _ he _ =>
    have hw := serial_step hs (exec_serialLog he)
    exact serial_step hw (rollback_serialLog w p)
  | @raise p _ _ _ => exact serial_step hs (rollback_serialLog s.world p)
  | @crash p _ => exact serial_step hs (rollback_serialLog s.world p)
  | _ => exact hs

/-- Log rows become visible only at the commit of the transaction that inserted them. -/
theorem step_logs {env : Env} {s s' : Sys} {l : Label} (h : s.step env l = some s') :
    ((∀ p ext, l = .run p ext → (s.procs p).stmt env ≠ .commit) ∧
        s'.world.committed.logs = s.world.committed.logs) ∨
      ∃ p ext, l = .run p ext ∧ (s.procs p).stmt env = .commit ∧
        s'.world.committed.logs =
          s.world.committed.logs ++ (s.world.db.writes p).flatMap Write.logRows := by
  rcases step_committed h with ⟨hst, hc⟩ | ⟨p, ext, rfl, hst, hc⟩
  · exact Or.inl ⟨hst, congrArg Tables.logs hc⟩
  · refine Or.inr ⟨p, ext, rfl, hst, ?_⟩
    rw [hc, replay_logs]

/-- The platform next to a client that follows the logs of the action. -/
structure Following where
  sys : Sys
  client : Reader BulkActionLog

inductive FollowLabel where
  | sys (l : Label)
  /-- the logs of other actions take numbers from the sequence -/
  | allot (n : Nat)
  /-- the client asks for a page, with the last id it has seen as cursor -/
  | page (limit : Nat)

namespace Following

def step (env : Env) (filters : LogFilters) (x : Following) : FollowLabel → Option Following
  | .sys l => (x.sys.step env l).map (fun s => { x with sys := s })
  | .allot n => some { x with sys :=
      { x.sys with world := { x.sys.world with logSeq := x.sys.world.logSeq + n } } }
  | .page limit =>
    (listLogs x.sys.world.committed filters x.client.cursor limit).map (fun page =>
      { x with client := x.client.receive BulkActionLog.id page.items })

/-- No transaction commits selected log rows that the cursor of the client has passed. -/
def Uncrossed (env : Env) (filters : LogFilters) (x : Following) : FollowLabel → Prop
  | .sys (.run p _) => (x.sys.procs p).stmt env = .commit →
    ∀ l ∈ (x.sys.world.db.writes p).flatMap Write.logRows, filters.selects l →
      ahead BulkActionLog.id x.client.cursor l
  | _ => True

/-- A client that begins to follow the logs. -/
structure Begins (x : Following) : Prop where
  serial : Serial BulkActionLog.id x.sys.world.serialLog
  client : x.client = ⟨none, []⟩

/-- The numbers of the log are apart and the client has missed nothing. -/
structure Safe (filters : LogFilters) (x : Following) : Prop where
  serial : Serial BulkActionLog.id x.sys.world.serialLog
  complete : x.client.Complete BulkActionLog.id filters.selects x.sys.world.committed.logs

theorem safe_begins {filters : LogFilters} {x : Following} (h : x.Begins) : x.Safe filters where
  serial := h.serial
  complete := by
    intro l _ _
    simp [h.client, ahead]

theorem safe_step {env : Env} {filters : LogFilters} {x x' : Following} {l : FollowLabel}
    (hx : x.Safe filters) (hok : Uncrossed env filters x l) (h : x.step env filters l = some x') :
    x'.Safe filters := by
  cases l with
  | sys l =>
    obtain ⟨s', hs, rfl⟩ := Option.map_eq_some_iff.mp h
    refine ⟨serial_sys_step hx.serial hs, ?_⟩
    rcases step_logs hs with ⟨_, hlogs⟩ | ⟨p, ext, rfl, hst, hlogs⟩
    · exact hlogs ▸ hx.complete
    · dsimp only
      rw [hlogs]
      exact complete_append hx.complete (hok hst)
  | allot n =>
    cases Option.some.inj h
    exact ⟨serial_step hx.serial (.allot n), hx.complete⟩
  | page limit =>
    obtain ⟨page, hpage, rfl⟩ := Option.map_eq_some_iff.mp h
    refine ⟨hx.serial, ?_⟩
    dsimp only
    rw [(listLogs_eq_some hpage).1]
    exact complete_receive (hx.serial.nodup_committed 0) hx.complete limit

/-- A selected row that the client has passed without receiving it. -/
def Missed (filters : LogFilters) (x : Following) (l : BulkActionLog) : Prop :=
  x.client.Missed BulkActionLog.id filters.selects x.sys.world.committed.logs l

/-- A row once missed is never returned. -/
theorem missed_step {env : Env} {filters : LogFilters} {x x' : Following} {label : FollowLabel}
    {l : BulkActionLog} (hx : x.Missed filters l) (h : x.step env filters label = some x') :
    x'.Missed filters l := by
  cases label with
  | sys label =>
    obtain ⟨s', hs, rfl⟩ := Option.map_eq_some_iff.mp h
    rcases step_logs hs with ⟨_, hlogs⟩ | ⟨p, ext, rfl, _, hlogs⟩
    · unfold Missed
      dsimp only
      rw [hlogs]
      exact hx
    · unfold Missed
      dsimp only
      rw [hlogs]
      exact missed_append hx _
  | allot n =>
    cases Option.some.inj h
    exact hx
  | page limit =>
    obtain ⟨page, hpage, rfl⟩ := Option.map_eq_some_iff.mp h
    unfold Missed
    dsimp only
    rw [(listLogs_eq_some hpage).1]
    exact missed_receive hx limit

/-- The client has received nothing but rows of the log. -/
structure Tracks (x : Following) : Prop where
  serial : Serial BulkActionLog.id x.sys.world.serialLog
  received : ∀ l ∈ x.client.returned, l ∈ x.sys.world.committed.logs

theorem tracks_step {env : Env} {filters : LogFilters} {x x' : Following} {label : FollowLabel}
    (hx : x.Tracks) (h : x.step env filters label = some x') : x'.Tracks := by
  cases label with
  | sys label =>
    obtain ⟨s', hs, rfl⟩ := Option.map_eq_some_iff.mp h
    refine ⟨serial_sys_step hx.serial hs, fun l hl => ?_⟩
    have hlog := hx.received l hl
    rcases step_logs hs with ⟨_, hlogs⟩ | ⟨p, ext, rfl, _, hlogs⟩
    · exact hlogs ▸ hlog
    · exact hlogs ▸ List.mem_append_left _ hlog
  | allot n =>
    cases Option.some.inj h
    exact ⟨serial_step hx.serial (.allot n), hx.received⟩
  | page limit =>
    obtain ⟨page, hpage, rfl⟩ := Option.map_eq_some_iff.mp h
    refine ⟨hx.serial, fun l hl => ?_⟩
    rcases List.mem_append.mp hl with hl | hl
    · exact hx.received l hl
    · rw [(listLogs_eq_some hpage).1] at hl
      exact (mem_fetch.mp (List.mem_of_mem_take hl)).1

/-- A commit behind the cursor loses the rows for good. -/
theorem crossed_commit_missed {env : Env} {filters : LogFilters} {x₀ x x' x'' : Following}
    (hbegins : x₀.Begins) (h : Runs.Reaches (step env filters) Runs.anyStep x₀ x) {p : Pid}
    {ext : External} (hcommit : (x.sys.procs p).stmt env = .commit)
    (hstep : x.step env filters (.sys (.run p ext)) = some x') {l : BulkActionLog}
    (hl : l ∈ (x.sys.world.db.writes p).flatMap Write.logRows) (hselects : filters.selects l)
    (hpassed : ahead BulkActionLog.id x.client.cursor l = false)
    (h' : Runs.Reaches (step env filters) Runs.anyStep x' x'') : x''.Missed filters l := by
  have tracks : x.Tracks :=
    h.invariant (fun hy _ hy' => tracks_step hy hy')
      ⟨hbegins.serial, by simp [hbegins.client]⟩
  have hunread : l ∉ x.client.returned := by
    intro hreturned
    have hnodup := tracks.serial.nodup p
    rw [List.map_append, List.nodup_append] at hnodup
    exact hnodup.2.2 _ (List.mem_map_of_mem (tracks.received l hreturned)) _
      (List.mem_map_of_mem hl) rfl
  obtain ⟨s', hs, rfl⟩ := Option.map_eq_some_iff.mp hstep
  refine h'.invariant (fun hy _ hy' => missed_step hy hy') ?_
  rcases step_logs hs with ⟨hne, _⟩ | ⟨q, ext', heq, _, hlogs⟩
  · exact absurd hcommit (hne p ext rfl)
  · cases heq
    refine ⟨?_, hselects, hpassed, hunread⟩
    dsimp only
    rw [hlogs]
    exact List.mem_append_right _ hl

/-- When a page returns `has_more = False`, the client has received every selected row that is
committed, in every run without a commit that its cursor has passed. -/
theorem followed_logs_complete {env : Env} {filters : LogFilters} {x₀ x : Following}
    (hbegins : x₀.Begins)
    (h : Runs.Reaches (step env filters) (Uncrossed env filters) x₀ x) {limit : Nat} {page : Page}
    (hpage : listLogs x.sys.world.committed filters x.client.cursor limit = some page)
    (hmore : page.hasMore = false) :
    ∀ l ∈ x.sys.world.committed.logs, filters.selects l →
      l ∈ x.client.returned ++ page.items := by
  have safe : x.Safe filters :=
    h.invariant (fun hy hok hstep => safe_step hy hok hstep) (safe_begins hbegins)
  obtain ⟨hitems, hlast⟩ := listLogs_eq_some hpage
  rw [hitems]
  exact complete_last safe.complete (hlast.mp hmore)

/-- A client of the two batches of `twoBatches`. -/
def twoWriters : Following := ⟨twoBatches, ⟨none, []⟩⟩

theorem twoWriters_begins : twoWriters.Begins where
  serial := by
    refine ⟨fun l hl => ?_, fun p l hl => ?_, fun p => ?_, fun p q l hl => ?_⟩
    · cases hl
    · cases hl
    · exact List.nodup_nil
    · cases hl
  client := rfl

/-- A worker takes a batch and goes as far as its log rows. -/
def upToLogs (p : Pid) (i : Nat) : List FollowLabel :=
  .sys (.deliver p (.batch ⟨i, 0, 1⟩)) :: List.replicate 8 (.sys (.run p {})) ++
    [.sys (.run p { rows := [⟨i + 5, [("status", .str "active")]⟩], affected := [i + 5] }),
      .sys (.run p {})]

/-- It goes on and commits its work. -/
def workCommitted (p : Pid) : List FollowLabel := List.replicate 3 (.sys (.run p {}))

/-- What a client sees of the log: the ids that are committed, those it has been given, and those
of its next page of ten, with what the page says about more. -/
def sees (x : Following) : List Nat × List Nat × Option (List Nat × Bool) :=
  (x.sys.world.committed.logs.map BulkActionLog.id, x.client.returned.map BulkActionLog.id,
    (listLogs x.sys.world.committed {} x.client.cursor 10).map (fun page =>
      (page.items.map BulkActionLog.id, page.hasMore)))

/-- No worker has open log rows that the cursor has passed. -/
def uncrossed (x : Following) : FollowLabel → Bool
  | .sys (.run p _) => ((x.sys.world.db.writes p).flatMap Write.logRows).all
      (ahead BulkActionLog.id x.client.cursor)
  | _ => true

theorem uncrossed_allowed {env : Env} {filters : LogFilters} {x : Following} {l : FollowLabel}
    (h : uncrossed x l) : Uncrossed env filters x l := by
  cases l with
  | sys label =>
    cases label with
    | run p ext => exact fun _ l hl _ => List.all_eq_true.mp h l hl
    | _ => trivial
  | _ => trivial

/-- Both workers insert their rows before the first commits; the client asks for a page then, and
for another one after the second. -/
theorem followed_logs_complete_one :
    ∃ x page, Runs.Reaches (step defaultEnv {}) (Uncrossed defaultEnv {}) twoWriters x ∧
      x.sees = ([1, 2], [1], some ([2], false)) ∧
      listLogs x.sys.world.committed {} x.client.cursor 10 = some page ∧
      ∀ l ∈ x.sys.world.committed.logs, LogFilters.selects {} l →
        l ∈ x.client.returned ++ page.items := by
  let labels : List FollowLabel :=
    upToLogs 0 0 ++ upToLogs 1 1 ++ workCommitted 0 ++ [.page 10] ++ workCommitted 1
  have hrun : (Runs.checkedSteps (step defaultEnv {}) uncrossed twoWriters labels).map sees =
      some ([1, 2], [1], some ([2], false)) := by decide
  obtain ⟨x, hx, hsees⟩ := Option.map_eq_some_iff.mp hrun
  have hr : Runs.Reaches (step defaultEnv {}) (Uncrossed defaultEnv {}) twoWriters x :=
    Runs.reaches_checked (fun hc => uncrossed_allowed hc) hx
  obtain ⟨page, hpage, hitems⟩ := Option.map_eq_some_iff.mp (congrArg (fun y => y.2.2) hsees)
  exact ⟨x, page, hr, hsees, hpage,
    followed_logs_complete twoWriters_begins hr hpage (congrArg Prod.snd hitems)⟩

/-- The second worker inserts after the first and commits before it. -/
def overtaken : List FollowLabel :=
  upToLogs 0 0 ++ upToLogs 1 1 ++ workCommitted 1 ++ [.page 10] ++ workCommitted 0

/-- The row with the smaller number is committed behind the cursor. -/
theorem followed_logs_incomplete :
    ¬ ∀ (env : Env) (filters : LogFilters) (x₀ x : Following) (limit : Nat) (page : Page),
      x₀.Begins → Runs.Reaches (step env filters) Runs.anyStep x₀ x →
      listLogs x.sys.world.committed filters x.client.cursor limit = some page →
      page.hasMore = false → ∀ l ∈ x.sys.world.committed.logs, filters.selects l →
        l ∈ x.client.returned ++ page.items := by
  intro always
  obtain ⟨x, hx, hsees⟩ : ∃ x, Runs.steps (step defaultEnv {}) twoWriters overtaken = some x ∧
      x.sees = ([2, 1], [2], some ([], false)) := by
    have hd : (Runs.steps (step defaultEnv {}) twoWriters overtaken).map sees =
        some ([2, 1], [2], some ([], false)) := by decide
    exact Option.map_eq_some_iff.mp hd
  obtain ⟨page, hpage, hitems⟩ := Option.map_eq_some_iff.mp (congrArg (fun y => y.2.2) hsees)
  have hlogs : x.sys.world.committed.logs.map BulkActionLog.id = [2, 1] := congrArg Prod.fst hsees
  have hgiven : x.client.returned.map BulkActionLog.id = [2] := congrArg (fun y => y.2.1) hsees
  have hlast : page.items.map BulkActionLog.id = [] := congrArg Prod.fst hitems
  have hids : 1 ∈ x.sys.world.committed.logs.map BulkActionLog.id := hlogs ▸ by decide
  obtain ⟨l, hl, hid⟩ := List.mem_map.mp hids
  have hmem := always defaultEnv {} twoWriters x 10 page twoWriters_begins
    (Runs.reaches_of_steps hx) hpage (congrArg Prod.snd hitems) l hl rfl
  have hone : l.id ∈ (x.client.returned ++ page.items).map BulkActionLog.id :=
    List.mem_map_of_mem hmem
  rw [hid, List.map_append, hgiven, hlast] at hone
  exact absurd hone (by decide)

end Following

end BulkActions
