import BulkActions.OffsetPages
import BulkActions.OneShot
import BulkActions.Requests

namespace BulkActions

open OffsetPages

/-- A page of a listing, without the cursor that only logs have. -/
structure OffsetPage (α : Type) where
  items : List α
  count : ℕ
  hasMore : Bool

/-- `LIMIT limit OFFSET offset` of the rows that a listing selects, and their count. -/
def pageOf {α : Type} (rows : List α) (limit offset : ℕ) : OffsetPage α :=
  let items := page rows offset limit
  ⟨items, rows.length, offset + items.length < rows.length⟩

/-- What a client has received before its `k`-th request. -/
def receivedItems {α : Type} (pages : ℕ → OffsetPage α) (k : ℕ) : List α :=
  (List.range k).flatMap (fun j => (pages j).items)

/-- A client asks for page after page, each time behind the items it has received; its `k`-th
request finds `rows k`. -/
def PageWalk {α : Type} (rows : ℕ → List α) (limits : ℕ → ℕ) (pages : ℕ → OffsetPage α) : Prop :=
  ∀ k, pages k = pageOf (rows k) (limits k) (receivedItems pages k).length

section Walk

variable {α : Type} {rows : ℕ → List α} {limits : ℕ → ℕ} {pages : ℕ → OffsetPage α} {n : ℕ}

theorem receivedItems_eq (h : PageWalk rows limits pages) (n : ℕ) :
    receivedItems pages n = delivered rows limits n :=
  @pages_delivered α rows limits (fun j => (pages j).items)
    (fun k => congrArg OffsetPage.items (h k)) n

/-- A page that announces no more is the last one. -/
theorem length_le_of_last (h : PageWalk rows limits pages) (hlast : (pages n).hasMore = false) :
    (rows n).length ≤ offset rows limits (n + 1) := by
  rw [h n, receivedItems_eq h, length_delivered] at hlast
  exact not_lt.mp (of_decide_eq_false hlast)

/-- The walk of a client over what its requests find. -/
theorem pageWalk_offset (rows : ℕ → List α) (limits : ℕ → ℕ) :
    PageWalk rows limits (fun k => pageOf (rows k) (limits k) (offset rows limits k)) := by
  intro k
  have hlength : (delivered rows limits k).length = offset rows limits k := length_delivered k
  have hreceived : receivedItems (fun k => pageOf (rows k) (limits k) (offset rows limits k)) k =
      delivered rows limits k := rfl
  rw [hreceived, hlength]

end Walk

/-- The filters of `list_bulk_actions`; an empty text is no filter. -/
structure ActionQuery where
  accountId : Option Uuid := none
  status : Option BulkActionStatus := none
  entityType : Option String := none
  actionType : Option String := none

/-- `if value: filters.append(column == value)`. -/
def textFilter (value : Option String) (column : String) : Bool :=
  value.all (fun v => v = "" || column = v)

def ActionQuery.holds (q : ActionQuery) (a : StoredAction) : Bool :=
  q.accountId.all (fun accountId => a.accountId = accountId) &&
    q.status.all (fun status => a.status = status) && textFilter q.entityType a.entityType &&
    textFilter q.actionType a.actionType

/-- What `ORDER BY created_at DESC` can make of the matching rows: it leaves open in which order
those of one time come. -/
structure ActionQuery.Lists (q : ActionQuery) (x : Api) (rows : List StoredAction) : Prop where
  selected : rows.Perm (x.actions.filter q.holds)
  newestFirst : rows.Pairwise (fun a b => b.createdAt ≤ a.createdAt)

/-- A page that `list_bulk_actions` can answer with. -/
def ListBulkActions (x : Api) (q : ActionQuery) (limit offset : ℕ)
    (answer : OffsetPage StoredAction) : Prop :=
  ∃ rows, q.Lists x rows ∧ answer = pageOf rows limit offset

section Actions

variable {env : ApiEnv} {q : ActionQuery} {x x' : Api} {l : ApiLabel}

/-- No step takes an action away, or changes more of it than its status. -/
theorem step_keeps_actions (h : x.step env l = some x') :
    ∀ a ∈ x.actions, ∃ status, { a with status := status } ∈ x'.actions := by
  intro a ha
  cases l with
  | createAccount accountId limit =>
    simp only [Api.step] at h
    split_ifs at h
    cases Option.some.inj h
    exact ⟨a.status, ha⟩
  | updateAccount accountId limit =>
    simp only [Api.step] at h
    split_ifs at h <;> cases Option.some.inj h <;> exact ⟨a.status, ha⟩
  | submit id createdAt now nowMs r =>
    cases Option.some.inj h
    have hanswer := createBulkAction_answered env id createdAt now nowMs r x
    generalize x.createBulkAction env id createdAt now nowMs r = answered at hanswer
    obtain ⟨answer, x'⟩ := answered
    cases hanswer with
    | created _ _ _ _ _ _ => exact ⟨a.status, List.mem_append_left _ ha⟩
    | _ => exact ⟨a.status, ha⟩
  | transition accountId id status =>
    cases Option.some.inj h
    have hset := List.mem_map_of_mem (f := fun a : StoredAction =>
      if a.accountId = accountId ∧ a.id = id then { a with status := status } else a) ha
    split_ifs at hset
    · exact ⟨status, hset⟩
    · exact ⟨a.status, hset⟩

theorem reaches_keeps_actions {ok : Api → ApiLabel → Prop}
    (h : Runs.Reaches (Api.step env) ok x x') :
    ∀ a ∈ x.actions, ∃ status, { a with status := status } ∈ x'.actions := by
  refine h.invariant (P := fun y => ∀ a ∈ x.actions, ∃ status, { a with status := status } ∈
    y.actions) (fun {y y' l} hy _ hstep a ha => ?_) (fun a ha => ⟨a.status, ha⟩)
  obtain ⟨status, hstatus⟩ := hy a ha
  exact step_keeps_actions hstep { a with status := status } hstatus

/-- Without a filter on the status, a listing that is asked for later has the actions of an earlier
one in the same order, with others in between. -/
theorem lists_sublist (hstatus : q.status = none)
    (hkept : ∀ a ∈ x.actions, ∃ status, { a with status := status } ∈ x'.actions)
    (hdistinct : (x.actions.map StoredAction.createdAt).Nodup) {rows rows' : List StoredAction}
    (h : q.Lists x rows) (h' : q.Lists x' rows') :
    (rows.map StoredAction.createdAt).Sublist (rows'.map StoredAction.createdAt) := by
  have hnodup : (rows.map StoredAction.createdAt).Nodup := by
    refine (h.selected.map _).nodup_iff.mpr ?_
    exact hdistinct.sublist (List.filter_sublist.map _)
  have hsubset : rows.map StoredAction.createdAt ⊆ rows'.map StoredAction.createdAt := by
    intro time htime
    obtain ⟨a, ha, rfl⟩ := List.mem_map.mp htime
    obtain ⟨hmem, hholds⟩ := List.mem_filter.mp (h.selected.mem_iff.mp ha)
    obtain ⟨status, hmem'⟩ := hkept a hmem
    have hholds' : q.holds { a with status := status } := by
      rw [ActionQuery.holds, hstatus] at hholds ⊢
      exact hholds
    exact List.mem_map.mpr ⟨_, h'.selected.mem_iff.mpr (List.mem_filter.mpr ⟨hmem', hholds'⟩), rfl⟩
  exact List.sublist_of_subperm_of_sortedGE (List.subperm_of_subset hnodup hsubset)
    (List.pairwise_map.mpr h.newestFirst).sortedGE (List.pairwise_map.mpr h'.newestFirst).sortedGE

/-- When no two actions were created at the same time: whatever is submitted and worked off between
two requests, and however large the pages are, a client that pages through the actions until there
are no more, without asking for a status, has received every one that was there when it began. -/
theorem action_walk_misses_none {states : ℕ → Api} {limits : ℕ → ℕ}
    {pages : ℕ → OffsetPage StoredAction} (hstatus : q.status = none)
    (hruns : ∀ k, Runs.Reaches (Api.step env) Runs.anyStep (states k) (states (k + 1)))
    (hdistinct : ∀ k, ((states k).actions.map StoredAction.createdAt).Nodup)
    (hwalk : ∀ k, ListBulkActions (states k) q (limits k) (receivedItems pages k).length (pages k))
    {n : ℕ} (hlast : (pages n).hasMore = false) {a : StoredAction}
    (ha : a ∈ (states 0).actions) (hq : q.holds a) :
    ∃ row ∈ receivedItems pages (n + 1), row.id = a.id := by
  choose rows hlists hpages using hwalk
  have hwalk : PageWalk rows limits pages := hpages
  have hmem : a.createdAt ∈ (rows 0).map StoredAction.createdAt :=
    List.mem_map_of_mem ((hlists 0).selected.mem_iff.mpr (List.mem_filter.mpr ⟨ha, hq⟩))
  have hend := length_le_of_last hwalk hlast
  rw [← offset_map StoredAction.createdAt, ← List.length_map StoredAction.createdAt] at hend
  have hdelivered := mem_delivered_last (fun k => lists_sublist hstatus
    (reaches_keeps_actions (hruns k)) (hdistinct k) (hlists k) (hlists (k + 1))) hmem hend
  rw [delivered_map, ← receivedItems_eq hwalk] at hdelivered
  obtain ⟨row, hrow, htime⟩ := List.mem_map.mp hdelivered
  refine ⟨row, hrow, ?_⟩
  -- the time tells the actions apart, in the state that the page of the row was read from
  obtain ⟨k, hk⟩ : ∃ k, row ∈ (states k).actions := by
    rw [receivedItems_eq hwalk] at hrow
    obtain ⟨k, _, hpage⟩ := mem_delivered.mp hrow
    have hlisted := (hlists k).selected.mem_iff.mp (mem_of_mem_page hpage)
    exact ⟨k, (List.mem_filter.mp hlisted).1⟩
  have hkept : ∀ k, ∃ status, { a with status := status } ∈ (states k).actions := by
    intro k
    induction k with
    | zero => exact ⟨a.status, ha⟩
    | succ k ih =>
      obtain ⟨status, hstatus⟩ := ih
      exact reaches_keeps_actions (hruns k) { a with status := status } hstatus
  obtain ⟨status, hstored⟩ := hkept k
  have hsame := List.inj_on_of_nodup_map (hdistinct k) hk hstored htime
  rw [hsame]

end Actions

/-- Two actions, and a third one that is submitted after the first page. -/
theorem action_walk_misses_none_submitted :
    ∃ (x x' : Api) (pages : ℕ → OffsetPage StoredAction),
      Runs.Reaches (Api.step strictApi) Runs.anyStep x x' ∧
      (x.actions.map StoredAction.id = [5, 6] ∧ x'.actions.map StoredAction.id = [5, 6, 7]) ∧
      (∀ k, ListBulkActions (if k = 0 then x else x') {} 1 (receivedItems pages k).length
        (pages k)) ∧
      ∀ a ∈ x.actions, ∃ row ∈ receivedItems pages 3, row.id = a.id := by
  let request : BulkActionCreate := ageRequest 1 none unkeyed
  let both (x : Api) : List Uuid × List Timestamp :=
    (x.actions.map StoredAction.id, x.actions.map StoredAction.createdAt)
  have hrun : (Runs.steps (Api.step strictApi) emptyApi [.createAccount 1 hundredPerMinute,
      .submit 5 5 0 0 request, .submit 6 6 0 60000 request]).map (fun x => (both x,
        (Runs.steps (Api.step strictApi) x [.submit 7 7 0 120000 request]).map both)) =
          some (([5, 6], [5, 6]), some ([5, 6, 7], [5, 6, 7])) := by
    decide +kernel
  obtain ⟨x, _, hend⟩ := Option.map_eq_some_iff.mp hrun
  obtain ⟨hfirst, hlater⟩ := Prod.mk.inj hend
  obtain ⟨x', hx', hlater⟩ := Option.map_eq_some_iff.mp hlater
  obtain ⟨hids, htimes⟩ := Prod.mk.inj hfirst
  obtain ⟨hids', htimes'⟩ := Prod.mk.inj hlater
  have hr : Runs.Reaches (Api.step strictApi) Runs.anyStep x x' := Runs.reaches_of_steps hx'
  let states : ℕ → Api := fun k => if k = 0 then x else x'
  let rows : ℕ → List StoredAction := fun k => (states k).actions.reverse
  let pages : ℕ → OffsetPage StoredAction :=
    fun k => pageOf (rows k) 1 (offset rows (fun _ => 1) k)
  have hstates : ∀ k, states k = x ∨ states k = x' := fun k => by
    cases k with
    | zero => exact Or.inl rfl
    | succ k => exact Or.inr rfl
  have hincreasing : ∀ k, ((states k).actions.map StoredAction.createdAt).Pairwise (· < ·) := by
    intro k
    rcases hstates k with hk | hk
    · rw [hk, htimes]
      decide
    · rw [hk, htimes']
      decide
  have hlists : ∀ k, ActionQuery.Lists {} (states k) (rows k) := by
    intro k
    have hall : (states k).actions.filter (ActionQuery.holds {}) = (states k).actions :=
      List.filter_eq_self.mpr (fun _ _ => rfl)
    have hperm : (rows k).Perm ((states k).actions.filter (ActionQuery.holds {})) := by
      rw [hall]
      exact List.reverse_perm _
    refine ⟨hperm, List.pairwise_reverse.mpr ?_⟩
    exact (List.pairwise_map.mp (hincreasing k)).imp Nat.le_of_lt
  have hwalk : ∀ k, ListBulkActions (states k) {} 1 (receivedItems pages k).length (pages k) :=
    fun k => ⟨rows k, hlists k, pageWalk_offset rows (fun _ => 1) k⟩
  have hruns : ∀ k, Runs.Reaches (Api.step strictApi) Runs.anyStep (states k)
      (states (k + 1)) := by
    intro k
    cases k with
    | zero => exact hr
    | succ k => exact .refl
  have hlength : ∀ y : Api, y.actions.reverse.length = (y.actions.map StoredAction.id).length :=
    fun y => by rw [List.length_reverse, List.length_map]
  have hfirst : (rows 0).length = 2 := (hlength x).trans (by rw [hids]; rfl)
  have hnext : ∀ k, (rows (k + 1)).length = 3 := fun k => (hlength x').trans (by rw [hids']; rfl)
  have hlast : (pages 2).hasMore = false := by
    simp [pages, pageOf, offset, length_page, hfirst, hnext]
  refine ⟨x, x', pages, hr, ⟨hids, hids'⟩, hwalk, fun a ha => ?_⟩
  exact action_walk_misses_none rfl hruns (fun k => (hincreasing k).imp Nat.ne_of_lt) hwalk hlast
    ha rfl

/-- The filters of `list_entities`. -/
structure EntityQuery where
  accountId : Option Uuid := none
  status : Option String := none
  includeDeleted : Bool := false

namespace EntityQuery

def holds (sql : Sql) (e : EntityDescriptor) (q : EntityQuery) (r : EntityRecord) : Bool :=
  q.accountId.all (fun accountId => r.accountId = accountId) &&
    q.status.all (fun status => status = "" || "status" ∉ e.columnNames ||
      sql.holds (.compare .eq (.str status)) (r.cols "status")) &&
    (q.includeDeleted || e.softDeleteColumn.all (fun column => r.cols column = .null))

def select (sql : Sql) (e : EntityDescriptor) (q : EntityQuery) (t : EntityTable) :
    List EntityRecord :=
  t.select (q.holds sql e)

/-- The filter of an action that asks for the same rows. -/
def filter (q : EntityQuery) : Filter :=
  match q.status with
  | none => []
  | some status => [("status", .str status)]

end EntityQuery

/-- `list_entities`; the values of a row are the ones a handler would load. -/
def listEntities (sql : Sql) (e : EntityDescriptor) (t : EntityTable) (q : EntityQuery)
    (limit offset : ℕ) : OffsetPage EntityRow :=
  pageOf ((q.select sql e t).map (EntityRecord.toRow e)) limit offset

section Entities

variable {q : EntityQuery} {a : FilterAction} {t : EntityTable} {entityType : EntityType}

theorem status_column : ∀ entityType : EntityType, "status" ∈ (getEntity entityType).columnNames
  | .contact => by decide
  | .company => by decide

theorem filter_predicates {text : PyText} {e : EntityDescriptor} {predicates : List Predicate}
    (h : buildPredicates text e (some q.filter) = .ok predicates) :
    predicates = match q.status with
      | none => []
      | some status => [⟨"status", .compare .eq (.str status)⟩] := by
  obtain ⟨_, _, h⟩ := Checks.bind_eq_ok.mp h
  obtain ⟨groups, hgroups, h⟩ := Checks.bind_eq_ok.mp h
  rw [← Checks.pure_eq_ok.mp h]
  unfold EntityQuery.filter at hgroups
  cases hstatus : q.status with
  | none =>
    rw [hstatus] at hgroups
    cases Checks.pure_eq_ok.mp hgroups
    rfl
  | some status =>
    rw [hstatus] at hgroups
    cases Except.ok.inj hgroups
    rfl

/-- The listing selects what the action does: its live rows with that status. -/
theorem holds_clause (hentity : a.entity = getEntity entityType)
    (haccount : q.accountId = some a.accountId) (hlive : q.includeDeleted = false)
    (hstatus : q.status ≠ some "") (hfilter : a.config.selectionFilters = some q.filter)
    (r : EntityRecord) : q.holds a.sql a.entity r = a.clause.holds a.sql r := by
  have hcompiled := a.compiled
  rw [hfilter] at hcompiled
  obtain ⟨predicates, hpredicates, hclause⟩ := Checks.bind_eq_ok.mp hcompiled
  have hdeleted : a.config.includeDeleted = false := by cases a.config <;> rfl
  rw [← Checks.pure_eq_ok.mp hclause, filter_predicates hpredicates, hdeleted]
  have hcolumn : "status" ∈ a.entity.columnNames := hentity ▸ status_column entityType
  unfold EntityQuery.holds SelectionClause.holds
  rw [haccount, hlive]
  cases hs : q.status with
  | none => simp
  | some status =>
    have hne : status ≠ "" := fun he => hstatus (he ▸ hs)
    simp [hcolumn, hne, Bool.and_assoc, Bool.and_comm, Bool.and_left_comm]

/-- The batches of an action load its target set, one page after the other. -/
theorem loads_target {m : ℕ} (hm : (a.target t).length ≤ m * a.batchSize) :
    (List.range m).flatMap (fun i => a.load t (a.pageRow t i)) =
      (a.target t).map (EntityRecord.toRow a.entity) := by
  have hunchanged : a.Progressed (fun _ => none) t t := List.filterMap_some.symm
  have hload : ∀ i, a.load t (a.pageRow t i) = (a.page t i).map (EntityRecord.toRow a.entity) :=
    fun i => FilterAction.load_pageRow hunchanged (fun _ _ h => absurd rfl h) (fun _ _ => rfl)
  simp only [hload, FilterAction.page, ← Keyset.pageAt_map]
  rw [Keyset.flatMap_pageAt, List.take_of_length_le (by rwa [List.length_map])]

/-- A client that pages through the live entities of an account, of one status or of all, sees the
rows that the batches of an action with this filter load, in their order and with their values, and
their number; it does not matter how the pages are cut, nor the batches. So do the batches of an
action without a deduplication key that runs from here to its end, whatever the order of the
planner's pages, the loads and the commits. -/
theorem listing_previews_action (hentity : a.entity = getEntity entityType)
    (haccount : q.accountId = some a.accountId) (hlive : q.includeDeleted = false)
    (hstatus : q.status ≠ some "") (hfilter : a.config.selectionFilters = some q.filter)
    {limits : ℕ → ℕ} {pages : ℕ → OffsetPage EntityRow}
    (hwalk : ∀ k, pages k =
      listEntities a.sql a.entity t q (limits k) (receivedItems pages k).length)
    {n : ℕ} (hlast : (pages n).hasMore = false) {m : ℕ}
    (hm : (a.target t).length ≤ m * a.batchSize) :
    receivedItems pages (n + 1) = (List.range m).flatMap (fun i => a.load t (a.pageRow t i)) ∧
      (pages n).count = (a.targetIds t).length ∧
      ∀ w : Walk, a.config.activeDedup = none → Walk.Reaches a (.start a t) w → w.Finished →
        receivedItems pages (n + 1) = w.batches.flatMap (fun b => b.phase.rows) ∧
          (pages n).count = w.totalEntities := by
  have hselect : q.select a.sql a.entity t = a.target t :=
    List.filter_congr (fun r _ => holds_clause hentity haccount hlive hstatus hfilter r)
  have hwalk : PageWalk (fun _ => (a.target t).map (EntityRecord.toRow a.entity)) limits pages := by
    intro k
    rw [hwalk k, listEntities, hselect]
  have hreceived : receivedItems pages (n + 1) =
      (a.target t).map (EntityRecord.toRow a.entity) := by
    rw [receivedItems_eq hwalk, delivered_const (length_le_of_last hwalk hlast)]
  have hcount : (pages n).count = (a.target t).length := by
    rw [hwalk n, pageOf, List.length_map]
  refine ⟨?_, ?_, ?_⟩
  · rw [hreceived, loads_target hm]
  · rw [hcount, FilterAction.targetIds, List.length_map]
  · intro w noDedup hreach fin
    obtain ⟨progress, hfollows⟩ := follows_reaches noDedup hreach
    rw [hreceived, hcount, finished_rows hfollows fin, finished_totalEntities hfollows fin]
    exact ⟨rfl, rfl⟩

end Entities

/-- The active contacts of account 1, one to a page, and the run that deactivates them. -/
theorem listing_previews_action_contacts :
    ∃ (pages : ℕ → OffsetPage EntityRow) (w : Walk),
      (∀ k, pages k = listEntities sampleSql contactEntity threeContacts
        { accountId := some 1, status := some "active" } 1 (receivedItems pages k).length) ∧
      Walk.Reaches deactivateOneByOne (.start deactivateOneByOne threeContacts) w ∧ w.Finished ∧
      receivedItems pages 2 = (List.range 2).flatMap (fun i =>
        deactivateOneByOne.load threeContacts (deactivateOneByOne.pageRow threeContacts i)) ∧
      receivedItems pages 2 = w.batches.flatMap (fun b => b.phase.rows) ∧
      (pages 1).count = 2 ∧ w.totalEntities = 2 := by
  have hwalk := pageWalk_offset (fun _ => (EntityQuery.select sampleSql contactEntity
    { accountId := some 1, status := some "active" } threeContacts).map
      (EntityRecord.toRow contactEntity)) (fun _ => 1)
  have hentity : deactivateOneByOne.entity = getEntity .contact := rfl
  obtain ⟨hreceived, hcount, hfinished⟩ := listing_previews_action (n := 1) (m := 2) hentity rfl rfl
    (by simp) rfl hwalk (by decide) (by decide)
  obtain ⟨w, hreach, fin⟩ := contacts_walk
  obtain ⟨hrun, htotal⟩ := hfinished w rfl hreach fin
  exact ⟨_, w, hwalk, hreach, fin, hreceived, hrun, hcount, htotal.symm.trans hcount⟩

end BulkActions
