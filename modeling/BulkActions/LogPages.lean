import BulkActions.LogCursor
import Mathlib

-- Only the whole library brings in `Nat.toNat?_repr`, which reads a cursor back.

namespace BulkActions

open SerialLog

/-- A row of `bulk_action_logs`, with the action it belongs to. -/
structure LoggedRow where
  bulkActionId : Uuid
  log : BulkActionLog

/-- The log table of all actions. -/
structure LogTable where
  rows : List LoggedRow
  primary : (rows.map (fun r => r.log.id)).Nodup

namespace LogTable

/-- The log rows of an action. -/
def ofAction (t : LogTable) (actionId : Uuid) : List BulkActionLog :=
  (t.rows.filter (fun r => r.bulkActionId = actionId)).map LoggedRow.log

section Walk

variable (t : LogTable) (actions : Uuid → Option BulkAction) (actionId : Uuid)
  (filters : LogFilters) (limits : ℕ → ℕ)

/-- `list_logs` of one of the actions. -/
def listLogs (cursor : Option Nat) (limit : Nat) : Option Page :=
  BulkActions.listLogs ⟨actions actionId, fun _ => none, t.ofAction actionId⟩ filters cursor limit

/-- The pages of a client that begins without a cursor and goes on as long as it is given one. -/
def page : ℕ → Option Page
  | 0 => t.listLogs actions actionId filters none (limits 0)
  | k + 1 =>
    (page k).bind (fun p => p.nextCursor.bind (fun next => next.toNat?.bind (fun cursor =>
      t.listLogs actions actionId filters (some cursor) (limits (k + 1)))))

/-- The items of the first `n` pages. -/
def delivered (n : ℕ) : List BulkActionLog :=
  (List.range n).flatMap (fun k => (t.page actions actionId filters limits k).elim [] Page.items)

/-- The walk ends with the `n`-th page, and its items are those of the unpaged query. -/
structure EqualsUnpaged (n : ℕ) : Prop where
  pages : ∀ k ≤ n, (t.page actions actionId filters limits k).isSome
  last : (t.page actions actionId filters limits n).bind Page.nextCursor = none
  increasing :
    (t.delivered actions actionId filters limits (n + 1)).Pairwise (fun l l' => l.id < l'.id)
  exactly : ∀ l, l ∈ t.delivered actions actionId filters limits (n + 1) ↔
    l ∈ t.ofAction actionId ∧ filters.selects l
  more : ∀ k p, t.page actions actionId filters limits k = some p →
    (p.hasMore ↔ ∃ l ∈ t.ofAction actionId, filters.selects l ∧
      ∀ l' ∈ t.delivered actions actionId filters limits (k + 1), l'.id < l.id)

end Walk

end LogTable

/-- The page of the first rows. -/
def firstPage (rows : List BulkActionLog) (limit : Nat) : Page where
  items := rows.take limit
  count := (rows.take limit).length
  nextCursor :=
    if limit < rows.length then (rows.take limit).getLast?.map (fun l => toString l.id) else none
  hasMore := decide (limit < rows.length)

/-- Fetching one row more and truncating is taking the first page of all rows. -/
theorem listLogs_firstPage (t : Tables) (filters : LogFilters) (cursor : Option Nat)
    (limit : Nat) :
    listLogs t filters cursor limit =
      t.action.map (fun _ =>
        firstPage (fetch BulkActionLog.id filters.selects t.logs cursor) limit) := by
  simp [listLogs, firstPage, List.take_take]

/-- The rows before the `k`-th page. -/
def skipped (limits : ℕ → ℕ) : ℕ → ℕ
  | 0 => 0
  | k + 1 => skipped limits k + limits k

theorem le_skipped {limits : ℕ → ℕ} (hlimits : ∀ k, 1 ≤ limits k) (k : ℕ) :
    k ≤ skipped limits k := by
  induction k with
  | zero => exact Nat.zero_le _
  | succ k ih => exact Nat.add_le_add ih (hlimits k)

namespace LogTable

variable {t : LogTable} {actions : Uuid → Option BulkAction} {actionId : Uuid}
  {filters : LogFilters} {limits : ℕ → ℕ} {action : BulkAction}

theorem nodup_ofAction (t : LogTable) (actionId : Uuid) :
    ((t.ofAction actionId).map BulkActionLog.id).Nodup := by
  rw [ofAction, List.map_map]
  exact t.primary.sublist (List.filter_sublist.map _)

/-- The unpaged query. -/
def unpaged (t : LogTable) (actionId : Uuid) (filters : LogFilters) : List BulkActionLog :=
  fetch BulkActionLog.id filters.selects (t.ofAction actionId) none

theorem unpaged_increasing : Keyset.Increasing BulkActionLog.id (t.unpaged actionId filters) :=
  fetch_increasing (nodup_ofAction t actionId) none

theorem mem_unpaged {l : BulkActionLog} :
    l ∈ t.unpaged actionId filters ↔ l ∈ t.ofAction actionId ∧ filters.selects l := by
  rw [unpaged, mem_fetch]
  simp [ahead]

theorem listLogs_eq (hexists : actions actionId = some action) (cursor : Option Nat)
    (limit : Nat) :
    t.listLogs actions actionId filters cursor limit =
      some (firstPage (fetch BulkActionLog.id filters.selects (t.ofAction actionId) cursor)
        limit) := by
  rw [listLogs, listLogs_firstPage, hexists]
  rfl

/-- The step of the walk: the cursor of a page leads to the rows behind it, if there are any. -/
theorem listLogs_next (hexists : actions actionId = some action) (hlimits : ∀ k, 1 ≤ limits k)
    (k limit : ℕ) :
    ((firstPage ((t.unpaged actionId filters).drop (skipped limits k)) (limits k)).nextCursor.bind
      (fun next => next.toNat?.bind (fun cursor =>
        t.listLogs actions actionId filters (some cursor) limit))) =
      if skipped limits (k + 1) < (t.unpaged actionId filters).length then
        some (firstPage ((t.unpaged actionId filters).drop (skipped limits (k + 1))) limit)
      else none := by
  have hlimit := hlimits k
  have hmore : limits k < ((t.unpaged actionId filters).drop (skipped limits k)).length ↔
      skipped limits (k + 1) < (t.unpaged actionId filters).length := by
    rw [List.length_drop, skipped]
    omega
  rw [firstPage]
  dsimp only
  by_cases hbehind : skipped limits (k + 1) < (t.unpaged actionId filters).length
  · rw [if_pos (hmore.mpr hbehind), if_pos hbehind]
    have hsplit := List.take_append_drop (skipped limits (k + 1)) (t.unpaged actionId filters)
    cases hlast : (((t.unpaged actionId filters).drop (skipped limits k)).take
        (limits k)).getLast? with
    | none =>
      rw [List.getLast?_eq_none_iff, ← List.length_eq_zero_iff, List.length_take] at hlast
      have hlength := hmore.mpr hbehind
      omega
    | some last =>
      have htaken : ((t.unpaged actionId filters).take (skipped limits (k + 1))).getLast? =
          some last := by
        rw [skipped, List.take_add, List.getLast?_append, hlast]
        rfl
      have hcursor : (toString last.id).toNat? = some last.id := Nat.toNat?_repr last.id
      rw [Option.map_some, Option.bind_some, hcursor, Option.bind_some, listLogs_eq hexists,
        fetch_behind (nodup_ofAction t actionId) hsplit.symm htaken]
  · rw [if_neg (mt hmore.mp hbehind), if_neg hbehind]
    rfl

/-- The run lemma: the `k`-th page is the one behind the rows of the pages before it. -/
theorem page_eq (hexists : actions actionId = some action) (hlimits : ∀ k, 1 ≤ limits k) (k : ℕ) :
    t.page actions actionId filters limits k =
      if k = 0 ∨ skipped limits k < (t.unpaged actionId filters).length then
        some (firstPage ((t.unpaged actionId filters).drop (skipped limits k)) (limits k))
      else none := by
  induction k with
  | zero => exact listLogs_eq hexists none (limits 0)
  | succ k ih =>
    rw [page, ih]
    by_cases hbefore : k = 0 ∨ skipped limits k < (t.unpaged actionId filters).length
    · rw [if_pos hbefore, Option.bind_some, listLogs_next hexists hlimits]
      simp
    · rw [if_neg hbefore, if_neg]
      · rfl
      · rw [skipped]
        omega

/-- The pages before the `k`-th hold the first rows of the unpaged query. -/
theorem delivered_eq (hexists : actions actionId = some action) (hlimits : ∀ k, 1 ≤ limits k)
    (k : ℕ) :
    t.delivered actions actionId filters limits k =
      (t.unpaged actionId filters).take (skipped limits k) := by
  induction k with
  | zero => rfl
  | succ k ih =>
    have hitems : (t.page actions actionId filters limits k).elim [] Page.items =
        ((t.unpaged actionId filters).drop (skipped limits k)).take (limits k) := by
      rw [page_eq hexists hlimits]
      split_ifs with hbefore
      · rfl
      · rw [List.drop_of_length_le (by omega), List.take_nil]
        rfl
    rw [delivered, List.range_succ, List.flatMap_append, List.flatMap_singleton, hitems, skipped,
      List.take_add, ← ih]
    rfl

/-- A page has more exactly when rows of the unpaged query are behind it. -/
theorem hasMore_iff (hexists : actions actionId = some action) (hlimits : ∀ k, 1 ≤ limits k)
    {k : ℕ} {p : Page} (hp : t.page actions actionId filters limits k = some p) :
    p.hasMore ↔ ∃ l ∈ t.ofAction actionId, filters.selects l ∧
      ∀ l' ∈ t.delivered actions actionId filters limits (k + 1), l'.id < l.id := by
  have hsplit := List.take_append_drop (skipped limits (k + 1)) (t.unpaged actionId filters)
  have hmore : p.hasMore ↔ skipped limits (k + 1) < (t.unpaged actionId filters).length := by
    rw [page_eq hexists hlimits] at hp
    split_ifs at hp with hbefore
    cases hp
    simp only [firstPage, decide_eq_true_eq, List.length_drop, skipped]
    omega
  rw [hmore, delivered_eq hexists hlimits]
  constructor
  · intro hlt
    have hmem := List.getElem_mem (l := (t.unpaged actionId filters).drop
      (skipped limits (k + 1))) (n := 0) (by rw [List.length_drop]; omega)
    have hincreasing : Keyset.Increasing BulkActionLog.id (t.unpaged actionId filters) :=
      unpaged_increasing
    rw [← hsplit] at hincreasing
    obtain ⟨hlog, hselects⟩ := mem_unpaged.mp (List.mem_of_mem_drop hmem)
    exact ⟨_, hlog, hselects,
      fun l' hl' => (List.pairwise_append.mp hincreasing).2.2 l' hl' _ hmem⟩
  · rintro ⟨l, hlog, hselects, hbehind⟩
    by_contra hle
    rw [List.take_of_length_le (by omega)] at hbehind
    exact lt_irrefl _ (hbehind l (mem_unpaged.mpr ⟨hlog, hselects⟩))

/-- Following the cursors to the end gives the unpaged query. -/
theorem log_pages_complete (t : LogTable) {actions : Uuid → Option BulkAction} {actionId : Uuid}
    {action : BulkAction} (hexists : actions actionId = some action) (filters : LogFilters)
    {limits : ℕ → ℕ} (hlimits : ∀ k, 1 ≤ limits k) :
    ∃ n, t.EqualsUnpaged actions actionId filters limits n := by
  have hend : ∃ n, (t.unpaged actionId filters).length ≤ skipped limits (n + 1) :=
    ⟨(t.unpaged actionId filters).length, (Nat.le_succ _).trans (le_skipped hlimits _)⟩
  classical
  refine ⟨Nat.find hend, fun k hk => ?_, ?_, ?_, fun l => ?_, fun k p hp => ?_⟩
  · rw [page_eq hexists hlimits, if_pos]
    · rfl
    · cases k with
      | zero => exact .inl rfl
      | succ k => exact .inr (lt_of_not_ge (Nat.find_min hend hk))
  · have hnext : ¬ skipped limits (Nat.find hend + 1) < (t.unpaged actionId filters).length :=
      not_lt_of_ge (Nat.find_spec hend)
    rw [page_eq hexists hlimits]
    split_ifs
    · rw [Option.bind_some, firstPage]
      exact if_neg (by rw [List.length_drop]; rw [skipped] at hnext; omega)
    · rfl
  · rw [delivered_eq hexists hlimits]
    exact unpaged_increasing.sublist (List.take_sublist _ _)
  · rw [delivered_eq hexists hlimits, List.take_of_length_le (Nat.find_spec hend), mem_unpaged]
  · exact hasMore_iff hexists hlimits hp

/-- Three log rows of an action between two of another. -/
def fiveRows : LogTable where
  rows := [(2, 1), (1, 2), (1, 3), (2, 4), (1, 5)].map (fun (actionId, id) =>
    ⟨actionId, ⟨id, 0, some id, .success, some LogReason.updated.value, none, none⟩⟩)
  primary := by decide

theorem log_pages_complete_five :
    ∃ n, fiveRows.EqualsUnpaged (fun _ => some (contactsAction .processing)) 1
      { status := some .success } (fun k => k + 1) n :=
  log_pages_complete fiveRows rfl _ (fun k => Nat.le_add_left 1 k)

end LogTable

end BulkActions
