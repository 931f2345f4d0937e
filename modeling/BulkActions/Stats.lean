import BulkActions.Models
import Mathlib.Algebra.BigOperators.Group.List.Lemmas

namespace BulkActions

/-- A row of the grouped scan in `get_stats`. -/
structure LogGroup where
  status : EntityLogStatus
  reasonCode : Option String
  n : Nat
  deriving DecidableEq, Repr

/-- The failed and skipped rows by `(status, reason_code)`, in one of the orders the
database may return them. -/
def logGroups (logs : List BulkActionLog) : List LogGroup :=
  let keys := (logs.filter (fun l => l.status = .failed || l.status = .skipped)).map
    (fun l => (l.status, l.reasonCode))
  keys.dedup.map (fun k => ⟨k.1, k.2, keys.countP (fun key => key = k)⟩)

/-- `row.reason_code or "unspecified"`. -/
def LogGroup.name (g : LogGroup) : String :=
  match g.reasonCode with
  | none => "unspecified"
  | some code => if code = "" then "unspecified" else code

/-- `target[name] = n` on an insertion-ordered dict. -/
def assign (name : String) (n : Nat) : List (String × Nat) → List (String × Nat)
  | [] => [(name, n)]
  | (k, m) :: rest => if k = name then (k, n) :: rest else (k, m) :: assign name n rest

structure Breakdowns where
  failure : List (String × Nat) := []
  skip : List (String × Nat) := []
  deriving DecidableEq, Repr

def Breakdowns.add (b : Breakdowns) (g : LogGroup) : Breakdowns :=
  if g.status = .failed then { b with failure := assign g.name g.n b.failure }
  else { b with skip := assign g.name g.n b.skip }

def breakdowns (groups : List LogGroup) : Breakdowns := groups.foldl .add {}

structure BulkActionStats where
  id : Uuid
  status : BulkActionStatus
  entityType : EntityType
  actionType : String
  totalEntities : Nat
  processedCount : Nat
  successCount : Nat
  failureCount : Nat
  skippedCount : Nat
  pendingCount : Nat
  totalBatches : Nat
  completedBatches : Nat
  progressPercent : Rat
  startedAt : Option Timestamp
  finishedAt : Option Timestamp
  durationSeconds : Option Rat
  entitiesPerMinute : Option Rat
  failureBreakdown : List (String × Nat)
  skipBreakdown : List (String × Nat)

def Config.actionType : Config → String
  | update _ => "update"
  | delete _ => "delete"

/-- Elapsed seconds, with timestamps in microseconds. -/
def BulkAction.duration (a : BulkAction) (now : Timestamp) : Option Rat :=
  a.startedAt.map (fun t => ((a.finishedAt.getD now - t : Nat) : Rat) / 10 ^ 6)

def BulkAction.throughput (a : BulkAction) (now : Timestamp) : Option Rat :=
  match a.duration now with
  | none => none
  | some d =>
    if 0 < d && 0 < a.processedCount then some (roundTo 2 (a.processedCount / d * 60)) else none

/-- `get_stats` on the action's row and the groups its scan returns. -/
def getStats (now : Timestamp) (a : BulkAction) (groups : List LogGroup) : BulkActionStats where
  id := a.id
  status := a.status
  entityType := a.entityType
  actionType := a.configuration.actionType
  totalEntities := a.totalEntities
  processedCount := a.processedCount
  successCount := a.successCount
  failureCount := a.failureCount
  skippedCount := a.skippedCount
  pendingCount := a.totalEntities - a.processedCount
  totalBatches := a.totalBatches
  completedBatches := a.completedBatches
  progressPercent :=
    if a.totalEntities = 0 then
      if a.status = .completed || a.status = .completedWithErrors then 100 else 0
    else roundTo 2 ((a.processedCount : Rat) / a.totalEntities * 100)
  startedAt := a.startedAt
  finishedAt := a.finishedAt
  durationSeconds := (a.duration now).map (roundTo 3)
  entitiesPerMinute := a.throughput now
  failureBreakdown := (breakdowns groups).failure
  skipBreakdown := (breakdowns groups).skip

/-- The sum of the counts in a breakdown. -/
def total (d : List (String × Nat)) : Nat := (d.map Prod.snd).sum

def assignAll (groups : List LogGroup) (d : List (String × Nat)) : List (String × Nat) :=
  groups.foldl (fun d g => assign g.name g.n d) d

theorem assign_of_notMem {name : String} {n : Nat} {d : List (String × Nat)}
    (h : name ∉ d.map Prod.fst) : assign name n d = d ++ [(name, n)] := by
  induction d with
  | nil => rfl
  | cons e d ih =>
    simp only [List.map_cons, List.mem_cons, not_or] at h
    simp [assign, Ne.symm h.1, ih h.2]

theorem total_assignAll {groups : List LogGroup} {d : List (String × Nat)}
    (hnew : ∀ g ∈ groups, g.name ∉ d.map Prod.fst) (hnd : (groups.map LogGroup.name).Nodup) :
    total (assignAll groups d) = total d + (groups.map LogGroup.n).sum := by
  induction groups generalizing d with
  | nil => simp [assignAll]
  | cons g gs ih =>
    simp only [List.map_cons, List.nodup_cons, List.mem_map, not_exists, not_and] at hnd
    have hg := assign_of_notMem (n := g.n) (hnew g List.mem_cons_self)
    have hrest : ∀ g' ∈ gs, g'.name ∉ (assign g.name g.n d).map Prod.fst := by
      intro g' hg'
      have hd := hnew g' (List.mem_cons_of_mem _ hg')
      have hne := hnd.1 g' hg'
      simp_all
    have hgs := ih hrest hnd.2
    simp only [assignAll, List.foldl_cons] at hgs ⊢
    rw [hgs, hg]
    simp [total, Nat.add_assoc]

theorem foldl_add (groups : List LogGroup) (b : Breakdowns) :
    groups.foldl .add b =
      ⟨assignAll (groups.filter (fun g => g.status = .failed)) b.failure,
        assignAll (groups.filter (fun g => g.status ≠ .failed)) b.skip⟩ := by
  induction groups generalizing b with
  | nil => rfl
  | cons g gs ih =>
    rw [List.foldl_cons, ih]
    by_cases hg : g.status = .failed <;> simp [Breakdowns.add, hg, assignAll]

/-- The log names one of the platform's reason codes. -/
def BulkActionLog.Reasoned (l : BulkActionLog) : Prop :=
  ∃ reason : LogReason, l.reasonCode = some reason.value

theorem LogReason.value_ne_empty (reason : LogReason) : reason.value ≠ "" := by
  cases reason <;> decide

theorem logGroups_nodup (logs : List BulkActionLog) : (logGroups logs).Nodup := by
  apply List.Nodup.map_on _ (List.nodup_dedup _)
  rintro ⟨st, code⟩ _ ⟨st', code'⟩ _ h
  simp only [LogGroup.mk.injEq] at h
  rw [h.1, h.2.1]

theorem mem_logGroups {logs : List BulkActionLog} {g g' : LogGroup} (hg : g ∈ logGroups logs)
    (hg' : g' ∈ logGroups logs) (hs : g.status = g'.status)
    (hc : g.reasonCode = g'.reasonCode) : g = g' := by
  obtain ⟨k, _, rfl⟩ := List.mem_map.mp hg
  obtain ⟨k', _, rfl⟩ := List.mem_map.mp hg'
  have hk : k = k' := Prod.ext hs hc
  rw [hk]

theorem logGroups_of_log {logs : List BulkActionLog} {g : LogGroup} (hg : g ∈ logGroups logs) :
    ∃ l ∈ logs, (l.status = .failed ∨ l.status = .skipped) ∧ g.status = l.status ∧
      g.reasonCode = l.reasonCode := by
  obtain ⟨k, hk, rfl⟩ := List.mem_map.mp hg
  obtain ⟨l, hl, rfl⟩ := List.mem_map.mp (List.mem_dedup.mp hk)
  obtain ⟨hl, hst⟩ := List.mem_filter.mp hl
  exact ⟨l, hl, by simpa using hst, rfl, rfl⟩

theorem name_of_reasoned {logs : List BulkActionLog} (hr : ∀ l ∈ logs, l.Reasoned) {g : LogGroup}
    (hg : g ∈ logGroups logs) : g.reasonCode = some g.name := by
  obtain ⟨l, hl, _, _, hc⟩ := logGroups_of_log hg
  obtain ⟨reason, hreason⟩ := hr l hl
  simp [LogGroup.name, hc, hreason, reason.value_ne_empty]

theorem names_nodup {logs : List BulkActionLog} (hr : ∀ l ∈ logs, l.Reasoned) (p : LogGroup → Bool)
    (hp : ∀ g ∈ logGroups logs, ∀ g' ∈ logGroups logs, p g → p g' → g.status = g'.status) :
    (((logGroups logs).filter p).map LogGroup.name).Nodup := by
  apply List.Nodup.map_on _ ((logGroups_nodup logs).filter _)
  intro g hg g' hg' hname
  obtain ⟨hg, hpg⟩ := List.mem_filter.mp hg
  obtain ⟨hg', hpg'⟩ := List.mem_filter.mp hg'
  apply mem_logGroups hg hg' (hp g hg g' hg' hpg hpg')
  rw [name_of_reasoned hr hg, name_of_reasoned hr hg', hname]

theorem sum_logGroups (logs : List BulkActionLog) (p : EntityLogStatus → Bool)
    (hp : ∀ st, p st → st = .failed ∨ st = .skipped) :
    (((logGroups logs).filter (fun g => p g.status)).map LogGroup.n).sum =
      logs.countP (fun l => p l.status) := by
  have hcount := List.sum_map_count_dedup_filter_eq_countP
    (fun k : EntityLogStatus × Option String => p k.1)
    ((logs.filter (fun l => l.status = .failed || l.status = .skipped)).map
      (fun l => (l.status, l.reasonCode)))
  simp only [logGroups, List.filter_map, List.map_map, Function.comp_def]
  refine hcount.trans ?_
  simp only [List.countP_map, List.countP_filter, Function.comp_def]
  apply List.countP_congr
  intro l _
  simpa using hp l.status

/-- Whatever the order of the groups, each breakdown adds up to the logs it is about. -/
theorem total_breakdowns {logs : List BulkActionLog} {groups : List LogGroup}
    (hr : ∀ l ∈ logs, l.Reasoned) (hperm : groups.Perm (logGroups logs)) :
    total (breakdowns groups).failure = logs.countP (fun l => l.status = .failed) ∧
    total (breakdowns groups).skip = logs.countP (fun l => l.status = .skipped) := by
  have part : ∀ p : LogGroup → Bool,
      (((logGroups logs).filter p).map LogGroup.name).Nodup →
      total (assignAll (groups.filter p) []) =
        (((logGroups logs).filter p).map LogGroup.n).sum := by
    intro p hnd
    rw [total_assignAll (by simp) (((hperm.filter p).map _).nodup_iff.mpr hnd)]
    simpa [total] using ((hperm.filter p).map LogGroup.n).sum_eq
  have skipped : ∀ g ∈ logGroups logs, g.status ≠ .failed → g.status = .skipped := by
    intro g hg hne
    obtain ⟨l, _, hl, hst, _⟩ := logGroups_of_log hg
    exact hst ▸ hl.resolve_left (hst ▸ hne)
  rw [breakdowns, foldl_add]
  constructor
  · rw [part _ (names_nodup hr _ (by simp_all))]
    exact sum_logGroups logs (fun st => st = .failed) (by simp_all)
  · have hskip : (logGroups logs).filter (fun g => g.status ≠ .failed) =
        (logGroups logs).filter (fun g => g.status = .skipped) := by
      apply List.filter_congr
      intro g hg
      have := skipped g hg
      by_cases hf : g.status = .failed <;> simp_all
    rw [part _ (names_nodup hr _ ?_), hskip]
    · exact sum_logGroups logs (fun st => st = .skipped) (by simp_all)
    · intro g hg g' hg' hpg hpg'
      rw [skipped g hg (by simpa using hpg), skipped g' hg' (by simpa using hpg')]

end BulkActions
