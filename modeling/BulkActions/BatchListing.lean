import BulkActions.BatchNumbers
import BulkActions.OffsetPages
import Mathlib.Data.List.Sort

namespace BulkActions

open OffsetPages

def getBulkAction (text : PyText) (actionId : Uuid) (c : Tables) : Except String BulkAction :=
  match c.action with
  | none => .error s!"Bulk action '{text.str (.uuid actionId)}' does not exist."
  | some action => .ok action

/-- The rows of the action, ordered by their index. -/
structure Tables.Ordered (c : Tables) (rows : List BulkActionBatch) : Prop where
  increasing : (rows.map BulkActionBatch.batchIndex).SortedLT
  mem : ∀ row, row ∈ rows ↔ ∃ i, c.batches i = some row

/-- `list_batches`, when the ordered query finds `rows`. -/
def listBatches (text : PyText) (actionId : Uuid) (c : Tables) (rows : List BulkActionBatch)
    (limit offset : Nat) : Except String (List BulkActionBatch) :=
  (getBulkAction text actionId c).map (fun _ => page rows offset limit)

/-- The only rows the query can find. -/
def Tables.firstRows (c : Tables) (n : Nat) : List BulkActionBatch :=
  (List.range n).filterMap c.batches

section Ordered

variable {c c' : Tables} {rows rows' : List BulkActionBatch} {n : Nat}

theorem ordered_indexes (hnumbered : c.Numbered) (hrows : c.Ordered rows)
    (hn : c.RowsBelow n) : rows.map BulkActionBatch.batchIndex = List.range n := by
  refine hrows.increasing.eq_of_mem_iff (List.pairwise_lt_range).sortedLT (fun i => ?_)
  rw [List.mem_map, List.mem_range, ← hn i, Option.isSome_iff_exists]
  constructor
  · rintro ⟨row, hrow, rfl⟩
    obtain ⟨i, hi⟩ := (hrows.mem row).mp hrow
    exact ⟨row, (hnumbered.index i row hi).symm ▸ hi⟩
  · rintro ⟨row, hrow⟩
    exact ⟨row, (hrows.mem row).mpr ⟨i, hrow⟩, hnumbered.index i row hrow⟩

theorem firstRows_ordered (hnumbered : c.Numbered) (hn : c.RowsBelow n) :
    c.Ordered (c.firstRows n) := by
  have hindexes : (c.firstRows n).map BulkActionBatch.batchIndex = List.range n := by
    rw [Tables.firstRows, List.map_filterMap]
    refine (List.filterMap_congr (fun i hi => ?_)).trans List.filterMap_some
    obtain ⟨row, hrow⟩ := Option.isSome_iff_exists.mp ((hn i).mpr (List.mem_range.mp hi))
    rw [hrow, Option.map_some, hnumbered.index i row hrow]
  refine ⟨hindexes ▸ (List.pairwise_lt_range).sortedLT, fun row => ?_⟩
  rw [Tables.firstRows, List.mem_filterMap]
  constructor
  · rintro ⟨i, _, hrow⟩
    exact ⟨i, hrow⟩
  · rintro ⟨i, hrow⟩
    exact ⟨i, List.mem_range.mpr ((hn i).mp (hrow ▸ rfl)), hrow⟩

/-- A row found is the one at its index. -/
theorem ordered_at (hnumbered : c.Numbered) (hrows : c.Ordered rows) {row : BulkActionBatch}
    (hrow : row ∈ rows) : c.batches row.batchIndex = some row := by
  obtain ⟨i, hi⟩ := (hrows.mem row).mp hrow
  rw [hnumbered.index i row hi]
  exact hi

theorem ordered_prefix (hnumbered : c.Numbered) (hnumbered' : c'.Numbered)
    (hrows : c.Ordered rows) (hrows' : c'.Ordered rows')
    (keep : ∀ i, (c.batches i).isSome → (c'.batches i).isSome) :
    rows.map BulkActionBatch.batchIndex <+: rows'.map BulkActionBatch.batchIndex := by
  obtain ⟨n, hn⟩ := hnumbered.below
  obtain ⟨n', hn'⟩ := hnumbered'.below
  rw [ordered_indexes hnumbered hrows hn, ordered_indexes hnumbered' hrows' hn']
  have hle : n ≤ n' := by
    by_contra hlt
    have hkept := keep n' ((hn n').mpr (Nat.lt_of_not_le hlt))
    exact Nat.lt_irrefl n' ((hn' n').mp hkept)
  rw [← Nat.min_eq_left hle, ← List.take_range]
  exact List.take_prefix _ _

end Ordered

/-- A client asks for page after page, each time behind the batches it has received, while the
platform goes on. -/
structure BatchWalk (env : Env) (actionId : Uuid) (limits : ℕ → ℕ) (s : ℕ → Sys)
    (pages : ℕ → List BulkActionBatch) : Prop where
  runs : ∀ k, Sys.Reaches env Runs.anyStep (s k) (s (k + 1))
  answers : ∀ k, ∃ rows, (s k).world.committed.Ordered rows ∧
    listBatches env.text actionId (s k).world.committed rows (limits k)
      ((List.range k).flatMap pages).length = .ok (pages k)

section Walk

variable {env : Env} {s₀ s : Sys}

/-- In every state of a run the batches are numbered from zero without a gap, and the action
never counts one that is not there. -/
theorem batches_stay_numbered {ok : Sys → Label → Prop} (hrest : s₀.AtRest)
    (hnumbered : s₀.world.committed.Numbered) (h : Sys.Reaches env ok s₀ s) :
    ∃ n, (∀ i, (s.world.committed.batches i).isSome ↔ i < n) ∧
      (∀ i row, s.world.committed.batches i = some row → row.batchIndex = i) ∧
      ∀ a, s.world.committed.action = some a → a.totalBatches ≤ n := by
  have hkept := numbered_reaches (passSafe_atRest hrest) hnumbered h
  obtain ⟨n, hn⟩ := hkept.below
  refine ⟨n, hn, hkept.index, fun a ha => ?_⟩
  by_contra hlt
  have hrow := hkept.totals a ha n (Nat.lt_of_not_le hlt)
  exact Nat.lt_irrefl n ((hn n).mp hrow)

theorem ok_page {text : PyText} {actionId : Uuid} {c : Tables} {rows got : List BulkActionBatch}
    {limit offset : Nat} (h : listBatches text actionId c rows limit offset = .ok got) :
    got = page rows offset limit := by
  cases hget : getBulkAction text actionId c <;> rw [listBatches, hget] at h <;> cases h
  rfl

section Requests

variable {actionId : Uuid} {limits : ℕ → ℕ} {states : ℕ → Sys} {pages : ℕ → List BulkActionBatch}
  {rows : ℕ → List BulkActionBatch} {n : ℕ}

/-- What the requests of a walk find: numbered rows, to which later ones are only added. -/
structure Finds (limits : ℕ → ℕ) (states : ℕ → Sys) (pages rows : ℕ → List BulkActionBatch) :
    Prop where
  numbered : ∀ k, (states k).world.committed.Numbered
  ordered : ∀ k, (states k).world.committed.Ordered (rows k)
  grows : ∀ k, (rows k).map BulkActionBatch.batchIndex <+:
    (rows (k + 1)).map BulkActionBatch.batchIndex
  asked : ∀ k, pages k = page (rows k) ((List.range k).flatMap pages).length (limits k)

theorem walk_finds (hrest : s₀.AtRest) (hnumbered : s₀.world.committed.Numbered)
    (h : Sys.Reaches env Runs.anyStep s₀ (states 0))
    (hwalk : BatchWalk env actionId limits states pages) :
    ∃ rows, Finds limits states pages rows := by
  choose rows hrows hanswer using hwalk.answers
  have hreached : ∀ k, Sys.Reaches env Runs.anyStep s₀ (states k) := by
    intro k
    induction k with
    | zero => exact h
    | succ k ih => exact ih.trans (hwalk.runs k)
  have hkept := fun k => numbered_reaches (passSafe_atRest hrest) hnumbered (hreached k)
  refine ⟨rows, hkept, hrows, fun k => ?_, fun k => ok_page (hanswer k)⟩
  refine ordered_prefix (hkept k) (hkept (k + 1)) (hrows k) (hrows (k + 1)) (fun i hi => ?_)
  have hrun := (hwalk.runs k).invariant
    (P := fun s => Consistent env s ∧ (s.world.committed.batches i).isSome)
    (fun hs _ hstep => ⟨consistent_step hs.1 hstep, step_batch_isSome hs.1 hstep hs.2⟩)
    ⟨(passSafe_reaches (passSafe_atRest hrest) (hreached k)).consistent, hi⟩
  exact hrun.2

theorem received_indexes (h : Finds limits states pages rows) (n : ℕ) :
    ((List.range n).flatMap pages).map BulkActionBatch.batchIndex =
      List.range ((List.range n).flatMap pages).length := by
  obtain ⟨m, hm⟩ := (h.numbered n).below
  have hprefix : delivered _ limits n <+: _ := delivered_prefix_rows h.grows n
  rw [delivered_map, ordered_indexes (h.numbered n) (h.ordered n) hm,
    ← pages_delivered h.asked n] at hprefix
  have hle : ((List.range n).flatMap pages).length ≤ m := by
    simpa only [List.length_map, List.length_range] using hprefix.length_le
  have htake := List.prefix_iff_eq_take.mp hprefix
  rwa [List.length_map, List.take_range, Nat.min_eq_left hle] at htake

theorem received_committed (h : Finds limits states pages rows) {k : ℕ} {row : BulkActionBatch}
    (hrow : row ∈ pages k) : (states k).world.committed.batches row.batchIndex = some row := by
  rw [h.asked k] at hrow
  exact ordered_at (h.numbered k) (h.ordered k) (mem_of_mem_page hrow)

theorem short_page_last (h : Finds limits states pages rows)
    (hshort : (pages n).length < limits n) {i : Nat}
    (hi : ((states n).world.committed.batches i).isSome) :
    i < ((List.range (n + 1)).flatMap pages).length := by
  obtain ⟨m, hm⟩ := (h.numbered n).below
  have hpage : pages n = received rows limits n := by
    rw [h.asked n, pages_delivered h.asked n, length_delivered]
    rfl
  have hlast := length_le_of_short (hpage ▸ hshort)
  rw [← List.length_map BulkActionBatch.batchIndex,
    ordered_indexes (h.numbered n) (h.ordered n) hm, List.length_range] at hlast
  rw [pages_delivered h.asked, length_delivered]
  exact Nat.lt_of_lt_of_le ((hm i).mp hi) hlast

/-- Whatever the workers do between two requests, the batches a client has received are the
first ones, in order and each once, each as it was committed at the request of its page, and a page
that is not full ends the list. -/
theorem batch_walk_complete (hrest : s₀.AtRest) (hnumbered : s₀.world.committed.Numbered)
    (h : Sys.Reaches env Runs.anyStep s₀ (states 0))
    (hwalk : BatchWalk env actionId limits states pages) (n : ℕ) :
    ((List.range n).flatMap pages).map BulkActionBatch.batchIndex =
        List.range ((List.range n).flatMap pages).length ∧
      (∀ k, ∀ row ∈ pages k, (states k).world.committed.batches row.batchIndex = some row) ∧
      ((pages n).length < limits n → ∀ i, ((states n).world.committed.batches i).isSome →
        i < ((List.range (n + 1)).flatMap pages).length) := by
  obtain ⟨rows, hfinds⟩ := walk_finds hrest hnumbered h hwalk
  exact ⟨received_indexes hfinds n, fun k row hrow => received_committed hfinds hrow,
    fun hshort i hi => short_page_last hfinds hshort hi⟩

end Requests

end Walk

theorem queuedContacts_numbered : queuedContacts.world.committed.Numbered where
  below := ⟨0, fun i => by simp [queuedContacts, Tables.sys, World.committed]⟩
  index := by
    intro i row hrow
    cases hrow
  totals := by
    intro a ha i hi
    cases Option.some.inj ha
    exact absurd hi (Nat.not_lt_zero i)

/-- A pass dies when it has enqueued the job of the first of two batches, and a second one finds
their rows. -/
def plannedTwice : List Label :=
  let pages : List Label := List.replicate 3 (.run 0 {}) ++
    [.run 0 { page := [5] }, .run 0 { page := [6] }]
  .deliver 0 .plan :: pages ++ List.replicate 4 (.run 0 {}) ++ [.crash 0, .redeliver 0] ++ pages ++
    List.replicate 9 (.run 0 {})

/-- A worker executes the first of them. -/
def executedFirst : List Label :=
  .deliver 1 contactsJob :: List.replicate 8 (.run 1 {}) ++ .run 1 activeContact ::
    List.replicate 9 (.run 1 {})

/-- The action has two batches, the first one with that status. -/
def Tables.hasPair (status : BatchStatus) (c : Tables) : Bool :=
  (c.batches 0).map BulkActionBatch.status = some status &&
    (c.batches 1).map BulkActionBatch.status = some .pending && (c.batches 2).isNone &&
    c.action.isSome

theorem rowsBelow_of_hasPair {status : BatchStatus} {c : Tables} (hnumbered : c.Numbered)
    (h : c.hasPair status) : c.RowsBelow 2 := by
  simp only [Tables.hasPair, Bool.and_eq_true, decide_eq_true_eq] at h
  obtain ⟨⟨⟨_, hsecond⟩, hthird⟩, _⟩ := h
  obtain ⟨n, hn⟩ := hnumbered.below
  obtain ⟨row, hrow, _⟩ := Option.map_eq_some_iff.mp hsecond
  have hlower : 1 < n := (hn 1).mp (hrow ▸ rfl)
  have hupper : ¬ 2 < n := by
    rw [← hn 2, Option.isNone_iff_eq_none.mp hthird]
    simp
  cases (show n = 2 by omega)
  exact hn

/-- The first batch is planned twice and executed once. -/
theorem executed_pair : ∃ s s', Sys.Reaches defaultEnv Runs.anyStep queuedContacts s ∧
    Sys.Reaches defaultEnv Runs.anyStep s s' ∧ s.world.committed.hasPair .pending ∧
    s'.world.committed.hasPair .completed := by
  have hrun : ((Runs.steps (Sys.step defaultEnv) queuedContacts plannedTwice).bind (fun s =>
      (Runs.steps (Sys.step defaultEnv) s executedFirst).map (fun s' =>
        (s.world.committed.hasPair .pending, s'.world.committed.hasPair .completed)))) =
          some (true, true) := by
    decide +kernel
  obtain ⟨s, hs, hrun⟩ := Option.bind_eq_some_iff.mp hrun
  obtain ⟨s', hs', hpairs⟩ := Option.map_eq_some_iff.mp hrun
  obtain ⟨hfirst, hlater⟩ := Prod.mk.inj hpairs
  exact ⟨s, s', Runs.reaches_of_steps hs, Runs.reaches_of_steps hs', hfirst, hlater⟩

theorem batches_stay_numbered_executed :
    ∃ s, Sys.Reaches defaultEnv Runs.anyStep queuedContacts s ∧
      s.world.committed.hasPair .completed ∧
      ∃ n, (∀ i, (s.world.committed.batches i).isSome ↔ i < n) ∧
        (∀ i row, s.world.committed.batches i = some row → row.batchIndex = i) ∧
        ∀ a, s.world.committed.action = some a → a.totalBatches ≤ n := by
  obtain ⟨_, s, hfirst, hlater, _, hpair⟩ := executed_pair
  have hr := hfirst.trans hlater
  exact ⟨s, hr, hpair, batches_stay_numbered (Tables.sys_atRest _ _) queuedContacts_numbered hr⟩

/-- A client that asks for a batch at a time, the first one while it is pending, and the others when
it has been executed. -/
theorem batch_walk_complete_executed :
    ∃ (states : ℕ → Sys) (pages : ℕ → List BulkActionBatch),
      BatchWalk defaultEnv 7 (fun _ => 1) states pages ∧
      (states 0).world.committed.hasPair .pending ∧
      (states 1).world.committed.hasPair .completed ∧
      (pages 0).map BulkActionBatch.batchIndex = [0] ∧
      (pages 1).map BulkActionBatch.batchIndex = [1] ∧ pages 2 = [] ∧
      (∀ k, ∀ row ∈ pages k, (states k).world.committed.batches row.batchIndex = some row) ∧
      ∀ i, ((states 2).world.committed.batches i).isSome →
        i < ((List.range 3).flatMap pages).length := by
  obtain ⟨s, s', hfirst, hlater, hpair, hpair'⟩ := executed_pair
  let states : ℕ → Sys := fun k => if k = 0 then s else s'
  let rows : ℕ → List BulkActionBatch := fun k => (states k).world.committed.firstRows 2
  let pages : ℕ → List BulkActionBatch := received rows (fun _ => 1)
  have hcommitted : ∀ k, (states k).world.committed.Numbered ∧
      (states k).world.committed.RowsBelow 2 ∧ (states k).world.committed.action.isSome := by
    have hpaired : ∀ {y : Sys} {status : BatchStatus},
        Sys.Reaches defaultEnv Runs.anyStep queuedContacts y → y.world.committed.hasPair status →
          y.world.committed.Numbered ∧ y.world.committed.RowsBelow 2 ∧
            y.world.committed.action.isSome := by
      intro y status hy hpair
      have hnumbered := numbered_reaches (passSafe_atRest (Tables.sys_atRest _ _))
        queuedContacts_numbered hy
      exact ⟨hnumbered, rowsBelow_of_hasPair hnumbered hpair, (Bool.and_eq_true_iff.mp hpair).2⟩
    intro k
    cases k with
    | zero => exact hpaired hfirst hpair
    | succ k => exact hpaired (hfirst.trans hlater) hpair'
  have hordered : ∀ k, (states k).world.committed.Ordered (rows k) := fun k =>
    firstRows_ordered (hcommitted k).1 (hcommitted k).2.1
  have hwalk : BatchWalk defaultEnv 7 (fun _ => 1) states pages := by
    refine ⟨fun k => ?_, fun k => ⟨rows k, hordered k, ?_⟩⟩
    · cases k with
      | zero => exact hlater
      | succ k => exact .refl
    · obtain ⟨a, ha⟩ := Option.isSome_iff_exists.mp (hcommitted k).2.2
      have hasked : ((List.range k).flatMap pages).length = offset rows (fun _ => 1) k :=
        length_delivered k
      rw [listBatches, getBulkAction, ha, hasked]
      rfl
  have hindexes : ∀ k, (pages k).map BulkActionBatch.batchIndex =
      received (fun _ => List.range 2) (fun _ => 1) k := by
    intro k
    have hrange : (fun k => (rows k).map BulkActionBatch.batchIndex) = fun _ => List.range 2 :=
      funext (fun k => ordered_indexes (hcommitted k).1 (hordered k) (hcommitted k).2.1)
    rw [← hrange, received, offset_map, page_map]
    rfl
  have hempty : pages 2 = [] := List.map_eq_nil_iff.mp (hindexes 2)
  have hstart : Sys.Reaches defaultEnv Runs.anyStep queuedContacts (states 0) := hfirst
  obtain ⟨_, hwhen, hlast⟩ := batch_walk_complete (Tables.sys_atRest _ _) queuedContacts_numbered
    hstart hwalk 2
  refine ⟨states, pages, hwalk, hpair, hpair', hindexes 0, hindexes 1, hempty, hwhen, hlast ?_⟩
  rw [hempty]
  exact Nat.zero_lt_one

end BulkActions
