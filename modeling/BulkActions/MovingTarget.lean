import BulkActions.OneShot

namespace BulkActions

open Keyset

namespace FilterAction

/-- The generator before its `n`-th resumption, when the `n`-th page is read from table
`tables n`; `none` once it has returned. -/
def walk (a : FilterAction) (tables : Nat → EntityTable) : Nat → Option PlanSource
  | 0 => some (.start a.config a.batchSize)
  | n + 1 => (walk a tables n).bind (fun source =>
    (source.next a.batchSize (a.readPage (tables n) source)).map Prod.snd)

/-- The batch that the `n`-th resumption yields. -/
def yielded (a : FilterAction) (tables : Nat → EntityTable) (n : Nat) : Option PlannedBatch :=
  (a.walk tables n).bind (fun source =>
    (source.next a.batchSize (a.readPage (tables n) source)).map Prod.fst)

/-- The `n`-th resumption reads a page. -/
def Reads (a : FilterAction) (tables : Nat → EntityTable) (n : Nat) : Prop :=
  ∃ lastId index, a.walk tables n = some (.filter lastId index)

/-- Some batch of the walk has loaded the entity when it executes in `exec`. -/
def LoadedBy (a : FilterAction) (tables exec : Nat → EntityTable) (id : Uuid) (n : Nat) : Prop :=
  ∃ b, a.yielded tables n = some b ∧ ∃ row ∈ a.load (exec n) (plannedRow b), row.id = id

end FilterAction

section Page

variable {a : FilterAction} {t : EntityTable} {lastId : Option Uuid}

theorem selectPage_length :
    (t.selectPage a.sql a.clause a.batchSize lastId).length ≤ a.batchSize := by
  rw [EntityTable.selectPage, List.length_map]
  exact List.length_take_le _ _

theorem selectPage_increasing :
    (t.selectPage a.sql a.clause a.batchSize lastId).Pairwise (· < ·) :=
  List.pairwise_map.mpr ((t.select_increasing _).sublist (List.take_sublist _ _))

theorem selectPage_after {id last : Uuid}
    (hid : id ∈ t.selectPage a.sql a.clause a.batchSize lastId)
    (hl : lastId = some last) : last < id := by
  obtain ⟨r, hr, rfl⟩ := List.mem_map.mp hid
  have hp := (EntityTable.mem_select.mp (List.mem_of_mem_take hr)).2
  simpa [hl] using (Bool.and_eq_true_iff.mp hp).2

/-- A page holds every match after the cursor, unless it is full before it comes to it. -/
theorem selectPage_complete {id : Uuid} (hid : id ∈ a.targetIds t)
    (hafter : ∀ last, lastId = some last → last < id) :
    id ∈ t.selectPage a.sql a.clause a.batchSize lastId ∨
      ((t.selectPage a.sql a.clause a.batchSize lastId).length = a.batchSize ∧
        ∀ x ∈ t.selectPage a.sql a.clause a.batchSize lastId, x < id) := by
  obtain ⟨r, hr, rfl⟩ := List.mem_map.mp hid
  obtain ⟨hrow, hholds⟩ := FilterAction.mem_target.mp hr
  have hafter' : lastId.all (fun last => decide (last < r.id)) := by
    cases lastId with
    | none => rfl
    | some last => simpa using hafter last rfl
  have hsel : r ∈ t.select (fun r => a.clause.holds a.sql r &&
      lastId.all (fun last => decide (last < r.id))) :=
    EntityTable.mem_select.mpr ⟨hrow, by rw [hholds, hafter']; rfl⟩
  have hinc := t.select_increasing (fun r => a.clause.holds a.sql r &&
    lastId.all (fun last => decide (last < r.id)))
  rw [EntityTable.selectPage]
  generalize t.select (fun r => a.clause.holds a.sql r &&
    lastId.all (fun last => decide (last < r.id))) = found at hsel hinc
  rw [← List.take_append_drop a.batchSize found] at hsel hinc
  rcases List.mem_append.mp hsel with hmem | hmem
  · exact Or.inl (List.mem_map_of_mem hmem)
  · refine Or.inr ⟨?_, ?_⟩
    · have hpos := List.length_pos_of_mem hmem
      rw [List.length_drop] at hpos
      rw [List.length_map, List.length_take]
      omega
    · intro x hx
      obtain ⟨s, hs, rfl⟩ := List.mem_map.mp hx
      exact (List.pairwise_append.mp hinc).2.2 s hs r hmem

end Page

namespace FilterAction

variable {a : FilterAction} {tables exec : Nat → EntityTable}

/-- What a resumption finds: the generator has returned, or it stands after a cursor. -/
theorem walk_cases (n : Nat) (source : PlanSource) (h : a.walk tables n = some source) :
    source = .exhausted ∨ ∃ lastId, source = .filter lastId n := by
  induction n generalizing source with
  | zero =>
    have hstart : PlanSource.start a.config a.batchSize = source := Option.some.inj h
    rw [← hstart, PlanSource.start, a.selected]
    exact Or.inr ⟨none, rfl⟩
  | succ n ih =>
    obtain ⟨before, hbefore, hnext⟩ := Option.bind_eq_some_iff.mp h
    rcases ih before hbefore with rfl | ⟨lastId, rfl⟩
    · simp [PlanSource.next] at hnext
    · simp only [PlanSource.next] at hnext
      split_ifs at hnext with hempty hshort
      · simp at hnext
      · exact Or.inl (Option.some.inj hnext).symm
      · exact Or.inr ⟨_, (Option.some.inj hnext).symm⟩

/-- A resumption that yields has read a page that is not empty. -/
theorem yielded_cases {n : Nat} {b : PlannedBatch} (h : a.yielded tables n = some b) :
    ∃ lastId, a.walk tables n = some (.filter lastId n) ∧
      (tables n).selectPage a.sql a.clause a.batchSize lastId ≠ [] ∧
      b = plannedPage n ((tables n).selectPage a.sql a.clause a.batchSize lastId) := by
  obtain ⟨source, hwalk, hnext⟩ := Option.bind_eq_some_iff.mp h
  rcases walk_cases n source hwalk with rfl | ⟨lastId, rfl⟩
  · simp [PlanSource.next] at hnext
  · refine ⟨lastId, hwalk, ?_⟩
    simp only [readPage, PlanSource.next, List.isEmpty_iff] at hnext
    split_ifs at hnext with hempty
    · simp at hnext
    · exact ⟨hempty, (Option.some.inj hnext).symm⟩
    · exact ⟨hempty, (Option.some.inj hnext).symm⟩

/-- The cursor of a page is the last id of the page before it. -/
theorem walk_succ {n : Nat} {lastId : Option Uuid}
    (h : a.walk tables (n + 1) = some (.filter lastId (n + 1))) :
    ∃ b, a.yielded tables n = some b ∧ lastId = b.cursorEnd := by
  obtain ⟨before, hbefore, hnext⟩ := Option.bind_eq_some_iff.mp h
  obtain ⟨⟨b, source⟩, hpair, hsource⟩ := Option.map_eq_some_iff.mp hnext
  have hb : a.yielded tables n = some b :=
    Option.bind_eq_some_iff.mpr ⟨before, hbefore, Option.map_eq_some_iff.mpr ⟨_, hpair, rfl⟩⟩
  obtain ⟨before', hwalk, hne, rfl⟩ := yielded_cases hb
  cases Option.some.inj (hbefore.symm.trans hwalk)
  refine ⟨_, hb, ?_⟩
  rw [readPage, PlanSource.next, if_neg (by simpa using hne)] at hpair
  cases (Prod.mk.inj (Option.some.inj hpair)).2
  split_ifs at hsource
  cases hsource
  rfl

/-- The first and the last id of a batch, which span its page. -/
theorem yielded_span {n : Nat} {b : PlannedBatch} (h : a.yielded tables n = some b) :
    ∃ first last, b.cursorStart = some first ∧ b.cursorEnd = some last ∧ first ≤ last := by
  obtain ⟨lastId, _, hne, rfl⟩ := yielded_cases h
  refine ⟨_, _, List.head?_eq_some_head hne, List.getLast?_eq_some_getLast hne, ?_⟩
  have hinc : Increasing id ((tables n).selectPage a.sql a.clause a.batchSize lastId) :=
    selectPage_increasing
  exact hinc.first_le (List.head?_eq_some_head hne) (List.getLast_mem hne)

theorem yielded_count {n : Nat} {b : PlannedBatch} (h : a.yielded tables n = some b) :
    b.index = n ∧ 1 ≤ b.entityCount ∧ b.entityCount ≤ a.batchSize := by
  obtain ⟨lastId, _, hne, rfl⟩ := yielded_cases h
  exact ⟨rfl, List.length_pos_of_ne_nil hne, selectPage_length⟩

/-- The batches are yielded one after the other. -/
theorem yielded_before {n : Nat} {b : PlannedBatch} (h : a.yielded tables n = some b) :
    ∀ m ≤ n, (a.yielded tables m).isSome := by
  induction n generalizing b with
  | zero =>
    intro m hm
    rw [Nat.le_zero.mp hm, h]
    rfl
  | succ n ih =>
    intro m hm
    obtain ⟨lastId, hwalk, _⟩ := yielded_cases h
    obtain ⟨b', hb', _⟩ := walk_succ hwalk
    rcases Nat.le_succ_iff.mp hm with hle | rfl
    · exact ih hb' m hle
    · rw [h]
      rfl

/-- Every batch starts after the end of the batches before it. -/
theorem yielded_increasing {i j : Nat} {b b' : PlannedBatch} (hi : a.yielded tables i = some b)
    (hj : a.yielded tables j = some b') (hlt : i < j) {last first : Uuid}
    (hlast : b.cursorEnd = some last) (hfirst : b'.cursorStart = some first) : last < first := by
  induction j generalizing b' first with
  | zero => exact absurd hlt (Nat.not_lt_zero i)
  | succ j ih =>
    obtain ⟨lastId, hwalk, hne, rfl⟩ := yielded_cases hj
    obtain ⟨prev, hprev, rfl⟩ := walk_succ hwalk
    obtain ⟨first', last', hstart, hend, hle⟩ := yielded_span hprev
    have hbelow : last ≤ last' := by
      rcases Nat.lt_succ_iff_lt_or_eq.mp hlt with hlt | rfl
      · exact le_trans (le_of_lt (ih hprev hlt hstart)) hle
      · cases Option.some.inj (hi.symm.trans hprev)
        exact le_of_eq (Option.some.inj (hlast.symm.trans hend))
    exact lt_of_le_of_lt hbelow (selectPage_after (List.mem_of_head? hfirst) hend)

/-- The range of a batch that has the id on its page. -/
theorem inRange_of_page {n : Nat} {lastId : Option Uuid} {id : Uuid}
    (h : id ∈ (tables n).selectPage a.sql a.clause a.batchSize lastId) :
    inRange (plannedRow (plannedPage n
      ((tables n).selectPage a.sql a.clause a.batchSize lastId))) id := by
  have hne := List.ne_nil_of_mem h
  have hinc : Increasing (fun id : Uuid => id)
      ((tables n).selectPage a.sql a.clause a.batchSize lastId) := selectPage_increasing
  have hf := List.head?_eq_some_head hne
  have hl := List.getLast?_eq_some_getLast hne
  simp only [inRange, plannedRow, plannedPage, hf, hl, Option.any_some, Bool.and_eq_true,
    decide_eq_true_eq]
  exact ⟨hinc.first_le hf h, hinc.le_last hl h⟩

/-- An id that matches at every read lies on a page that has been read, or after the
cursor, which moves at every read. -/
theorem reached_or_ahead {id : Uuid}
    (hmatch : ∀ n, a.Reads tables n → id ∈ a.targetIds (tables n)) (n : Nat) :
    (∃ i b, a.yielded tables i = some b ∧ inRange (plannedRow b) id) ∨
      ∃ lastId, a.walk tables n = some (.filter lastId n) ∧
        (∀ last, lastId = some last → last < id) ∧
          (0 < n → ∃ last, lastId = some last ∧ n ≤ last + 1) := by
  induction n with
  | zero =>
    refine Or.inr ⟨none, ?_, by simp, by simp⟩
    rw [walk, PlanSource.start, a.selected]
  | succ n ih =>
    rcases ih with hfound | ⟨lastId, hwalk, hafter, hcursor⟩
    · exact Or.inl hfound
    · have hid := hmatch n ⟨lastId, n, hwalk⟩
      rcases selectPage_complete hid hafter with hmem | ⟨hfull, hbelow⟩
      · have hne := List.ne_nil_of_mem hmem
        refine Or.inl ⟨n, _, ?_, inRange_of_page hmem⟩
        rw [yielded, hwalk]
        simp [readPage, PlanSource.next, hne]
      · have hne : (tables n).selectPage a.sql a.clause a.batchSize lastId ≠ [] := by
          have := a.positive
          intro hnil
          rw [hnil, List.length_nil] at hfull
          omega
        have hlast := List.getLast?_eq_some_getLast hne
        refine Or.inr ⟨_, ?_, ?_, fun _ => ⟨_, hlast, ?_⟩⟩
        · rw [walk, hwalk]
          simp [readPage, PlanSource.next, hne, hfull]
        · intro last hl
          exact hbelow last (List.mem_of_getLast? hl)
        · cases n with
          | zero => omega
          | succ n =>
            obtain ⟨last, hl, hle⟩ := hcursor (Nat.succ_pos n)
            have hlt := selectPage_after (List.getLast_mem hne) hl
            exact Nat.succ_le_succ (lt_of_le_of_lt (Nat.le_of_succ_le_succ hle) hlt)

/-- An id that matches at every read comes to lie in the range of a batch. -/
theorem exists_inRange {id : Uuid}
    (hmatch : ∀ n, a.Reads tables n → id ∈ a.targetIds (tables n)) :
    ∃ i b, a.yielded tables i = some b ∧ inRange (plannedRow b) id := by
  -- the cursor has passed `id` after `id + 2` reads
  rcases reached_or_ahead hmatch (id + 2) with hfound | ⟨lastId, _, hafter, hcursor⟩
  · exact hfound
  · obtain ⟨last, hl, hle⟩ := hcursor (by omega)
    have hlt : id < last := Nat.le_of_succ_le_succ hle
    exact absurd (hafter last hl) (lt_asymm hlt)

theorem inRange_unique {i j : Nat} {b b' : PlannedBatch} {id : Uuid}
    (hi : a.yielded tables i = some b) (hj : a.yielded tables j = some b')
    (hid : inRange (plannedRow b) id) (hid' : inRange (plannedRow b') id) : i = j := by
  obtain ⟨first, last, hstart, hend, _⟩ := yielded_span hi
  obtain ⟨first', last', hstart', hend', _⟩ := yielded_span hj
  simp only [inRange, plannedRow, hstart, hend, hstart', hend', Option.any_some, Bool.and_eq_true,
    decide_eq_true_eq] at hid hid'
  rcases Nat.lt_trichotomy i j with hlt | heq | hlt
  · have hgap := yielded_increasing hi hj hlt hend hstart'
    exact absurd (hid.2.trans_lt (hgap.trans_le hid'.1)) (lt_irrefl id)
  · exact heq
  · have hgap := yielded_increasing hj hi hlt hend' hstart
    exact absurd (hid'.2.trans_lt (hgap.trans_le hid.1)) (lt_irrefl id)

/-- A range batch loads the ids of its range that match when it executes. -/
theorem loads_iff {n : Nat} {b : PlannedBatch} (h : a.yielded tables n = some b) (t : EntityTable)
    (id : Uuid) :
    (∃ row ∈ a.load t (plannedRow b), row.id = id) ↔
      id ∈ a.targetIds t ∧ inRange (plannedRow b) id := by
  obtain ⟨lastId, _, _, rfl⟩ := yielded_cases h
  constructor
  · rintro ⟨row, hrow, rfl⟩
    obtain ⟨r, hr, rfl⟩ := List.mem_map.mp hrow
    obtain ⟨hmem, hwhere⟩ := EntityTable.mem_select.mp hr
    obtain ⟨hholds, hrange⟩ := Bool.and_eq_true_iff.mp hwhere
    exact ⟨List.mem_map_of_mem (mem_target.mpr ⟨hmem, hholds⟩), hrange⟩
  · rintro ⟨hid, hrange⟩
    obtain ⟨r, hr, rfl⟩ := List.mem_map.mp hid
    obtain ⟨hmem, hholds⟩ := mem_target.mp hr
    refine ⟨_, List.mem_map_of_mem (EntityTable.mem_select.mpr ⟨hmem, ?_⟩), r.toRow_id a.entity⟩
    exact Bool.and_eq_true_iff.mpr ⟨hholds, hrange⟩

end FilterAction

/-- Whatever happens to the table between the page reads, the batches are numbered in order,
their ranges follow one another, and an entity that matches at every read and when its batch
executes is loaded by exactly one batch. -/
theorem keyset_walk_covers_moving_set (a : FilterAction) (tables exec : Nat → EntityTable) :
    (∀ n b, a.yielded tables n = some b → b.index = n ∧ 1 ≤ b.entityCount ∧
      b.entityCount ≤ a.batchSize ∧ (∀ m ≤ n, (a.yielded tables m).isSome) ∧
      ∃ first last, b.cursorStart = some first ∧ b.cursorEnd = some last ∧ first ≤ last) ∧
    (∀ i j b b' last first, a.yielded tables i = some b → a.yielded tables j = some b' → i < j →
      b.cursorEnd = some last → b'.cursorStart = some first → last < first) ∧
    ∀ id, (∀ n, a.Reads tables n → id ∈ a.targetIds (tables n)) →
      (∀ n b, a.yielded tables n = some b → FilterAction.inRange (plannedRow b) id →
        id ∈ a.targetIds (exec n)) →
      ∃! n, a.LoadedBy tables exec id n := by
  refine ⟨?_, ?_, ?_⟩
  · intro n b hb
    obtain ⟨hindex, hpos, hle⟩ := FilterAction.yielded_count hb
    exact ⟨hindex, hpos, hle, FilterAction.yielded_before hb, FilterAction.yielded_span hb⟩
  · intro i j b b' last first hi hj hlt hlast hfirst
    exact FilterAction.yielded_increasing hi hj hlt hlast hfirst
  · intro id hmatch hexec
    obtain ⟨n, b, hb, hrange⟩ := FilterAction.exists_inRange hmatch
    refine ⟨n, ⟨b, hb, (FilterAction.loads_iff hb _ _).mpr ⟨hexec n b hb hrange, hrange⟩⟩, ?_⟩
    rintro m ⟨b', hb', hload⟩
    exact FilterAction.inRange_unique hb' hb ((FilterAction.loads_iff hb' _ _).mp hload).2 hrange

/-- Contact 5 is edited out of the target set, and contact 7 is deleted. -/
def afterEdits : EntityTable where
  rows := [contactRecord 5 "inactive", contactRecord 6 "active"]
  sorted := by simp [Increasing, contactRecord]

/-- Contact 6 is loaded once, although its neighbours change after the first page. -/
theorem keyset_walk_covers_moving_set_edited :
    ∃! n, deactivateOneByOne.LoadedBy (fun n => if n = 0 then threeContacts else afterEdits)
      (fun _ => afterEdits) 6 n := by
  refine (keyset_walk_covers_moving_set deactivateOneByOne _ _).2.2 6 ?_ ?_
  · intro n _
    cases n with
    | zero => decide
    | succ n => exact (by decide : 6 ∈ deactivateOneByOne.targetIds afterEdits)
  · intro n b _ _
    exact (by decide : 6 ∈ deactivateOneByOne.targetIds afterEdits)

end BulkActions
