import BulkActions.BatchRunner
import Mathlib.Data.List.Induction
import Mathlib.Data.List.Perm.Basic

namespace BulkActions

/-- The rows of a batch with a given key. -/
def rowsOf (text : PyText) (field : String) (rows : List EntityRow) (key : String) :
    List EntityRow :=
  rows.filter (fun row => keyOf text field row = some key)

/-- The keys of a batch in the order in which they occur first. -/
def keysOf (text : PyText) (field : String) (rows : List EntityRow) : List String :=
  (rows.filterMap (keyOf text field)).eraseDups

theorem eraseDups_concat {α : Type} [DecidableEq α] (keys : List α) (key : α) :
    (keys ++ [key]).eraseDups =
      if key ∈ keys then keys.eraseDups else keys.eraseDups ++ [key] := by
  rw [List.eraseDups_append]
  by_cases hkey : key ∈ keys <;> simp [List.removeAll, hkey, List.eraseDups_cons]

theorem nodup_eraseDups {α : Type} [DecidableEq α] (keys : List α) : keys.eraseDups.Nodup := by
  induction keys using List.reverseRecOn with
  | nil => exact List.nodup_nil
  | append_singleton keys key ih =>
    rw [eraseDups_concat]
    split_ifs with hkey
    · exact ih
    · exact List.nodup_append.mpr ⟨ih, by simp, by
        intro k hk k' hk'
        rw [List.mem_singleton.mp hk']
        rintro rfl
        exact hkey (List.mem_eraseDups.mp hk)⟩

theorem appendKeyed_map (key : String) (row : EntityRow) (group : String → List EntityRow)
    (keys : List String) (nodup : keys.Nodup) :
    appendKeyed key row (keys.map (fun k => (k, group k))) =
      if key ∈ keys then keys.map (fun k => (k, if k = key then group k ++ [row] else group k))
      else keys.map (fun k => (k, group k)) ++ [(key, [row])] := by
  induction keys with
  | nil => rfl
  | cons k keys ih =>
    obtain ⟨hk, nodup⟩ := List.nodup_cons.mp nodup
    simp only [List.map_cons, appendKeyed]
    by_cases hkey : k = key
    · subst hkey
      have hrest : keys.map (fun k' => (k', if k' = k then group k' ++ [row] else group k')) =
          keys.map (fun k' => (k', group k')) := by
        refine List.map_congr_left (fun k' hk' => ?_)
        rw [if_neg (fun h : k' = k => hk (h ▸ hk'))]
      simp [hrest]
    · rw [if_neg hkey, ih nodup]
      have hne : ¬ key = k := fun h => hkey h.symm
      by_cases hmem : key ∈ keys <;> simp [hmem, hkey, hne]

theorem rowsOf_concat (text : PyText) (field : String) (rows : List EntityRow) (row : EntityRow)
    (k : String) :
    rowsOf text field (rows ++ [row]) k =
      if keyOf text field row = some k then rowsOf text field rows k ++ [row]
      else rowsOf text field rows k := by
  rw [rowsOf, List.filter_append]
  by_cases hkey : keyOf text field row = some k <;> simp [hkey, rowsOf]

theorem mem_keysOf {text : PyText} {field : String} {rows : List EntityRow} {k : String} :
    k ∈ keysOf text field rows ↔ ∃ row ∈ rows, keyOf text field row = some k := by
  rw [keysOf, List.mem_eraseDups, List.mem_filterMap]

theorem nodup_keysOf (text : PyText) (field : String) (rows : List EntityRow) :
    (keysOf text field rows).Nodup :=
  nodup_eraseDups _

/-- The dict that the grouping loop builds. -/
theorem keyedRows_eq (text : PyText) (field : String) (rows : List EntityRow) :
    keyedRows text field rows =
      (keysOf text field rows).map (fun k => (k, rowsOf text field rows k)) := by
  induction rows using List.reverseRecOn with
  | nil => rfl
  | append_singleton rows row ih =>
    rw [keyedRows, List.foldl_append, List.foldl_cons, List.foldl_nil, ← keyedRows, ih]
    cases hkey : keyOf text field row with
    | none => simp [keysOf, rowsOf_concat, hkey]
    | some key =>
      have hkeys : keysOf text field (rows ++ [row]) =
          if key ∈ keysOf text field rows then keysOf text field rows
          else keysOf text field rows ++ [key] := by
        rw [keysOf, List.filterMap_append, List.filterMap_cons_some hkey, List.filterMap_nil,
          eraseDups_concat]
        simp only [keysOf, List.mem_eraseDups]
      dsimp only
      rw [appendKeyed_map _ _ _ _ (nodup_keysOf text field rows), hkeys]
      by_cases hmem : key ∈ keysOf text field rows
      · rw [if_pos hmem, if_pos hmem]
        refine List.map_congr_left (fun k _ => ?_)
        rw [rowsOf_concat, hkey]
        simp only [Option.some.injEq, eq_comm]
      · have hnone : rowsOf text field rows key = [] := by
          refine List.filter_eq_nil_iff.mpr (fun r hr hk => ?_)
          exact hmem (mem_keysOf.mpr ⟨r, hr, of_decide_eq_true hk⟩)
        rw [if_neg hmem, if_neg hmem, List.map_append]
        congr 1
        · refine List.map_congr_left (fun k hk => ?_)
          rw [rowsOf_concat, hkey, if_neg]
          rintro ⟨rfl⟩
          exact hmem hk
        · simp [rowsOf_concat, hkey, hnone]

theorem appendKeyed_perm (key : String) (row : EntityRow) (keyed : List (String × List EntityRow)) :
    ((appendKeyed key row keyed).flatMap Prod.snd).Perm (keyed.flatMap Prod.snd ++ [row]) := by
  induction keyed with
  | nil => exact .refl _
  | cons group keyed ih =>
    simp only [appendKeyed]
    split_ifs
    · simp only [List.flatMap_cons, List.append_assoc]
      exact List.perm_append_comm.append_left _
    · simp only [List.flatMap_cons, List.append_assoc]
      exact ih.append_left _

/-- Every row is in a group, or has no key. -/
theorem keyedRows_perm (text : PyText) (field : String) (rows : List EntityRow) :
    (missingRows text field rows ++ (keyedRows text field rows).flatMap Prod.snd).Perm rows := by
  induction rows using List.reverseRecOn with
  | nil => exact .refl _
  | append_singleton rows row ih =>
    simp only [keyedRows, missingRows, List.foldl_append, List.foldl_cons, List.foldl_nil,
      List.filter_append] at ih ⊢
    cases hkey : keyOf text field row with
    | none =>
      simp only [hkey, Option.isNone_none, List.filter_cons_of_pos, List.filter_nil,
        List.append_assoc]
      exact (List.perm_append_comm.append_left _).trans (by simpa using ih.append_right [row])
    | some key =>
      have hnone : [row].filter (fun row => (keyOf text field row).isNone) = [] := by simp [hkey]
      rw [hnone, List.append_nil]
      have hkeyed := (appendKeyed_perm key row (keyedRows text field rows)).append_left
        (missingRows text field rows)
      rw [← List.append_assoc] at hkeyed
      exact hkeyed.trans (ih.append_right [row])

theorem group_split (claimed : List String) (group : String × List EntityRow) :
    groupWinners claimed group ++ (groupLosers claimed group).map Prod.fst = group.2 := by
  have hfst : ∀ rows : List EntityRow,
      (rows.map (fun row => (row, group.1))).map Prod.fst = rows := by
    simp [Function.comp_def]
  unfold groupWinners groupLosers
  rw [hfst]
  split_ifs
  · exact List.take_append_drop 1 group.2
  · rfl

/-- The ledger splits the loaded rows into winners and duplicates. -/
theorem partitionDuplicates_perm (text : PyText) (field : String) (claimed : List String)
    (rows : List EntityRow) :
    ((partitionDuplicates text field rows claimed).uniqueRows ++
      (partitionDuplicates text field rows claimed).duplicates.map Prod.fst).Perm rows := by
  have hgroups := List.flatMap_append_perm (keyedRows text field rows) (groupWinners claimed)
    (fun group => (groupLosers claimed group).map Prod.fst)
  simp only [group_split] at hgroups
  simp only [partitionDuplicates, List.map_flatMap, List.append_assoc]
  exact (hgroups.append_left _).trans (keyedRows_perm text field rows)

/-- The keys of the INSERT are the keys of the batch. -/
theorem mem_insertKeys {text : PyText} {field : String} {rows : List EntityRow} {k : String} :
    k ∈ insertKeys text field rows ↔ ∃ row ∈ rows, keyOf text field row = some k := by
  rw [insertKeys, sortedNames, List.mem_mergeSort, keyedRows_eq, List.map_map, ← mem_keysOf]
  simp [Function.comp_def]

section Partition

variable (text : PyText) (field : String) (rows : List EntityRow) (claimed : List String)

theorem uniqueRows_eq :
    (partitionDuplicates text field rows claimed).uniqueRows =
      missingRows text field rows ++ (keysOf text field rows).flatMap (fun k =>
        if k ∈ claimed then (rowsOf text field rows k).take 1 else []) := by
  simp only [partitionDuplicates, keyedRows_eq, List.flatMap_map]
  rfl

theorem duplicates_eq :
    (partitionDuplicates text field rows claimed).duplicates =
      (keysOf text field rows).flatMap (fun k =>
        (if k ∈ claimed then (rowsOf text field rows k).drop 1
          else rowsOf text field rows k).map (fun row => (row, k))) := by
  simp only [partitionDuplicates, keyedRows_eq, List.flatMap_map]
  rfl

theorem mem_of_mem_uniqueRows {row : EntityRow}
    (h : row ∈ (partitionDuplicates text field rows claimed).uniqueRows) : row ∈ rows := by
  rw [uniqueRows_eq] at h
  rcases List.mem_append.mp h with h | h
  · exact (List.mem_filter.mp h).1
  · obtain ⟨k, _, h⟩ := List.mem_flatMap.mp h
    split_ifs at h
    · exact (List.mem_filter.mp (List.mem_of_mem_take h)).1
    · simp at h

/-- Of what is collected key by key, the part that belongs to one key. -/
theorem filter_flatMap_key {β : Type} {keys : List String} (nodup : keys.Nodup)
    {f : String → List β} {p : β → Bool} {k : String} (own : ∀ x ∈ f k, p x)
    (others : ∀ k', k' ≠ k → ∀ x ∈ f k', p x = false) :
    (keys.flatMap f).filter p = if k ∈ keys then f k else [] := by
  induction keys with
  | nil => rfl
  | cons key keys ih =>
    obtain ⟨hkey, nodup⟩ := List.nodup_cons.mp nodup
    rw [List.flatMap_cons, List.filter_append, ih nodup]
    by_cases hk : key = k
    · subst hk
      rw [List.filter_eq_self.mpr own]
      simp [hkey]
    · have hnone : (f key).filter p = [] :=
        List.filter_eq_nil_iff.mpr (fun x hx => by simp [others key hk x hx])
      simp [hnone, Ne.symm hk]

theorem keyOf_of_mem_rowsOf {k : String} {row : EntityRow}
    (h : row ∈ rowsOf text field rows k) : keyOf text field row = some k :=
  of_decide_eq_true (List.mem_filter.mp h).2

theorem rowsOf_eq_nil {k : String} (h : k ∉ keysOf text field rows) :
    rowsOf text field rows k = [] := by
  refine List.filter_eq_nil_iff.mpr (fun row hrow hk => h ?_)
  exact mem_keysOf.mpr ⟨row, hrow, of_decide_eq_true hk⟩

/-- A batch that has claimed a key executes the first of its rows with that key, and no row
with any other key. -/
theorem rowsOf_uniqueRows (k : String) :
    rowsOf text field (partitionDuplicates text field rows claimed).uniqueRows k =
      if k ∈ claimed then (rowsOf text field rows k).take 1 else [] := by
  have hmissing : rowsOf text field (missingRows text field rows) k = [] := by
    refine List.filter_eq_nil_iff.mpr (fun row hrow hk => ?_)
    have hnone := (List.mem_filter.mp hrow).2
    simp [of_decide_eq_true hk] at hnone
  have hkeyed := filter_flatMap_key (nodup_keysOf text field rows) (k := k)
    (f := fun k => if k ∈ claimed then (rowsOf text field rows k).take 1 else [])
    (p := fun row => keyOf text field row = some k) (by
      intro row hrow
      split_ifs at hrow
      · exact decide_eq_true (keyOf_of_mem_rowsOf text field rows (List.mem_of_mem_take hrow))
      · simp at hrow) (by
      intro k' hk' row hrow
      split_ifs at hrow
      · have := keyOf_of_mem_rowsOf text field rows (List.mem_of_mem_take hrow)
        simp [this, hk']
      · simp at hrow)
  rw [uniqueRows_eq, rowsOf, List.filter_append]
  rw [rowsOf] at hmissing
  rw [hmissing, hkeyed, List.nil_append]
  by_cases hk : k ∈ keysOf text field rows
  · rw [if_pos hk]
  · simp [hk, rowsOf_eq_nil text field rows hk]

/-- The rows it reports as duplicates of a key. -/
theorem filter_duplicates (k : String) :
    (partitionDuplicates text field rows claimed).duplicates.filter (fun d => d.2 = k) =
      (if k ∈ claimed then (rowsOf text field rows k).drop 1
        else rowsOf text field rows k).map (fun row => (row, k)) := by
  rw [duplicates_eq, filter_flatMap_key (nodup_keysOf text field rows) (k := k)]
  · by_cases hk : k ∈ keysOf text field rows
    · rw [if_pos hk]
    · simp [hk, rowsOf_eq_nil text field rows hk]
  · intro d hd
    obtain ⟨_, _, rfl⟩ := List.mem_map.mp hd
    exact decide_eq_true rfl
  · intro k' hk' d hd
    obtain ⟨_, _, rfl⟩ := List.mem_map.mp hd
    exact decide_eq_false hk'

theorem mem_uniqueRows_of_missing {row : EntityRow} (hrow : row ∈ rows)
    (h : keyOf text field row = none) :
    row ∈ (partitionDuplicates text field rows claimed).uniqueRows := by
  rw [uniqueRows_eq]
  exact List.mem_append_left _ (List.mem_filter.mpr ⟨hrow, by simp [h]⟩)

end Partition

theorem mem_of_mem_executedRows {text : PyText} {config : Config} {rows : List EntityRow}
    {claimed : List String} {row : EntityRow}
    (h : row ∈ executedRows text config rows claimed) : row ∈ rows := by
  unfold executedRows at h
  split at h
  · exact mem_of_mem_uniqueRows text _ rows claimed h
  · exact h

/-- The outcomes that name a key. -/
def BatchResult.naming (result : BatchResult) (field key : String) : List EntityOutcome :=
  result.outcomes.filter (fun o => o.details = some (.key field key))

theorem execute_not_naming (config : Config) (rows : List EntityRow) (affected : List Uuid)
    (field key : String) : (config.execute rows affected).naming field key = [] := by
  refine List.filter_eq_nil_iff.mpr (fun o ho => ?_)
  cases config with
  | update c =>
    rcases List.mem_append.mp ho with ho | ho
    · obtain ⟨row, _, rfl⟩ := List.mem_map.mp ho
      simp [BulkUpdateAction.noChange, EntityOutcome.skipped]
    · obtain ⟨id, _, rfl⟩ := List.mem_map.mp ho
      unfold BulkUpdateAction.written
      split_ifs <;> simp [EntityOutcome.success, EntityOutcome.failed]
  | delete c =>
    obtain ⟨id, _, rfl⟩ := List.mem_map.mp ho
    unfold BulkDeleteAction.removed
    split_ifs <;> simp [EntityOutcome.success, EntityOutcome.failed]

/-- A batch logs a key for the rows with that key that it does not execute. -/
theorem runBatch_naming {text : PyText} {config : Config} {field : String}
    (active : config.activeDedup = some field) (entityCount : Nat) (rows : List EntityRow)
    (claimed : List String) (affected : List Uuid) (key : String) :
    (runBatch text config entityCount rows claimed affected).naming field key =
      (if key ∈ claimed then (rowsOf text field rows key).drop 1
        else rowsOf text field rows key).map (fun row => duplicateOutcome field (row, key)) := by
  have hdrift : (List.replicate (entityCount - rows.length) driftOutcome).filter
      (fun o => o.details = some (.key field key)) = [] := by
    refine List.filter_eq_nil_iff.mpr (fun o ho => ?_)
    rw [List.eq_of_mem_replicate ho]
    simp [driftOutcome, EntityOutcome.skipped]
  have hexec := execute_not_naming config (executedRows text config rows claimed) affected field key
  have hnames : (fun o : EntityOutcome => decide (o.details = some (.key field key))) ∘
      duplicateOutcome field = fun d => decide (d.2 = key) := by
    funext d
    simp [duplicateOutcome, EntityOutcome.skipped]
  rw [BatchResult.naming] at hexec
  rw [BatchResult.naming, runBatch, List.filter_append, List.filter_append, hdrift, hexec,
    duplicateOutcomes, active]
  dsimp only
  rw [List.filter_map, hnames, filter_duplicates, List.map_map, List.nil_append, List.append_nil]
  rfl

end BulkActions
