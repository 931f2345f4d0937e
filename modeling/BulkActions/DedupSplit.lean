import BulkActions.DedupFacts

namespace BulkActions

/-- `partition_duplicates`, and the keys of the action's ledger after its INSERT. -/
def partitionAndClaim (text : PyText) (field : String) (rows : List EntityRow)
    (ledger : String → Bool) : DedupResult × (String → Bool) :=
  let missing := missingRows text field rows
  if (keyedRows text field rows).isEmpty then (⟨missing, [], missing⟩, ledger)
  else
    let keys := insertKeys text field rows
    (partitionDuplicates text field rows (keys.filter (fun key => !ledger key)),
      fun key => ledger key || key ∈ keys)

/-- The split of some rows by a ledger, and the ledger behind it. -/
structure ExactSplit (text : PyText) (field : String) (rows : List EntityRow)
    (ledger : String → Bool) (result : DedupResult) (ledger' : String → Bool) : Prop where
  perm : (result.uniqueRows ++ result.duplicates.map Prod.fst).Perm rows
  missing : result.uniqueRows.filter (fun row => (keyOf text field row).isNone) =
    rows.filter (fun row => (keyOf text field row).isNone)
  winners : ∀ key, rowsOf text field result.uniqueRows key =
    if ledger key then [] else (rows.find? (fun row => keyOf text field row = some key)).toList
  own : ∀ d ∈ result.duplicates, keyOf text field d.1 = some d.2 ∧ ledger' d.2
  grows : ∀ key, ledger' key ↔ ledger key ∨ ∃ row ∈ rows, keyOf text field row = some key

section Split

variable (text : PyText) (field : String) (rows : List EntityRow) (ledger : String → Bool)

/-- The early return is what the second pass makes of no groups. -/
theorem partitionAndClaim_eq :
    partitionAndClaim text field rows ledger =
      (partitionDuplicates text field rows
          ((insertKeys text field rows).filter (fun key => !ledger key)),
        fun key => ledger key || key ∈ insertKeys text field rows) := by
  unfold partitionAndClaim
  dsimp only
  split_ifs with hempty
  · have hnone : keyedRows text field rows = [] := List.isEmpty_iff.mp hempty
    simp [partitionDuplicates, insertKeys, sortedNames, hnone]
  · rfl

theorem filter_missing_uniqueRows (claimed : List String) :
    (partitionDuplicates text field rows claimed).uniqueRows.filter
        (fun row => (keyOf text field row).isNone) =
      rows.filter (fun row => (keyOf text field row).isNone) := by
  have hkeyed : ((keysOf text field rows).flatMap (fun k =>
      if k ∈ claimed then (rowsOf text field rows k).take 1 else [])).filter
        (fun row => (keyOf text field row).isNone) = [] := by
    refine List.filter_eq_nil_iff.mpr (fun row hrow => ?_)
    obtain ⟨k, _, hrow⟩ := List.mem_flatMap.mp hrow
    split_ifs at hrow
    · simp [keyOf_of_mem_rowsOf text field rows (List.mem_of_mem_take hrow)]
    · cases hrow
  rw [uniqueRows_eq, List.filter_append, hkeyed, List.append_nil, missingRows, List.filter_filter]
  simp

/-- The first row of a key, as the second pass takes it. -/
theorem take_one_rowsOf (key : String) :
    (rowsOf text field rows key).take 1 =
      (rows.find? (fun row => keyOf text field row = some key)).toList := by
  rw [List.take_one, rowsOf, List.head?_filter]

theorem mem_of_mem_duplicates {claimed : List String} {d : EntityRow × String}
    (h : d ∈ (partitionDuplicates text field rows claimed).duplicates) :
    d.2 ∈ keysOf text field rows ∧ d.1 ∈ rowsOf text field rows d.2 := by
  rw [duplicates_eq] at h
  obtain ⟨k, hk, h⟩ := List.mem_flatMap.mp h
  obtain ⟨row, hrow, rfl⟩ := List.mem_map.mp h
  refine ⟨hk, ?_⟩
  split_ifs at hrow
  · exact List.mem_of_mem_drop hrow
  · exact hrow

/-- The grouping, the claim and the second pass over the groups agree. -/
theorem partition_exact :
    ExactSplit text field rows ledger (partitionAndClaim text field rows ledger).1
      (partitionAndClaim text field rows ledger).2 := by
  rw [partitionAndClaim_eq]
  refine ⟨partitionDuplicates_perm .., filter_missing_uniqueRows .., fun key => ?_, fun d hd => ?_,
    fun key => ?_⟩
  · rw [rowsOf_uniqueRows]
    cases hledger : ledger key with
    | true => simp [hledger]
    | false =>
      simp only [List.mem_filter, hledger, Bool.not_false, and_true, Bool.false_eq_true, if_false]
      by_cases hkey : key ∈ insertKeys text field rows
      · rw [if_pos hkey, take_one_rowsOf]
      · have hnone : rowsOf text field rows key = [] := by
          apply rowsOf_eq_nil
          rwa [mem_keysOf, ← mem_insertKeys]
        rw [if_neg hkey, ← take_one_rowsOf, hnone, List.take_nil]
  · obtain ⟨hkey, hrow⟩ := mem_of_mem_duplicates text field rows hd
    rw [mem_keysOf, ← mem_insertKeys] at hkey
    exact ⟨keyOf_of_mem_rowsOf text field rows hrow, by simp [hkey]⟩
  · rw [← mem_insertKeys]
    simp

end Split

end BulkActions
