import BulkActions.EntityOutcomes
import Mathlib.Data.List.Dedup

namespace BulkActions

open Keyset

namespace PlannedBatch

/-- The ids that a batch is planned with. -/
def ids (b : PlannedBatch) : List Uuid := b.entityIds.getD []

end PlannedBatch

section Chunks

variable {entityIds : List Uuid} {batchSize : Nat}

/-- The number of batches of so many ids. -/
def chunkCount (entityIds : List Uuid) (batchSize : Nat) : Nat :=
  (entityIds.eraseDups.length + batchSize - 1) / batchSize

/-- The batches are the pages of the distinct ids in their first order, each one sorted. -/
theorem planFromIds_eq (entityIds : List Uuid) (batchSize : Nat) :
    planFromIds entityIds batchSize =
      (List.range (chunkCount entityIds batchSize)).map
        (fun i => plannedChunk i (pageAt batchSize i entityIds.eraseDups)) := by
  apply List.ext_getElem
  · simp [planFromIds, rangeStep, chunkCount]
  · intro i h h'
    simp [planFromIds, rangeStep, pageAt, Nat.mul_comm]

theorem length_planFromIds (entityIds : List Uuid) (batchSize : Nat) :
    (planFromIds entityIds batchSize).length = chunkCount entityIds batchSize := by
  rw [planFromIds_eq, List.length_map, List.length_range]

/-- All the distinct ids fall on those pages, and none of these is empty. -/
theorem chunkCount_bounds (hb : 1 ≤ batchSize) :
    entityIds.eraseDups.length ≤ chunkCount entityIds batchSize * batchSize ∧
      ∀ i < chunkCount entityIds batchSize, i * batchSize < entityIds.eraseDups.length := by
  unfold chunkCount
  generalize entityIds.eraseDups.length = n
  constructor
  · have hdiv := Nat.div_add_mod (n + batchSize - 1) batchSize
    have hmod := Nat.mod_lt (n + batchSize - 1) hb
    rw [Nat.mul_comm] at hdiv
    omega
  · intro i hi
    have hle := (Nat.le_div_iff_mul_le hb).mp (Nat.succ_le_of_lt hi)
    rw [Nat.succ_mul] at hle
    omega

theorem getElem?_planFromIds {i : Nat} {b : PlannedBatch}
    (h : (planFromIds entityIds batchSize)[i]? = some b) :
    i < chunkCount entityIds batchSize ∧
      b = plannedChunk i (pageAt batchSize i entityIds.eraseDups) := by
  rw [planFromIds_eq, List.getElem?_map, Option.map_eq_some_iff] at h
  obtain ⟨j, hj, rfl⟩ := h
  obtain ⟨hlt, rfl⟩ := List.getElem?_eq_some_iff.mp hj
  rw [List.length_range] at hlt
  exact ⟨hlt, by rw [List.getElem_range]⟩

theorem mem_planFromIds {b : PlannedBatch} (h : b ∈ planFromIds entityIds batchSize) :
    ∃ i < chunkCount entityIds batchSize,
      b = plannedChunk i (pageAt batchSize i entityIds.eraseDups) := by
  obtain ⟨i, hi⟩ := List.mem_iff_getElem?.mp h
  exact ⟨i, getElem?_planFromIds hi⟩

end Chunks

theorem plannedChunk_ids_perm (index : Nat) (chunk : List Uuid) :
    (plannedChunk index chunk).ids.Perm chunk :=
  List.mergeSort_perm chunk _

/-- Sorting distinct ids puts them in strictly increasing order. -/
theorem plannedChunk_increasing {index : Nat} {chunk : List Uuid} (h : chunk.Nodup) :
    Increasing id (plannedChunk index chunk).ids := by
  have hsorted : (plannedChunk index chunk).ids.Pairwise (· ≤ ·) :=
    (List.pairwise_mergeSort (by simpa using fun _ _ _ => Nat.le_trans)
      (by simpa using Nat.le_total) chunk).imp (fun hle => by simpa using hle)
  have hne : (plannedChunk index chunk).ids.Pairwise (· ≠ ·) :=
    (plannedChunk_ids_perm index chunk).nodup_iff.mpr h
  exact (hsorted.and hne).imp (fun hboth => Nat.lt_of_le_of_ne hboth.1 hboth.2)

/-- The batches of an explicit selection. -/
structure Partitions (entityIds : List Uuid) (batchSize : Nat) (plan : List PlannedBatch) :
    Prop where
  indices : plan.map PlannedBatch.index = List.range plan.length
  covered : (plan.flatMap PlannedBatch.ids).Perm entityIds.dedup
  disjoint : ∀ (i j : Nat) (b b' : PlannedBatch), plan[i]? = some b → plan[j]? = some b' →
    ∀ id ∈ b.ids, id ∈ b'.ids → i = j
  named : ∀ b ∈ plan, b.entityIds = some b.ids ∧ b.ids ≠ []
  increasing : ∀ b ∈ plan, b.ids.Pairwise (· < ·)
  cursors : ∀ b ∈ plan, ∃ first last, b.cursorStart = some first ∧ b.cursorEnd = some last ∧
    first ∈ b.ids ∧ last ∈ b.ids ∧ ∀ id ∈ b.ids, first ≤ id ∧ id ≤ last
  counts : ∀ b ∈ plan, b.entityCount = b.ids.length ∧ b.entityCount ≤ batchSize
  full : ∀ (i : Nat) (b : PlannedBatch), plan[i]? = some b → i + 1 < plan.length →
    b.entityCount = batchSize

section Partition

variable {entityIds : List Uuid} {batchSize : Nat}

theorem mem_chunk {i : Nat} {x : Uuid} :
    x ∈ (plannedChunk i (pageAt batchSize i entityIds.eraseDups)).ids ↔
      x ∈ pageAt batchSize i entityIds.eraseDups :=
  (plannedChunk_ids_perm i _).mem_iff

/-- The ids of the batches, one after the other, are the distinct ids. -/
theorem planFromIds_covered (hb : 1 ≤ batchSize) :
    ((planFromIds entityIds batchSize).flatMap PlannedBatch.ids).Perm entityIds.dedup := by
  have hpages : ((List.range (chunkCount entityIds batchSize)).flatMap
      (fun i => (plannedChunk i (pageAt batchSize i entityIds.eraseDups)).ids)).Perm
        entityIds.eraseDups := by
    refine (List.Perm.flatMap_left _ (fun i _ => plannedChunk_ids_perm i _)).trans ?_
    rw [flatMap_pageAt, List.take_of_length_le (chunkCount_bounds hb).1]
  have hdedup : entityIds.eraseDups.Perm entityIds.dedup :=
    (List.perm_ext_iff_of_nodup (nodup_eraseDups _) (List.nodup_dedup _)).mpr (by simp)
  rw [planFromIds_eq, List.flatMap_map]
  exact hpages.trans hdedup

theorem planFromIds_disjoint (hb : 1 ≤ batchSize) {i j : Nat} {b b' : PlannedBatch}
    (hi : (planFromIds entityIds batchSize)[i]? = some b)
    (hj : (planFromIds entityIds batchSize)[j]? = some b') {x : Uuid} (hx : x ∈ b.ids)
    (hx' : x ∈ b'.ids) : i = j := by
  obtain ⟨_, rfl⟩ := getElem?_planFromIds hi
  obtain ⟨_, rfl⟩ := getElem?_planFromIds hj
  rw [mem_chunk] at hx hx'
  exact (existsUnique_page hb (nodup_eraseDups _) (mem_of_mem_pageAt hx)).unique hx hx'

theorem planFromIds_ne_nil (hb : 1 ≤ batchSize) {b : PlannedBatch}
    (h : b ∈ planFromIds entityIds batchSize) : b.ids ≠ [] := by
  obtain ⟨i, hi, rfl⟩ := mem_planFromIds h
  intro hnil
  have hempty : pageAt batchSize i entityIds.eraseDups = [] :=
    (hnil ▸ plannedChunk_ids_perm i (pageAt batchSize i entityIds.eraseDups)).nil_eq.symm
  have hlt := (chunkCount_bounds hb).2 i hi
  rw [pageAt_eq_nil hb] at hempty
  omega

theorem planFromIds_increasing {b : PlannedBatch} (h : b ∈ planFromIds entityIds batchSize) :
    Increasing id b.ids := by
  obtain ⟨i, _, rfl⟩ := mem_planFromIds h
  refine plannedChunk_increasing ?_
  exact (nodup_eraseDups entityIds).sublist
    ((List.take_sublist _ _).trans (List.drop_sublist _ _))

theorem planFromIds_cursors (hb : 1 ≤ batchSize) {b : PlannedBatch}
    (h : b ∈ planFromIds entityIds batchSize) :
    ∃ first last, b.cursorStart = some first ∧ b.cursorEnd = some last ∧
      first ∈ b.ids ∧ last ∈ b.ids ∧ ∀ x ∈ b.ids, first ≤ x ∧ x ≤ last := by
  have hne := planFromIds_ne_nil hb h
  have hincreasing := planFromIds_increasing h
  obtain ⟨i, _, rfl⟩ := mem_planFromIds h
  have hfirst := List.head?_eq_some_head hne
  have hlast := List.getLast?_eq_some_getLast hne
  refine ⟨_, _, hfirst, hlast, List.head_mem hne, List.getLast_mem hne, fun x hx => ⟨?_, ?_⟩⟩
  · exact hincreasing.first_le hfirst hx
  · exact hincreasing.le_last hlast hx

theorem planFromIds_count {i : Nat} {b : PlannedBatch}
    (h : (planFromIds entityIds batchSize)[i]? = some b) :
    b.entityCount = b.ids.length ∧
      b.entityCount = min batchSize (entityIds.eraseDups.length - i * batchSize) := by
  obtain ⟨_, rfl⟩ := getElem?_planFromIds h
  refine ⟨rfl, ?_⟩
  exact (plannedChunk_ids_perm i _).length_eq.trans (length_pageAt _ _ _)

theorem planFromIds_full (hb : 1 ≤ batchSize) {i : Nat} {b : PlannedBatch}
    (h : (planFromIds entityIds batchSize)[i]? = some b)
    (hnext : i + 1 < (planFromIds entityIds batchSize).length) : b.entityCount = batchSize := by
  rw [length_planFromIds] at hnext
  have hlt := (chunkCount_bounds hb).2 (i + 1) hnext
  have hcount := (planFromIds_count h).2
  rw [Nat.succ_mul] at hlt
  omega

theorem planFromIds_indices (entityIds : List Uuid) (batchSize : Nat) :
    (planFromIds entityIds batchSize).map PlannedBatch.index =
      List.range (planFromIds entityIds batchSize).length := by
  rw [length_planFromIds, planFromIds_eq, List.map_map]
  exact List.map_id _

/-- The batches partition the distinct ids of the selection. -/
theorem planFromIds_partitions (entityIds : List Uuid) (hb : 1 ≤ batchSize) :
    Partitions entityIds batchSize (planFromIds entityIds batchSize) where
  indices := planFromIds_indices entityIds batchSize
  covered := planFromIds_covered hb
  disjoint i j b b' hi hj x hx hx' := planFromIds_disjoint hb hi hj hx hx'
  named b h := by
    refine ⟨?_, planFromIds_ne_nil hb h⟩
    obtain ⟨i, _, rfl⟩ := mem_planFromIds h
    rfl
  increasing b h := planFromIds_increasing h
  cursors b h := planFromIds_cursors hb h
  counts b h := by
    obtain ⟨i, hi⟩ := List.mem_iff_getElem?.mp h
    have hcount := planFromIds_count hi
    exact ⟨hcount.1, by omega⟩
  full i b hi hnext := planFromIds_full hb hi hnext

/-- The batches of an explicit selection partition its distinct ids, and load by their ids,
whatever else their rows hold: never an entity that has not been named. -/
theorem explicit_ids_partitioned (entityIds : List Uuid) (hb : 1 ≤ batchSize) :
    Partitions entityIds batchSize (planFromIds entityIds batchSize) ∧
    ∀ b ∈ planFromIds entityIds batchSize, ∀ batch : BulkActionBatch,
      batch.entityIds = b.entityIds → ∀ sql e accountId clause includeDeleted,
      EntityTable.batchWhere sql e accountId clause includeDeleted batch =
        EntityTable.namedWhere e accountId includeDeleted b.ids ∧
      ∀ t, ∀ row ∈ EntityTable.loadBatchRows sql e accountId clause includeDeleted batch t,
        row.id ∈ b.ids ∧ row.id ∈ entityIds := by
  have hplan := planFromIds_partitions entityIds hb
  refine ⟨hplan, fun b h batch hbatch sql e accountId clause includeDeleted => ?_⟩
  obtain ⟨hids, hne⟩ := hplan.named b h
  have hwhere := @batchWhere_named sql e accountId clause includeDeleted batch b.ids
    (hbatch.trans hids) hne
  refine ⟨hwhere, fun t row hrow => ?_⟩
  rw [EntityTable.loadBatchRows, hwhere] at hrow
  obtain ⟨r, hr, rfl⟩ := List.mem_map.mp hrow
  have hnamed := (EntityTable.mem_select.mp hr).2
  simp only [EntityTable.namedWhere, Bool.and_eq_true, decide_eq_true_eq] at hnamed
  have hmem : r.id ∈ (planFromIds entityIds batchSize).flatMap PlannedBatch.ids :=
    List.mem_flatMap.mpr ⟨b, h, hnamed.1.1⟩
  exact ⟨hnamed.1.1, List.mem_dedup.mp (hplan.covered.mem_iff.mp hmem)⟩

theorem explicit_ids_partitioned_sample :
    Partitions [8, 5, 8, 2] 2 (planFromIds [8, 5, 8, 2] 2) ∧
    ∀ b ∈ planFromIds [8, 5, 8, 2] 2, ∀ batch : BulkActionBatch,
      batch.entityIds = b.entityIds → ∀ sql e accountId clause includeDeleted,
      EntityTable.batchWhere sql e accountId clause includeDeleted batch =
        EntityTable.namedWhere e accountId includeDeleted b.ids ∧
      ∀ t, ∀ row ∈ EntityTable.loadBatchRows sql e accountId clause includeDeleted batch t,
        row.id ∈ b.ids ∧ row.id ∈ [8, 5, 8, 2] :=
  explicit_ids_partitioned [8, 5, 8, 2] (by decide)

end Partition

end BulkActions
