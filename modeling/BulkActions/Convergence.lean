import BulkActions.Replanning
import BulkActions.RowSums

namespace BulkActions

open Keyset

/-- The second pass, from the state `s₁` in which the job was redelivered: the rows that were
there are kept, and the first `m` pages of the present target set fill up the others. -/
structure Replan.SecondPass (a : FilterAction) (s s₁ : Replan) (m : Nat) (pc : PlanPc) :
    Prop where
  table : s.table = s₁.table
  processed : s.processed = s₁.processed
  rows : ∀ i, s.batches i =
    (s₁.batches i).or (if i < m then some (a.pageRow s₁.table i) else none)
  pass : pc.At a s₁.table m
  totals : ∀ e b, pc = .done (.planned e b) →
    s.action.totalEntities = e ∧ s.action.totalBatches = b

/-- Until the job is redelivered. -/
def Replan.FirstInv (a : FilterAction) (t : EntityTable) (s : Replan) : Prop :=
  match s.pass with
  | .first pc => ∃ progress m, s.FirstPass a t progress m ∧ pc.At a t m
  | .dead => ∃ progress m, s.FirstPass a t progress m
  | .second _ => True

/-- From then on. -/
def Replan.SecondInv (a : FilterAction) (s s₁ : Replan) : Prop :=
  ∃ m pc, s.pass = .second pc ∧ s.SecondPass a s₁ m pc

section Steps

variable {a : FilterAction} {t : EntityTable} {s s' : Replan}

theorem planStep_cases {now : Timestamp} {pc : PlanPc} {pass : PlanPc → PlanPass}
    (h : s.planStep a now pc pass = some s') :
    ∃ next, pc.resume { page := pc.reads a s.table } {} = .ok next ∧
      s' = { s with
        action := pc.writesTotals now s.action
        batches := pc.flushes s.batches
        queue := s.queue ++ pc.enqueues
        pass := pass next } := by
  unfold Replan.planStep at h
  split at h
  next => simp at h
  next next hn => exact ⟨next, hn, (Option.some.inj h).symm⟩

theorem firstPass_start (a : FilterAction) (t : EntityTable) (action : BulkAction) :
    (Replan.start a t action).FirstPass a t (fun _ => none) 0 where
  table := by simp [FilterAction.Progressed, Replan.start]
  progress := by simp
  rows := by simp [Replan.start]
  present := by simp
  filled := by simp
  processed := by simp [Replan.start, Replan.Covers]
  action := ⟨rfl, rfl⟩

theorem firstInv_start (a : FilterAction) (t : EntityTable) (action : BulkAction) :
    (Replan.start a t action).FirstInv a t :=
  ⟨_, 0, firstPass_start a t action, loop_start _ rfl rfl⟩

theorem first_plan {progress : Uuid → Option Timestamp} {m : Nat} {pc : PlanPc} {now : Timestamp}
    (h : s.FirstPass a t progress m) (hp : pc.At a t m)
    (hs : s.planStep a now pc .first = some s') : s'.FirstInv a t := by
  obtain ⟨next, hn, rfl⟩ := planStep_cases hs
  exact ⟨progress, pc.committed m, h.plan now hp rfl rfl rfl rfl,
    resume_at h.table hp h.behind hn⟩

theorem run_totals (u : ActionUpdate) (now : Timestamp) (action : BulkAction)
    (hu : ∀ e b, u ≠ .setTotals e b) :
    (u.run now action).totalEntities = action.totalEntities ∧
      (u.run now action).totalBatches = action.totalBatches := by
  unfold ActionUpdate.run
  split_ifs
  · cases u with
    | setTotals e b => exact absurd rfl (hu e b)
    | _ => exact ⟨rfl, rfl⟩
  · exact ⟨rfl, rfl⟩

theorem writesTotals_totals (now : Timestamp) (action : BulkAction) (e b : Nat) :
    ((PlanPc.totalsCommit e b).writesTotals now action).totalEntities = e ∧
      ((PlanPc.totalsCommit e b).writesTotals now action).totalBatches = b := by
  have hset : (ActionUpdate.setTotals e b).run now action =
      (ActionUpdate.setTotals e b).set now action := if_pos rfl
  obtain ⟨he, hb⟩ := run_totals (if b = 0 then .closeEmpty else .markStarted) now
    ((ActionUpdate.setTotals e b).run now action) (by intro e' b'; split_ifs <;> simp)
  rw [hset] at he hb
  exact ⟨he, hb⟩

/-- A pass returns right after its totals. -/
theorem resume_done {ext : External} {reply : Reply} {pc : PlanPc} {e b : Nat}
    (hpc : ∀ ret, pc ≠ .done ret) (h : pc.resume ext reply = .ok (.done (.planned e b))) :
    pc = .totalsCommit e b := by
  cases pc with
  | loadAction =>
    simp only [PlanPc.resume] at h
    split at h
    · simp at h
    · split_ifs at h <;> simp at h
  | nextBatch loop =>
    have hne : PlanPc.afterPage loop ext.page ≠ .done (.planned e b) := by
      unfold PlanPc.afterPage PlanPc.afterFlush
      split
      · split_ifs <;> simp
      · dsimp only
        split_ifs <;> simp
    exact absurd (Except.ok.inj h) hne
  | enqueueJobs loop rows last =>
    cases rows with
    | nil =>
      have hne : PlanPc.afterFlush loop last ≠ .done (.planned e b) := by
        unfold PlanPc.afterFlush
        split_ifs <;> simp
      exact absurd (Except.ok.inj h) hne
    | cons row rows => simp [PlanPc.resume] at h
  | totalsCommit e' b' =>
    simp only [PlanPc.resume, Except.ok.injEq, PlanPc.done.injEq, PlanReturn.planned.injEq] at h
    rw [h.1, h.2]
  | done ret => exact absurd rfl (hpc ret)
  | _ => simp [PlanPc.resume] at h

theorem second_plan {s₁ : Replan} {m : Nat} {pc : PlanPc} {now : Timestamp}
    (h : s.SecondPass a s₁ m pc) (hpc : ∀ ret, pc ≠ .done ret)
    (hs : s.planStep a now pc .second = some s') : s'.SecondInv a s₁ := by
  obtain ⟨next, hn, rfl⟩ := planStep_cases hs
  rw [h.table] at hn
  have hself : a.Progressed (fun _ => none) s₁.table s₁.table := by
    simp [FilterAction.Progressed]
  refine ⟨pc.committed m, next, rfl, h.table, h.processed, ?_, ?_, ?_⟩
  · intro i
    dsimp only
    rw [flushes_at h.pass, h.rows i, Option.or_assoc]
    congr 1
    have hle := le_committed pc m
    by_cases hi : i < m
    · simp [hi, lt_of_lt_of_le hi hle]
    · simp [hi, not_lt.mp hi]
  · exact resume_at hself h.pass (by simp) hn
  · rintro e b rfl
    rw [resume_done hpc hn]
    exact writesTotals_totals now s.action e b

theorem firstInv_step {l : ReplanLabel} (h : s.FirstInv a t) (hs : s.step a l = some s') :
    s'.FirstInv a t := by
  unfold Replan.FirstInv at h
  cases l with
  | plan now =>
    simp only [Replan.step] at hs
    split at hs
    next => simp at hs
    next pc hne hpass =>
      simp only [hpass] at h
      obtain ⟨progress, m, hf, hp⟩ := h
      exact first_plan hf hp hs
    next => simp at hs
    next => simp at hs
    next pc hne hpass =>
      obtain ⟨next, _, rfl⟩ := planStep_cases hs
      trivial
  | batch i claimed now =>
    simp only [Replan.step] at hs
    split at hs
    next => simp at hs
    next hne =>
      obtain ⟨row, row', _, _, hrun⟩ := runBatch_cases hs
      unfold Replan.FirstInv
      rw [hrun.pass]
      cases hpass : s.pass with
      | first pc =>
        simp only [hpass] at h
        obtain ⟨progress, m, hf, hp⟩ := h
        obtain ⟨progress', hf'⟩ := hf.batch hs
        exact ⟨progress', m, hf', hp⟩
      | dead =>
        simp only [hpass] at h
        obtain ⟨progress, m, hf⟩ := h
        obtain ⟨progress', hf'⟩ := hf.batch hs
        exact ⟨progress', m, hf'⟩
      | second pc => trivial
  | die =>
    simp only [Replan.step] at hs
    split at hs
    next => simp at hs
    next pc hne hpass =>
      simp only [hpass] at h
      obtain ⟨progress, m, hf, _⟩ := h
      cases Option.some.inj hs
      exact ⟨progress, m, ⟨hf.table, hf.progress, hf.rows, hf.present, hf.filled, hf.processed,
        hf.action⟩⟩
    next => simp at hs
  | redeliver now =>
    simp only [Replan.step] at hs
    split at hs
    next =>
      split_ifs at hs
      cases Option.some.inj hs
      trivial
    next => simp at hs

/-- A job is redelivered only after the first pass has died. -/
theorem redeliver_inv {now : Timestamp} (h : s.FirstInv a t)
    (hs : s.step a (.redeliver now) = some s') :
    (∃ progress m, s.FirstPass a t progress m) ∧ s'.SecondInv a s := by
  unfold Replan.FirstInv at h
  simp only [Replan.step] at hs
  split at hs
  next hpass =>
    simp only [hpass] at h
    refine ⟨h, ?_⟩
    obtain ⟨progress, m, hf⟩ := h
    split_ifs at hs
    cases Option.some.inj hs
    obtain ⟨hc, hn⟩ := run_keeps .setPlanning now s.action
    refine ⟨0, _, rfl, rfl, rfl, by simp, ?_, by simp⟩
    exact loop_start _ (hc.trans hf.action.1) (hn.trans hf.action.2)
  next => simp at hs

theorem secondInv_step {s₁ : Replan} {l : ReplanLabel} (h : s.SecondInv a s₁)
    (hs : s.step a l = some s') : s'.SecondInv a s₁ := by
  obtain ⟨m, pc, hpass, h₂⟩ := h
  cases l with
  | plan now =>
    simp only [Replan.step, hpass] at hs
    split at hs
    next => simp at hs
    next heq => simp at heq
    next => simp at hs
    next => simp at hs
    next pc' hne heq =>
      cases heq
      exact second_plan h₂ hne hs
  | batch i claimed now => simp [Replan.step, hpass] at hs
  | die => simp [Replan.step, hpass] at hs
  | redeliver now => simp [Replan.step, hpass] at hs

end Steps

theorem sum_length_pageAt {α : Type} (n m : Nat) (xs : List α) :
    ∑ i ∈ Finset.range m, (pageAt n i xs).length = (xs.take (m * n)).length := by
  induction m with
  | zero => simp
  | succ m ih => rw [Finset.sum_range_succ, ih, take_succ_mul, List.length_append]

namespace FilterAction

variable {a : FilterAction} {t t' : EntityTable}

theorem page_ids (i : Nat) :
    (a.page t i).map EntityRecord.id = pageAt a.batchSize i (a.targetIds t) :=
  (pageAt_map _ _ _ _).symm

theorem length_targetIds : (a.targetIds t).length = (a.target t).length :=
  List.length_map _

theorem nodup_targetIds : (a.targetIds t).Nodup :=
  target_increasing.nodup_map

/-- A row is on one of the first `m` pages. -/
theorem mem_take_targetIds {r : EntityRecord} (hr : r ∈ t.rows) (m : Nat) :
    r.id ∈ (a.targetIds t).take (m * a.batchSize) ↔ ∃ i < m, r ∈ a.page t i := by
  rw [← flatMap_pageAt, List.mem_flatMap]
  simp only [List.mem_range, ← page_ids, mem_pageIds hr]

theorem pageRow_congr (h : a.targetIds t = a.targetIds t') (i : Nat) :
    a.pageRow t i = a.pageRow t' i := by
  rw [pageRow, pageRow, page_ids, page_ids, h]

/-- The target set in the order of the keys is determined by its members. -/
theorem targetIds_ext (h : ∀ id, id ∈ a.targetIds t ↔ id ∈ a.targetIds t') :
    a.targetIds t = a.targetIds t' := by
  have sorted : ∀ t : EntityTable, (a.targetIds t).Pairwise (· ≤ ·) := fun t =>
    List.pairwise_map.mpr (target_increasing.imp (fun hlt => le_of_lt hlt))
  exact ((List.perm_ext_iff_of_nodup nodup_targetIds nodup_targetIds).mpr h).eq_of_pairwise
    (fun _ _ _ _ hle hge => le_antisymm hle hge) (sorted t) (sorted t')

end FilterAction

section Targets

variable {a : FilterAction} {t : EntityTable} {progress : Uuid → Option Timestamp} {k : Nat}
  {s : Replan}

/-- Executed batches bring no entity into the target set. -/
theorem targetIds_subset (h : s.FirstPass a t progress k) :
    ∀ id ∈ a.targetIds s.table, id ∈ a.targetIds t := by
  intro id hid
  obtain ⟨r', hr', rfl⟩ := List.mem_map.mp hid
  obtain ⟨hrow', hholds⟩ := FilterAction.mem_target.mp hr'
  rw [h.table] at hrow'
  obtain ⟨r, hr, hf⟩ := List.mem_filterMap.mp hrow'
  cases hp : progress r.id with
  | none =>
    simp only [hp, Option.some.injEq] at hf
    subst hf
    exact List.mem_map_of_mem (FilterAction.mem_target.mpr ⟨hr, hholds⟩)
  | some now =>
    simp only [hp] at hf
    obtain ⟨i, hi, hmem⟩ := h.behind r hr (by simp [hp])
    rw [Config.apply_id hf]
    exact List.mem_map_of_mem (FilterAction.mem_target_of_page hmem)

/-- An entity that has left the target set was on the page of a completed batch. -/
theorem covers_of_left (h : s.FirstPass a t progress k) {r : EntityRecord} (hr : r ∈ a.target t)
    (left : r.id ∉ a.targetIds s.table) : s.Covers a t r := by
  obtain ⟨hrow, hholds⟩ := FilterAction.mem_target.mp hr
  by_contra hcov
  have hnone : progress r.id = none := by
    by_contra hne
    exact hcov (h.progress r hrow hne)
  have hkept : r ∈ s.table.rows := by
    rw [h.table]
    exact List.mem_filterMap.mpr ⟨r, hrow, by rw [hnone]⟩
  exact left (List.mem_map_of_mem (FilterAction.mem_target.mpr ⟨hkept, hholds⟩))

theorem page_of_covers (h : s.FirstPass a t progress k) {r : EntityRecord}
    (hc : s.Covers a t r) : ∃ i < k, r ∈ a.page t i := by
  obtain ⟨i, b, hb, _, hmem⟩ := hc
  exact ⟨i, (h.rows i b hb).1, hmem⟩

end Targets

/-- What the second pass is to leave behind: an entity that has stayed in the target set and
has not been processed lies in the id range of exactly one batch row that is not completed,
and the totals are those of the batch rows. -/
structure Replan.Converged (a : FilterAction) (t : EntityTable) (s : Replan) : Prop where
  covered : ∀ id ∈ a.targetIds t, id ∈ a.targetIds s.table → id ∉ s.processed →
    ∃! i, ∃ b, s.batches i = some b ∧ b.status ≠ .completed ∧ FilterAction.inRange b id
  totals : ∃ n, (∀ i, (s.batches i).isSome → i < n) ∧
    s.action.totalBatches = rowSum n (fun row => if row.isSome then 1 else 0) s.batches ∧
    s.action.totalEntities =
      rowSum n (fun row => (row.map BulkActionBatch.entityCount).getD 0) s.batches

section Converged

variable {a : FilterAction} {t : EntityTable} {progress : Uuid → Option Timestamp} {k m : Nat}
  {s s₁ : Replan}

/-- A batch row in the end: one that was there when the job was redelivered, or the row of a
page of the present target set. -/
theorem final_row (hf : s₁.FirstPass a t progress k) (h : ∀ i, s.batches i =
      (s₁.batches i).or (if i < m then some (a.pageRow s₁.table i) else none))
    {i : Nat} {b : BulkActionBatch} (hb : s.batches i = some b) :
    (i < k ∧ s₁.batches i = some b ∧ b.SameSpan (a.pageRow t i)) ∨
      (k ≤ i ∧ i < m ∧ b = a.pageRow s₁.table i) := by
  rw [h i] at hb
  cases hold : s₁.batches i with
  | some b' =>
    rw [hold, Option.some_or] at hb
    cases Option.some.inj hb
    exact Or.inl ⟨(hf.rows i b hold).1, rfl, (hf.rows i b hold).2⟩
  | none =>
    rw [hold, Option.none_or] at hb
    split_ifs at hb with hi
    refine Or.inr ⟨?_, hi, (Option.some.inj hb).symm⟩
    by_contra hlt
    have hsome := hf.present i (not_le.mp hlt)
    simp [hold] at hsome

/-- While the target set is the same, the second pass repeats the first. -/
theorem final_row_same (hf : s₁.FirstPass a t progress k) (h : ∀ i, s.batches i =
      (s₁.batches i).or (if i < m then some (a.pageRow s₁.table i) else none))
    (same : a.targetIds t = a.targetIds s₁.table) {i : Nat} (hi : i < m) :
    ∃ b, s.batches i = some b ∧ b.SameSpan (a.pageRow t i) ∧
      (b.status = .completed → s₁.batches i = some b) := by
  by_cases hik : i < k
  · obtain ⟨b, hb⟩ := Option.isSome_iff_exists.mp (hf.present i hik)
    exact ⟨b, by rw [h i, hb, Option.some_or], (hf.rows i b hb).2, fun _ => hb⟩
  · have hnone : s₁.batches i = none := by
      by_contra hne
      obtain ⟨b, hb⟩ := Option.ne_none_iff_exists'.mp hne
      exact hik (hf.rows i b hb).1
    refine ⟨a.pageRow t i, ?_, ⟨rfl, rfl, rfl, rfl⟩, ?_⟩
    · rw [h i, hnone, Option.none_or, if_pos hi, FilterAction.pageRow_congr same]
    · intro hst
      cases hst

theorem entityCount_pageRow {b : BulkActionBatch} {i : Nat} (h : b.SameSpan (a.pageRow t i)) :
    b.entityCount = (pageAt a.batchSize i (a.targetIds t)).length := by
  rw [h.entityCount, FilterAction.pageRow, FilterAction.page_ids]
  rfl

/-- The second pass converges when no entity has left the target set. -/
theorem converged_of_kept (hf : s₁.FirstPass a t progress k)
    (h : s.SecondPass a s₁ m (.done (.planned (a.target s₁.table).length m)))
    (hpaged : a.Paged s₁.table m) (kept : ∀ id ∈ a.targetIds t, id ∈ a.targetIds s₁.table) :
    s.Converged a t := by
  have same : a.targetIds t = a.targetIds s₁.table :=
    FilterAction.targetIds_ext (fun id => ⟨kept id, targetIds_subset hf id⟩)
  have hlen : (a.target t).length = (a.target s₁.table).length := by
    rw [← FilterAction.length_targetIds, same, FilterAction.length_targetIds]
  have hk : k ≤ m := by
    by_contra hlt
    have hcov := hpaged.covered
    have := hf.filled m (not_le.mp hlt)
    omega
  have bounded : ∀ i, (s.batches i).isSome → i < m := by
    intro i hi
    obtain ⟨b, hb⟩ := Option.isSome_iff_exists.mp hi
    rcases final_row hf h.rows hb with ⟨hik, _⟩ | ⟨_, him, _⟩
    · omega
    · exact him
  obtain ⟨he, hb⟩ := h.totals _ _ rfl
  constructor
  · intro id hid _ hun
    obtain ⟨r, hr, rfl⟩ := List.mem_map.mp hid
    obtain ⟨i, hpage⟩ := FilterAction.exists_page hr
    have hi : i < m := by
      have hlt := lt_of_mem_pageAt hpage
      exact lt_of_mul_lt_mul_right (hlen ▸ hlt |>.trans_le hpaged.covered) (Nat.zero_le _)
    obtain ⟨b, hb, hspan, hdone⟩ := final_row_same hf h.rows same hi
    refine ⟨i, ⟨b, hb, ?_, ?_⟩, ?_⟩
    · intro hst
      rw [h.processed] at hun
      exact hun ((hf.processed r hr).mpr ⟨i, b, hdone hst, hst, hpage⟩)
    · rw [inRange_sameSpan hspan]
      exact (FilterAction.mem_page_iff_inRange hr).mp hpage
    · rintro j ⟨b', hb', _, hrange⟩
      have hj := bounded j (by simp [hb'])
      obtain ⟨b'', hb'', hspan', _⟩ := final_row_same hf h.rows same hj
      cases Option.some.inj (hb'.symm.trans hb'')
      rw [inRange_sameSpan hspan'] at hrange
      exact FilterAction.page_unique ((FilterAction.mem_page_iff_inRange hr).mpr hrange) hpage
  · refine ⟨m, bounded, ?_, ?_⟩
    · rw [hb, rowSum]
      have hone : ∀ i ∈ Finset.range m, (if (s.batches i).isSome then 1 else 0) = 1 := by
        intro i hi
        obtain ⟨b, hb, _⟩ := final_row_same hf h.rows same (Finset.mem_range.mp hi)
        simp [hb]
      rw [Finset.sum_congr rfl hone]
      simp
    · rw [he, rowSum]
      have hcount : ∀ i ∈ Finset.range m, ((s.batches i).map BulkActionBatch.entityCount).getD 0 =
          (pageAt a.batchSize i (a.targetIds t)).length := by
        intro i hi
        obtain ⟨b, hb, hspan, _⟩ := final_row_same hf h.rows same (Finset.mem_range.mp hi)
        simpa [hb] using entityCount_pageRow hspan
      rw [Finset.sum_congr rfl hcount, sum_length_pageAt, List.take_of_length_le,
        FilterAction.length_targetIds, hlen]
      rw [FilterAction.length_targetIds, hlen]
      exact hpaged.covered

/-- When entities have left the target set and the rest no longer fills the rows that were
kept, the rows count more entities than the second pass has found. -/
theorem totals_exceeded (hf : s₁.FirstPass a t progress k)
    (h : s.SecondPass a s₁ m (.done (.planned (a.target s₁.table).length m)))
    (fewer : (a.targetIds s₁.table).length < (a.targetIds t).length)
    (short : (a.targetIds s₁.table).length < k * a.batchSize) : ¬ s.Converged a t := by
  rintro ⟨_, n, bounded, _, hsum⟩
  have hkept : ∀ i < k, ∃ b, s.batches i = some b ∧ b.SameSpan (a.pageRow t i) := by
    intro i hi
    obtain ⟨b, hb⟩ := Option.isSome_iff_exists.mp (hf.present i hi)
    exact ⟨b, by rw [h.rows i, hb, Option.some_or], (hf.rows i b hb).2⟩
  have hsub : Finset.range k ⊆ Finset.range n := by
    intro i hi
    obtain ⟨b, hb, _⟩ := hkept i (Finset.mem_range.mp hi)
    exact Finset.mem_range.mpr (bounded i (by simp [hb]))
  have hle : ((a.targetIds t).take (k * a.batchSize)).length ≤ s.action.totalEntities := by
    rw [hsum, ← sum_length_pageAt, rowSum]
    refine le_trans (le_of_eq (Finset.sum_congr rfl ?_)) (Finset.sum_le_sum_of_subset hsub)
    intro i hi
    obtain ⟨b, hb, hspan⟩ := hkept i (Finset.mem_range.mp hi)
    simpa [hb] using (entityCount_pageRow hspan).symm
  rw [(h.totals _ _ rfl).1, ← FilterAction.length_targetIds, List.length_take] at hle
  omega

/-- Otherwise the rows that were kept push an entity out of the rows of the second pass. -/
theorem entity_uncovered (hf : s₁.FirstPass a t progress k)
    (h : s.SecondPass a s₁ m (.done (.planned (a.target s₁.table).length m)))
    {id : Uuid} (hid : id ∈ a.targetIds t) (left : id ∉ a.targetIds s₁.table)
    (enough : k * a.batchSize ≤ (a.targetIds s₁.table).length) : ¬ s.Converged a t := by
  intro hconv
  obtain ⟨x, hx, hxt⟩ : ∃ x ∈ (a.targetIds s₁.table).take (k * a.batchSize),
      x ∉ (a.targetIds t).take (k * a.batchSize) := by
    by_contra hall
    push Not at hall
    have hnodup := (FilterAction.nodup_targetIds (a := a) (t := s₁.table)).sublist
      (List.take_sublist (k * a.batchSize) _)
    have hperm := (hnodup.subperm hall).perm_of_length_le (by
      simp only [List.length_take]
      omega)
    obtain ⟨r, hr, rfl⟩ := List.mem_map.mp hid
    have hrow := (FilterAction.mem_target.mp hr).1
    have hfirst := (FilterAction.mem_take_targetIds hrow k).mpr
      (page_of_covers hf (covers_of_left hf hr left))
    exact left (List.mem_of_mem_take (hperm.mem_iff.mpr hfirst))
  have hx' := List.mem_of_mem_take hx
  have hxs := targetIds_subset hf x hx'
  obtain ⟨r, hr, rfl⟩ := List.mem_map.mp hxs
  have hrow := (FilterAction.mem_target.mp hr).1
  rw [FilterAction.mem_take_targetIds hrow] at hxt
  have hun : r.id ∉ s.processed := by
    rw [h.processed, hf.processed r hr]
    exact fun hc => hxt (page_of_covers hf hc)
  obtain ⟨i, ⟨b, hb, _, hrange⟩, _⟩ := hconv.covered r.id hxs (h.table ▸ hx') hun
  rcases final_row hf h.rows hb with ⟨hi, _, hspan⟩ | ⟨hi, _, rfl⟩
  · rw [inRange_sameSpan hspan] at hrange
    exact hxt ⟨i, hi, (FilterAction.mem_page_iff_inRange hr).mpr hrange⟩
  · obtain ⟨r', hr', hid'⟩ := List.mem_map.mp hx'
    have hrow' := (FilterAction.mem_target.mp hr').1
    rw [← hid'] at hrange hx
    obtain ⟨j, hj, hpage⟩ := (FilterAction.mem_take_targetIds hrow' k).mp hx
    have hji := FilterAction.page_unique hpage
      ((FilterAction.mem_page_iff_inRange hr').mpr hrange)
    omega

end Converged

/-- Re-planning converges exactly when the batches that ran before the job was redelivered
have taken no entity out of the target set. -/
theorem replanning_converges_iff {a : FilterAction} {t : EntityTable} {action : BulkAction}
    {now : Timestamp} {s₁ s₂ s : Replan} (h₁ : Replan.Reaches a (.start a t action) s₁)
    (redelivered : s₁.step a (.redeliver now) = some s₂) (h₂ : Replan.Reaches a s₂ s)
    (done : s.Replanned) :
    s.Converged a t ↔ ∀ id ∈ a.targetIds t, id ∈ a.targetIds s₁.table := by
  have hfirst : s₁.FirstInv a t :=
    Runs.Reaches.invariant (fun hi _ hs => firstInv_step hi hs) h₁ (firstInv_start a t action)
  obtain ⟨⟨progress, k, hf⟩, hsecond⟩ := redeliver_inv hfirst redelivered
  obtain ⟨m, pc, hpass, h⟩ : s.SecondInv a s₁ :=
    Runs.Reaches.invariant (fun hi _ hs => secondInv_step hi hs) h₂ hsecond
  obtain ⟨e, b, hdone⟩ := done
  cases hpass.symm.trans hdone
  obtain ⟨rfl, rfl, hpaged⟩ := h.pass
  constructor
  · intro hconv id hid
    by_contra left
    have hsub := (FilterAction.nodup_targetIds (a := a) (t := s₁.table)).subperm
      (targetIds_subset hf)
    have fewer : (a.targetIds s₁.table).length < (a.targetIds t).length := by
      by_contra hge
      exact left ((hsub.perm_of_length_le (not_lt.mp hge)).mem_iff.mpr hid)
    by_cases short : (a.targetIds s₁.table).length < k * a.batchSize
    · exact totals_exceeded hf h fewer short hconv
    · exact entity_uncovered hf h hid left (not_lt.mp short) hconv
  · exact converged_of_kept hf h hpaged

/-- The active contacts of account 1 get a name, in batches of one. -/
def renameOneByOne : FilterAction :=
  { deactivateOneByOne with
    config := .update ⟨[("name", .str "Ada")], some [("status", .str "active")], none, none⟩
    selected := rfl
    compiled := rfl }

/-- The first pass commits both rows and enqueues batch 0, which runs before the pass dies. -/
def diesAfterBatch : List ReplanLabel :=
  List.replicate 6 (.plan 0) ++ [.batch 0 [] 3, .die]

/-- Renaming takes nobody out of the target set. -/
theorem replanning_converges_renamed :
    ∃ s : Replan, s.Replanned ∧ s.action.totalBatches = 2 ∧
      s.Converged renameOneByOne threeContacts := by
  obtain ⟨s₁, s₂, s, hs₁, redelivered, hs, hpass, hkept, htotal⟩ : ∃ s₁ s₂ s,
      Runs.steps (Replan.step renameOneByOne)
        (.start renameOneByOne threeContacts (contactsAction .planning)) diesAfterBatch = some s₁ ∧
      s₁.step renameOneByOne (.redeliver 4) = some s₂ ∧
      Runs.steps (Replan.step renameOneByOne) s₂ (List.replicate 11 (.plan 5)) = some s ∧
      s.pass = .second (.done (.planned 2 2)) ∧
      renameOneByOne.targetIds s₁.table = renameOneByOne.targetIds threeContacts ∧
      s.action.totalBatches = 2 :=
    ⟨_, _, _, rfl, rfl, rfl, rfl, rfl, rfl⟩
  have hconv := (replanning_converges_iff (Runs.reaches_of_steps hs₁) redelivered
    (Runs.reaches_of_steps hs) ⟨2, 2, hpass⟩).mpr (fun id hid => hkept ▸ hid)
  exact ⟨s, ⟨2, 2, hpass⟩, htotal, hconv⟩

/-- Batch 0 deactivates its contact, and the second pass counts one batch where there are two
rows. -/
theorem replanned_totals_wrong :
    ¬ ∀ (a : FilterAction) (t : EntityTable) (action : BulkAction) (now : Timestamp)
      (s₁ s₂ s : Replan), Replan.Reaches a (.start a t action) s₁ →
      s₁.step a (.redeliver now) = some s₂ → Replan.Reaches a s₂ s → s.Replanned →
      s.Converged a t := by
  intro always
  obtain ⟨s₁, s₂, s, hs₁, redelivered, hs, hpass, hrow, hrow', htotal⟩ : ∃ s₁ s₂ s,
      Runs.steps (Replan.step deactivateOneByOne)
        (.start deactivateOneByOne threeContacts (contactsAction .planning)) diesAfterBatch =
        some s₁ ∧
      s₁.step deactivateOneByOne (.redeliver 4) = some s₂ ∧
      Runs.steps (Replan.step deactivateOneByOne) s₂ (List.replicate 9 (.plan 5)) = some s ∧
      s.pass = .second (.done (.planned 1 1)) ∧
      (s.batches 0).isSome ∧ (s.batches 1).isSome ∧ s.action.totalBatches = 1 :=
    ⟨_, _, _, rfl, rfl, rfl, rfl, rfl, rfl, rfl⟩
  have hconv := always deactivateOneByOne threeContacts (contactsAction .planning) 4 s₁ s₂ s
    (Runs.reaches_of_steps hs₁) redelivered (Runs.reaches_of_steps hs) ⟨1, 1, hpass⟩
  obtain ⟨n, bounded, hbatches, _⟩ := hconv.totals
  have hsub : Finset.range 2 ⊆ Finset.range n := by
    have := bounded 1 hrow'
    exact Finset.range_subset_range.mpr (by omega)
  have hle := Finset.sum_le_sum_of_subset
    (f := fun i => if (s.batches i).isSome then 1 else 0) hsub
  have htwo : rowSum 2 (fun row => if row.isSome then 1 else 0) s.batches = 2 := by
    rw [rowSum, Finset.sum_range_succ, Finset.sum_range_one, if_pos hrow, if_pos hrow']
  rw [rowSum] at hbatches htwo
  omega

end BulkActions
