import BulkActions.AuditTrail
import BulkActions.HalfEven
import Mathlib.Tactic.FieldSimp

namespace BulkActions

/-- An action as the API returns it. -/
structure BulkActionResponse extends BulkAction where
  progressPercent : Rat

def BulkActionResponse.fromModel (a : BulkAction) : BulkActionResponse where
  toBulkAction := a
  progressPercent :=
    if a.totalEntities = 0 then
      if a.status = .completed || a.status = .completedWithErrors then 100 else 0
    else roundTo 2 ((a.processedCount : Rat) / a.totalEntities * 100)

/-- The action has finished, with or without errors. -/
def BulkAction.finished (a : BulkAction) : Bool :=
  a.status = .completed || a.status = .completedWithErrors

theorem roundTo_eq (digits : Nat) (q : Rat) :
    roundTo digits q = (HalfEven.round (q * 10 ^ digits) : Rat) / 10 ^ digits := rfl

section Percent

variable {processed total : Nat}

theorem percent_nonneg (processed total : Nat) :
    0 ≤ roundTo 2 ((processed : Rat) / total * 100) := by
  have hscaled : (0 : Rat) ≤ (processed : Rat) / total * 100 * 10 ^ 2 := by positivity
  have hround : 0 ≤ HalfEven.round ((processed : Rat) / total * 100 * 10 ^ 2) :=
    HalfEven.le_round (by push_cast; linarith)
  rw [roundTo_eq]
  exact div_nonneg (Int.cast_nonneg hround) (by norm_num)

theorem percent_round_le (h : processed ≤ total) :
    HalfEven.round ((processed : Rat) / total * 100 * 10 ^ 2) ≤ 10000 := by
  have hle : (processed : Rat) / total ≤ 1 :=
    div_le_one_of_le₀ (Nat.cast_le.mpr h) (Nat.cast_nonneg total)
  refine HalfEven.round_le ?_
  push_cast
  linarith

theorem percent_le (h : processed ≤ total) : roundTo 2 ((processed : Rat) / total * 100) ≤ 100 := by
  have hround : (HalfEven.round ((processed : Rat) / total * 100 * 10 ^ 2) : Rat) ≤ 10000 := by
    exact_mod_cast percent_round_le h
  rw [roundTo_eq, div_le_iff₀ (by norm_num)]
  linarith

/-- Two decimals show 100 percent as soon as at most one entity in 20000 is left. -/
theorem percent_eq_hundred_iff (h : processed ≤ total) (ht : 0 < total) :
    roundTo 2 ((processed : Rat) / total * 100) = 100 ↔ 20000 * (total - processed) ≤ total := by
  have ht' : (0 : Rat) < total := Nat.cast_pos.mpr ht
  have hround := percent_round_le h
  have hthreshold : ((10000 : Int) : Rat) - 1 / 2 ≤ (processed : Rat) / total * 100 * 10 ^ 2 ↔
      19999 * total ≤ 20000 * processed := by
    rw [show (processed : Rat) / total * 100 * 10 ^ 2 = 10000 * processed / total by ring,
      le_div_iff₀ ht']
    push_cast
    rw [← @Nat.cast_le Rat]
    push_cast
    constructor <;> intro h <;> linarith
  rw [roundTo_eq, div_eq_iff (by norm_num)]
  calc (HalfEven.round ((processed : Rat) / total * 100 * 10 ^ 2) : Rat) = 100 * 10 ^ 2
      ↔ HalfEven.round ((processed : Rat) / total * 100 * 10 ^ 2) = 10000 := by
        rw [← @Int.cast_inj Rat]
        norm_num
    _ ↔ 10000 ≤ HalfEven.round ((processed : Rat) / total * 100 * 10 ^ 2) :=
        ⟨fun he => he.ge, fun hle => le_antisymm hround hle⟩
    _ ↔ 19999 * total ≤ 20000 * processed := (HalfEven.le_round_iff (by norm_num)).trans hthreshold
    _ ↔ 20000 * (total - processed) ≤ total := by omega

end Percent

/-- The percentages that the event stream, the statistics and the API report of an action. -/
def reported (now : Timestamp) (groups : List LogGroup) (a : BulkAction) : List Rat :=
  [(progressPayload a).progressPercent, (getStats now a groups).progressPercent,
    (BulkActionResponse.fromModel a).progressPercent]

/-- All report the same percentage, and 100 percent just when nothing is left to do. -/
structure HonestPercent (now : Timestamp) (groups : List LogGroup) (a : BulkAction) : Prop where
  equal : ∀ p ∈ reported now groups a, ∀ q ∈ reported now groups a, p = q
  bounds : ∀ p ∈ reported now groups a, 0 ≤ p ∧ p ≤ 100
  full : ∀ p ∈ reported now groups a, p = 100 ↔
    a.processedCount = a.totalEntities ∧ 0 < a.totalEntities ∨ a.totalEntities = 0 ∧ a.finished

/-- The percentages agree, but for the frames of a finished action without entities, and show
100 as soon as at most one entity in 20000 is left. -/
theorem progress_percent_reported (now : Timestamp) (groups : List LogGroup) {a : BulkAction}
    (h : a.processedCount ≤ a.totalEntities) :
    (getStats now a groups).progressPercent = (BulkActionResponse.fromModel a).progressPercent ∧
      (0 < a.totalEntities ∨ ¬ a.finished → (progressPayload a).progressPercent =
        (BulkActionResponse.fromModel a).progressPercent) ∧
      (∀ p ∈ reported now groups a, 0 ≤ p ∧ p ≤ 100) ∧
      ((BulkActionResponse.fromModel a).progressPercent = 100 ↔
        0 < a.totalEntities ∧ 20000 * (a.totalEntities - a.processedCount) ≤ a.totalEntities ∨
          a.totalEntities = 0 ∧ a.finished) := by
  rcases Nat.eq_zero_or_pos a.totalEntities with ht | ht
  · have hpayload : (progressPayload a).progressPercent = 0 := if_pos ht
    have hresponse : (BulkActionResponse.fromModel a).progressPercent =
        if a.finished then 100 else 0 := if_pos ht
    have hstats : (getStats now a groups).progressPercent = if a.finished then 100 else 0 :=
      if_pos ht
    simp only [reported, hpayload, hresponse, hstats]
    cases a.finished <;> simp [ht]
  · have hne : a.totalEntities ≠ 0 := Nat.ne_of_gt ht
    have hpayload : (progressPayload a).progressPercent =
        roundTo 2 ((a.processedCount : Rat) / a.totalEntities * 100) := if_neg hne
    have hresponse : (BulkActionResponse.fromModel a).progressPercent =
        roundTo 2 ((a.processedCount : Rat) / a.totalEntities * 100) := if_neg hne
    have hstats : (getStats now a groups).progressPercent =
        roundTo 2 ((a.processedCount : Rat) / a.totalEntities * 100) := if_neg hne
    refine ⟨hstats.trans hresponse.symm, fun _ => hpayload.trans hresponse.symm, ?_, ?_⟩
    · simpa [reported, hpayload, hresponse, hstats] using
        ⟨percent_nonneg a.processedCount a.totalEntities, percent_le h⟩
    · rw [hresponse, percent_eq_hundred_iff h ht]
      simp [ht, hne]

/-- One contact of 20001 is left. -/
theorem progress_percent_reported_contacts :
    (getStats 0 { contactsAction .processing with totalEntities := 20001, processedCount := 20000 }
        []).progressPercent = 100 ∧
      (progressPayload { contactsAction .processing with
        totalEntities := 20001, processedCount := 20000 }).progressPercent = 100 := by
  obtain ⟨hstats, hpayload, _, hfull⟩ := progress_percent_reported 0 []
    (a := { contactsAction .processing with totalEntities := 20001, processedCount := 20000 })
    (by decide)
  have hresponse := hfull.mpr (Or.inl ⟨by decide, by decide⟩)
  exact ⟨hstats.trans hresponse, (hpayload (Or.inl (by decide))).trans hresponse⟩

section Pages

variable {env : Env} {p : Pid} {loop loop' : PlanLoop} {page : List Uuid}

/-- The planner `p` asks for its next page. -/
def Sys.planning (s : Sys) (p : Pid) (loop : PlanLoop) : Sys :=
  s.set s.world p (.plan (.nextBatch loop))

theorem planning_eq_self {s : Sys} (h : s.procs p = .plan (.nextBatch loop)) :
    s.planning p loop = s := by
  unfold Sys.planning Sys.set
  rw [← h, Function.update_eq_self]

theorem page_step (s : Sys) (h : PlanPc.afterPage loop page = .nextBatch loop') :
    (s.planning p loop).step env (.run p { page := page }) = some (s.planning p loop') := by
  have hp : (s.planning p loop).procs p = .plan (.nextBatch loop) := set_procs_self ..
  have hset : (s.planning p loop).set s.world p (.plan (.nextBatch loop')) =
      s.planning p loop' := by
    simp only [Sys.planning, Sys.set, Function.update_idem]
  simp only [Sys.step, Sys.run, hp, Proc.running, Proc.stmt, PlanPc.stmt, World.exec,
    Proc.resume, PlanPc.resume, h, Except.map, if_true]
  exact congrArg some hset

/-- A full page becomes a batch, and the next page comes after its last id. -/
theorem afterPage_full {lastId : Option Uuid} {index : Nat}
    (hsource : loop.source = .filter lastId index) (hpage : page.length = loop.action.batchSize)
    (hpos : 0 < loop.action.batchSize) (hfew : loop.pending.length + 1 < planFlushEvery) :
    PlanPc.afterPage loop page = .nextBatch (loop.append
      ⟨index, loop.action.batchSize, none, page.head?, page.getLast?⟩
      (.filter page.getLast? (index + 1))) := by
  have hempty : page.isEmpty = false := by
    rw [List.isEmpty_eq_false_iff, ← List.length_pos_iff, hpage]
    exact hpos
  have hlength : ∀ planned source, (loop.append planned source).pending.length =
      loop.pending.length + 1 := by
    simp [PlanLoop.append]
  unfold PlanPc.afterPage
  simp only [hsource, PlanSource.next, hempty, plannedPage, hpage, lt_irrefl, if_false, hlength,
    Bool.false_eq_true, not_le.mpr hfew]

end Pages

/-- The status of 20001 contacts. -/
def bigContactsAction : BulkAction := { contactsAction .queued with batchSize := 10000 }

def bigContacts : Sys := Tables.sys ⟨some bigContactsAction, fun _ => none, []⟩ [.plan]

/-- The planner after one full page, and after two. -/
def firstPageLoop : PlanLoop :=
  (PlanLoop.start bigContactsAction).append
    ⟨0, 10000, none, (List.range' 1 10000).head?, (List.range' 1 10000).getLast?⟩
    (.filter (List.range' 1 10000).getLast? 1)

def fullPagesLoop : PlanLoop :=
  firstPageLoop.append
    ⟨1, 10000, none, (List.range' 10001 10000).head?, (List.range' 10001 10000).getLast?⟩
    (.filter (List.range' 10001 10000).getLast? 2)

/-- The planner behind the last contact. -/
def allPagesLoop : PlanLoop :=
  fullPagesLoop.append ⟨2, 1, none, some 20001, some 20001⟩ .exhausted

def bigContactsPages : List Label :=
  [.run 0 { page := List.range' 1 10000 }, .run 0 { page := List.range' 10001 10000 },
    .run 0 { page := [20001] }]

theorem bigContacts_pages {s : Sys}
    (h : s.procs 0 = .plan (.nextBatch (.start bigContactsAction))) :
    Runs.steps (Sys.step defaultEnv) s bigContactsPages = some (s.planning 0 allPagesLoop) := by
  have hfirst : PlanPc.afterPage (.start bigContactsAction) (List.range' 1 10000) =
      .nextBatch firstPageLoop :=
    afterPage_full rfl List.length_range' (by decide) (by decide)
  have hsecond : PlanPc.afterPage firstPageLoop (List.range' 10001 10000) =
      .nextBatch fullPagesLoop :=
    afterPage_full rfl List.length_range' (by decide) (by decide)
  have hthird : PlanPc.afterPage fullPagesLoop [20001] = .nextBatch allPagesLoop := rfl
  have hlast : Runs.steps (Sys.step defaultEnv) (s.planning 0 fullPagesLoop)
      [.run 0 { page := [20001] }] = some (s.planning 0 allPagesLoop) := by
    rw [Runs.steps, page_step s hthird]
    rfl
  calc Runs.steps (Sys.step defaultEnv) s bigContactsPages
      = Runs.steps (Sys.step defaultEnv) (s.planning 0 (.start bigContactsAction))
          bigContactsPages := by rw [planning_eq_self h]
    _ = some (s.planning 0 allPagesLoop) := by
      rw [bigContactsPages, Runs.steps, page_step s hfirst, Option.bind_some, Runs.steps,
        page_step s hsecond, Option.bind_some, hlast]

/-- Worker `p` fails three times to execute batch `i`, which it then marks failed. -/
def failingBatch (p : Pid) (i : Nat) : List Label :=
  let attempt := List.replicate 6 (Label.run p {}) ++ [Label.raise p "timeout"]
  [Label.deliver p (.batch ⟨i, 0, 1⟩)] ++ attempt ++ [Label.redeliver p] ++ attempt ++
    [Label.redeliver p] ++ attempt ++ List.replicate 6 (Label.run p {})

/-- All but one contact of 20001 are done. -/
theorem bigContacts_nearly_done :
    ∃ s a, Sys.Reaches defaultEnv Runs.anyStep bigContacts s ∧
      s.world.committed.action = some a ∧ a.processedCount = 20000 ∧ a.totalEntities = 20001 := by
  obtain ⟨s₁, h₁, hplanning⟩ : ∃ s₁, Runs.steps (Sys.step defaultEnv) bigContacts
      ([Label.deliver 0 .plan] ++ List.replicate 3 (Label.run 0 {})) = some s₁ ∧
      s₁.procs 0 = .plan (.nextBatch (.start bigContactsAction)) := ⟨_, rfl, rfl⟩
  have hrest : ((Runs.steps (Sys.step defaultEnv) bigContacts
      ([Label.deliver 0 .plan] ++ List.replicate 3 (Label.run 0 {}))).bind (fun s =>
        Runs.steps (Sys.step defaultEnv) (s.planning 0 allPagesLoop)
          (List.replicate 10 (Label.run 0 {}) ++ failingBatch 1 0 ++ failingBatch 2 1))).map
      (fun s => s.world.committed.action.map (fun a => (a.processedCount, a.totalEntities))) =
      some (some (20000, 20001)) := by decide
  rw [h₁, Option.bind_some] at hrest
  obtain ⟨s, hs, hcounts⟩ := Option.map_eq_some_iff.mp hrest
  obtain ⟨a, ha, hcounts⟩ := Option.map_eq_some_iff.mp hcounts
  have hpages := Runs.reaches_of_steps (bigContacts_pages hplanning)
  exact ⟨s, a, (Runs.reaches_of_steps h₁).trans (hpages.trans (Runs.reaches_of_steps hs)), ha,
    congrArg Prod.fst hcounts, congrArg Prod.snd hcounts⟩

theorem bigContacts_submitted : Submitted bigContacts bigContactsAction where
  toAtRest := Tables.sys_atRest _ _
  action := rfl
  status := Or.inl rfl
  totals := ⟨rfl, rfl, rfl⟩
  counters := ⟨rfl, rfl, rfl, rfl⟩
  batches := fun _ => rfl
  logs := rfl

/-- With one of 20001 contacts left to do, all report 100 percent. -/
theorem percent_full_too_early :
    ¬ ∀ (env : Env) (s₀ s : Sys) (a₀ a : BulkAction) (now : Timestamp) (groups : List LogGroup),
      Submitted s₀ a₀ → Sys.Reaches env Runs.anyStep s₀ s → s.world.committed.action = some a →
      a.processedCount ≤ a.totalEntities → HonestPercent now groups a := by
  intro always
  obtain ⟨s, a, hs, ha, hprocessed, htotal⟩ := bigContacts_nearly_done
  have hle : a.processedCount ≤ a.totalEntities := by omega
  have honest := always defaultEnv bigContacts s bigContactsAction a 0 [] bigContacts_submitted
    hs ha hle
  have hfull : (progressPayload a).progressPercent = 100 := by
    refine (if_neg (by omega)).trans ?_
    exact (percent_eq_hundred_iff hle (by omega)).mpr (by omega)
  rcases (honest.full _ List.mem_cons_self).mp hfull with ⟨hdone, _⟩ | ⟨hnone, _⟩
  · omega
  · omega


end BulkActions
