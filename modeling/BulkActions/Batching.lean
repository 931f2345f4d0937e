import BulkActions.Handlers

namespace BulkActions

structure PlannedBatch where
  index : Nat
  entityCount : Nat
  entityIds : Option (List Uuid)
  cursorStart : Option Uuid
  cursorEnd : Option Uuid
  deriving DecidableEq, Repr

structure Settings where
  batchSize : Nat := 1000
  maxBatchSize : Nat := 10000
  jobMaxTries : Nat := 3
  deriving DecidableEq, Repr

/-- `requested or settings.batch_size`, clamped to what one bucket can admit. -/
def effectiveBatchSize (settings : Settings) (requested : Option Nat)
    (rateLimitPerMinute : Nat) : Nat :=
  let size := match requested with
    | some 0 => settings.batchSize
    | some n => n
    | none => settings.batchSize
  max 1 (min (max 1 (min size settings.maxBatchSize)) rateLimitPerMinute)

def plannedChunk (index : Nat) (chunk : List Uuid) : PlannedBatch :=
  let ids := chunk.mergeSort
  ⟨index, ids.length, some ids, ids.head?, ids.getLast?⟩

/-- `range(0, length, step)`. -/
def rangeStep (length step : Nat) : List Nat :=
  List.range' 0 ((length + step - 1) / step) step

/-- `_plan_from_ids`: the batches in the order they are yielded. -/
def planFromIds (entityIds : List Uuid) (batchSize : Nat) : List PlannedBatch :=
  let ordered := entityIds.eraseDups
  (rangeStep ordered.length batchSize).mapIdx
    (fun index start => plannedChunk index ((ordered.drop start).take batchSize))

/-- The state of the `plan_batches` generator between two yields. -/
inductive PlanSource where
  | filter (lastId : Option Uuid) (index : Nat)
  | ids (rest : List PlannedBatch)
  | exhausted
  deriving DecidableEq, Repr

def plannedPage (index : Nat) (page : List Uuid) : PlannedBatch :=
  ⟨index, page.length, none, page.head?, page.getLast?⟩

namespace PlanSource

def start (config : Config) (batchSize : Nat) : PlanSource :=
  match config.explicitIds with
  | some entityIds => .ids (planFromIds entityIds batchSize)
  | none => .filter none 0

/-- One resumption of the generator, given the page of ids it reads if it reads one. -/
def next (batchSize : Nat) (page : List Uuid) : PlanSource → Option (PlannedBatch × PlanSource)
  | .filter _ index =>
    if page.isEmpty then none
    else some (plannedPage index page,
      if page.length < batchSize then .exhausted else .filter page.getLast? (index + 1))
  | .ids (b :: rest) => some (b, .ids rest)
  | .ids [] => none
  | .exhausted => none

end PlanSource

end BulkActions
