import BulkActions.BatchRows
import BulkActions.EntityAction

namespace BulkActions

/-- The platform next to the table its actions write to. `staged` is what the open work
transaction of a worker has done to the table, and `late` marks the runs that came after an
event of interest. -/
structure Crm where
  sys : Sys
  entities : EntityTable
  staged : Pid → EntityTable → EntityTable
  late : Pid → Bool

/-- What the handler's statement in `run_batch` does to the table. -/
def Proc.statement (text : PyText) (ext : External) : Proc → EntityTable → EntityTable
  | .batch _ (.runBatch _ a _) =>
    EntityTable.write (getEntity a.entityType) a.configuration a.accountId ext.now
      (a.configuration.targets (executedRows text a.configuration ext.rows ext.claimed))
  | _ => id

/-- At the commit of a work transaction. -/
def Proc.commitsWork : Proc → Bool
  | .batch _ (.workCommit _ _) => true
  | _ => false

namespace Crm

def commitsWork (x : Crm) : Label → Bool
  | .run p _ => (x.sys.procs p).commitsWork
  | _ => false

/-- What the transaction of the worker has staged after a step; a start, an exception and a
crash leave nothing. -/
def stage (env : Env) (x : Crm) : Label → EntityTable → EntityTable
  | .run p ext =>
    if (x.sys.procs p).commitsWork then id
    else (x.sys.procs p).statement env.text ext ∘ x.staged p
  | _ => id

/-- A step of the platform; `mark` says which steps decide whether a run is late. -/
def step (env : Env) (mark : Sys → Label → Option Bool) (x : Crm) (l : Label) : Option Crm :=
  (x.sys.step env l).map (fun s =>
    { sys := s
      entities := if x.commitsWork l then x.staged l.pid x.entities else x.entities
      staged := Function.update x.staged l.pid (x.stage env l)
      late := Function.update x.late l.pid ((mark x.sys l).getD (x.late l.pid)) })

end Crm

/-- The platform next to a table, with nothing staged and nobody late. -/
def Sys.crm (s : Sys) (entities : EntityTable) : Crm := ⟨s, entities, fun _ => id, fun _ => false⟩

section Steps

variable {env : Env} {mark : Sys → Label → Option Bool} {x x' : Crm} {l : Label}

theorem crm_step_sys (h : x.step env mark l = some x') : x.sys.step env l = some x'.sys := by
  obtain ⟨s, hs, rfl⟩ := Option.map_eq_some_iff.mp h
  exact hs

theorem crm_step_late (h : x.step env mark l = some x') :
    x'.late = Function.update x.late l.pid ((mark x.sys l).getD (x.late l.pid)) := by
  obtain ⟨s, _, rfl⟩ := Option.map_eq_some_iff.mp h
  rfl

/-- Only the commit of a work transaction changes the table. -/
theorem crm_step_entities (h : x.step env mark l = some x') :
    x'.entities = if x.commitsWork l then x.staged l.pid x.entities else x.entities := by
  obtain ⟨s, _, rfl⟩ := Option.map_eq_some_iff.mp h
  rfl

/-- A commit that reports nothing leaves the logs and the counters alone. -/
theorem step_untouched {s s' : Sys} (hs : Consistent env s) (h : s.step env l = some s')
    (hrep : ∀ job pc, s.procs l.pid = .batch job pc → pc.report env.settings = none) :
    Untouched s.world.committed s'.world.committed := by
  rcases step_effect hs h with hc | ⟨p, ext, rfl, _, heff⟩
  · rw [hc]
    exact ⟨rfl, rfl⟩
  · rcases effect_counters heff with hsame | ⟨job, pc, r, hp, hr, _⟩
    · exact hsame
    · simp [hrep job pc hp] at hr

end Steps

end BulkActions
