import Mathlib.Data.List.Basic
import Mathlib.Logic.Function.Basic

/-!
`Executor::Initialize` and the pipelines it runs. Threads take tasks from one queue; between two
operations on what they share, any other thread may go on. The main thread takes tasks like any
other and looks at the number of completed pipelines in between.
-/

namespace GuinsooDB

/-- The pipelines of a query: which of them depend on which, how many tasks `Schedule` launches
and how many `Finalize` adds. -/
structure PipelineGraph where
  count : Nat
  dependencies : Nat → List Nat
  parents : Nat → List Nat
  tasks : Nat → Nat
  finalizations : Nat → Nat
  rank : Nat → Nat
  distinct : ∀ pipeline, (dependencies pipeline).Nodup
  parentsDistinct : ∀ pipeline, (parents pipeline).Nodup
  linked : ∀ pipeline other, other ∈ dependencies pipeline ↔ pipeline ∈ parents other
  inside : ∀ pipeline, ∀ other ∈ dependencies pipeline, pipeline < count ∧ other < count
  launched : ∀ pipeline, 0 < tasks pipeline
  acyclic : ∀ pipeline, ∀ other ∈ dependencies pipeline, rank other < rank pipeline

inductive Job where
  | work (pipeline : Nat)
  | finalization (pipeline : Nat)
  deriving Repr, DecidableEq

structure PipelineLog where
  scheduled : Nat
  ended : Nat
  finalized : Nat
  finalizationsEnded : Nat
  finished : Nat
  deriving Repr, DecidableEq

/-- The counters of a pipeline, and how far the threads are that run tasks of it: in `Execute`,
before the increment of `finished_tasks`, before `Finalize`, adding tasks in `Finalize` (with
those that are left), before the comparison after it, and the same for the added tasks. A
thread in `Finish` has the parents left that it has still to notify. -/
structure PipelineState where
  totalTasks : Nat
  finishedTasks : Nat
  finishedDependencies : Nat
  finished : Bool
  executing : Nat
  counting : Nat
  finalizing : List Nat
  launching : List (Nat × Nat)
  comparing : List Nat
  combining : Nat
  combined : Nat
  finishing : List (List Nat)
  log : PipelineLog
  deriving Repr, DecidableEq

def PipelineState.initial : PipelineState where
  totalTasks := 0
  finishedTasks := 0
  finishedDependencies := 0
  finished := false
  executing := 0
  counting := 0
  finalizing := []
  launching := []
  comparing := []
  combining := 0
  combined := 0
  finishing := []
  log := ⟨0, 0, 0, 0, 0⟩

/-- Where the main thread is. An exception that no task catches leaves `Initialize` at once, or
ends the process when a worker thread runs the task. -/
inductive ExecutorStatus where
  | scheduling (rest : List Nat)
  | waiting
  | returned (error : Option String)
  | escaped (error : String)
  | terminated
  deriving Repr, DecidableEq

structure ExecutorState where
  pipelines : Nat → PipelineState
  queue : List Job
  completedPipelines : Nat
  exceptions : List String
  status : ExecutorStatus

inductive ExecutorAction where
  | scheduleNext
  | take
  | execute (pipeline : Nat) (error : Option String)
  | finishTask (pipeline : Nat)
  | finalize (pipeline : Nat) (error : Option String)
  | scheduleTask (pipeline : Nat)
  | scheduleFails (pipeline : Nat) (error : String)
  | compare (pipeline : Nat)
  | finalizeHT (pipeline : Nat)
  | finalizeHTFails (pipeline : Nat) (error : String) (onMain : Bool)
  | finishFinalization (pipeline : Nat)
  | completeDependency (pipeline : Nat)
  | completePipeline (pipeline : Nat)
  | poll
  deriving Repr, DecidableEq

namespace ExecutorState

variable (graph : PipelineGraph)

def start : ExecutorState where
  pipelines := fun _ => .initial
  queue := []
  completedPipelines := 0
  exceptions := []
  status := .scheduling (List.range graph.count)

variable (state : ExecutorState) (pipeline : Nat)

def set (changed : PipelineState) : ExecutorState :=
  { state with pipelines := Function.update state.pipelines pipeline changed }

def schedule : ExecutorState :=
  let current := state.pipelines pipeline
  { state.set pipeline { current with
      totalTasks := graph.tasks pipeline
      log := { current.log with scheduled := current.log.scheduled + 1 } } with
    queue := state.queue ++ List.replicate (graph.tasks pipeline) (.work pipeline) }

def pushError (error : Option String) : ExecutorState :=
  { state with exceptions := state.exceptions ++ error.toList }

variable (current : PipelineState)

def finish : PipelineState :=
  { current with
    finished := true
    finishing := graph.parents pipeline :: current.finishing
    log := { current.log with finished := current.log.finished + 1 } }

def take : Option ExecutorState :=
  match state.queue with
  | [] => none
  | .work pipeline :: rest =>
    let current := state.pipelines pipeline
    some { state.set pipeline { current with executing := current.executing + 1 } with
      queue := rest }
  | .finalization pipeline :: rest =>
    let current := state.pipelines pipeline
    some { state.set pipeline { current with combining := current.combining + 1 } with
      queue := rest }

def finishTask : Option PipelineState :=
  match current.counting with
  | 0 => none
  | counting + 1 =>
    let finishedTasks := current.finishedTasks + 1
    some { current with
      counting
      finishedTasks
      finalizing := if finishedTasks = current.totalTasks then finishedTasks :: current.finalizing
        else current.finalizing
      log := { current.log with ended := current.log.ended + 1 } }

/-- `Finalize` throws before it adds tasks, or adds them to the total. -/
def finalize (error : Option String) (current : PipelineState) : Option PipelineState :=
  match current.finalizing with
  | [] => none
  | finishedTasks :: rest =>
    let called := { current with
      finalizing := rest
      log := { current.log with finalized := current.log.finalized + 1 } }
    some (if error.isSome || graph.finalizations pipeline = 0 then
        { called with comparing := finishedTasks :: current.comparing }
      else
        { called with
          totalTasks := current.totalTasks + graph.finalizations pipeline
          launching := (finishedTasks, graph.finalizations pipeline) :: current.launching })

def scheduleTask : Option PipelineState :=
  match current.launching with
  | [] => none
  | (finishedTasks, left) :: rest =>
    some (if left ≤ 1 then
        { current with launching := rest, comparing := finishedTasks :: current.comparing }
      else { current with launching := (finishedTasks, left - 1) :: rest })

def scheduleFails : Option PipelineState :=
  match current.launching with
  | [] => none
  | (finishedTasks, _) :: rest =>
    some { current with launching := rest, comparing := finishedTasks :: current.comparing }

def compare : Option PipelineState :=
  match current.comparing with
  | [] => none
  | finishedTasks :: rest =>
    let compared := { current with comparing := rest }
    some (if finishedTasks = current.totalTasks then finish graph pipeline compared else compared)

def finishFinalization : Option PipelineState :=
  match current.combined with
  | 0 => none
  | combined + 1 =>
    let finishedTasks := current.finishedTasks + 1
    let ended := { current with
      combined
      finishedTasks
      log := { current.log with finalizationsEnded := current.log.finalizationsEnded + 1 } }
    some (if current.totalTasks = finishedTasks then finish graph pipeline ended else ended)

def completeDependency : Option ExecutorState :=
  match (state.pipelines pipeline).finishing with
  | (parent :: rest) :: more =>
    let notified := state.set pipeline { state.pipelines pipeline with finishing := rest :: more }
    let current := notified.pipelines parent
    let counted := notified.set parent { current with
      finishedDependencies := current.finishedDependencies + 1 }
    some (if current.finishedDependencies + 1 = (graph.dependencies parent).length then
        counted.schedule graph parent
      else counted)
  | _ => none

def completePipeline : Option ExecutorState :=
  match (state.pipelines pipeline).finishing with
  | [] :: more =>
    some { state.set pipeline { state.pipelines pipeline with finishing := more } with
      completedPipelines := state.completedPipelines + 1 }
  | _ => none

def poll : Option ExecutorState :=
  match state.status with
  | .waiting =>
    if state.completedPipelines < graph.count then some state
    else some { state with status := .returned state.exceptions.head? }
  | _ => none

def scheduleNext : Option ExecutorState :=
  match state.status with
  | .scheduling [] => some { state with status := .waiting }
  | .scheduling (pipeline :: rest) =>
    let next := { state with status := .scheduling rest }
    some (if (graph.dependencies pipeline).isEmpty then next.schedule graph pipeline else next)
  | _ => none

def advance (step : PipelineState → Option PipelineState) : Option ExecutorState :=
  (step (state.pipelines pipeline)).map (state.set pipeline)

def step : ExecutorAction → Option ExecutorState
  | .scheduleNext => state.scheduleNext graph
  | .take => state.take
  | .execute pipeline error =>
    (state.advance pipeline fun current => match current.executing with
      | 0 => none
      | executing + 1 => some { current with executing, counting := current.counting + 1 }).map
      (pushError · error)
  | .finishTask pipeline => state.advance pipeline finishTask
  | .finalize pipeline error =>
    (state.advance pipeline (finalize graph pipeline error)).map (pushError · error)
  | .scheduleTask pipeline =>
    (state.advance pipeline scheduleTask).map fun next =>
      { next with queue := state.queue ++ [.finalization pipeline] }
  | .scheduleFails pipeline error =>
    (state.advance pipeline scheduleFails).map (pushError · (some error))
  | .compare pipeline => state.advance pipeline (compare graph pipeline)
  | .finalizeHT pipeline =>
    state.advance pipeline fun current => match current.combining with
      | 0 => none
      | combining + 1 => some { current with combining, combined := current.combined + 1 }
  | .finalizeHTFails pipeline error onMain =>
    (state.advance pipeline fun current => match current.combining with
      | 0 => none
      | combining + 1 => some { current with combining }).map fun next =>
      { next with status := if onMain then .escaped error else .terminated }
  | .finishFinalization pipeline => state.advance pipeline (finishFinalization graph pipeline)
  | .completeDependency pipeline => state.completeDependency graph pipeline
  | .completePipeline pipeline => state.completePipeline pipeline
  | .poll => state.poll graph

end ExecutorState

end GuinsooDB
