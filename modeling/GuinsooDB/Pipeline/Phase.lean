import GuinsooDB.Pipeline.Executor

/-!
The life of one pipeline: which counters it has while its tasks run, while its sink is finalized
and once it is finished. The numbers of its jobs in the queue stand beside its own state.
-/

namespace GuinsooDB

open ExecutorState List

/-- The thread that called `Finalize`: it still adds tasks, it stands before the comparison
after the call, or it is gone. -/
inductive Caller where
  | launching (left : Nat)
  | comparing
  | gone
  deriving Repr, DecidableEq

namespace Caller

def left : Caller → Nat
  | launching left => left
  | _ => 0

def launchingOf (finishedTasks : Nat) : Caller → List (Nat × Nat)
  | launching left => [(finishedTasks, left)]
  | _ => []

def comparingOf (finishedTasks : Nat) : Caller → List Nat
  | comparing => [finishedTasks]
  | _ => []

theorem not_launching (caller : Caller) (none : caller.left = 0)
    (launches : caller ≠ launching 0) (left : Nat) : caller ≠ launching left := by
  rintro rfl
  cases none
  exact launches rfl

end Caller

namespace PipelineState

variable (graph : PipelineGraph) (pipeline : Nat)

def working (notified executing counting ended : Nat) : PipelineState :=
  { initial with
    totalTasks := graph.tasks pipeline
    finishedTasks := ended
    finishedDependencies := notified
    executing
    counting
    log := ⟨1, ended, 0, 0, 0⟩ }

def beforeFinalize (notified : Nat) : PipelineState :=
  { working graph pipeline notified 0 0 (graph.tasks pipeline) with
    finalizing := [graph.tasks pipeline] }

def finalizedAlone (notified : Nat) : PipelineState :=
  { working graph pipeline notified 0 0 (graph.tasks pipeline) with
    comparing := [graph.tasks pipeline]
    log := ⟨1, graph.tasks pipeline, 1, 0, 0⟩ }

def merging (notified combining combined ended : Nat) (caller : Caller) : PipelineState :=
  { working graph pipeline notified 0 0 (graph.tasks pipeline) with
    totalTasks := graph.tasks pipeline + graph.finalizations pipeline
    finishedTasks := graph.tasks pipeline + ended
    launching := caller.launchingOf (graph.tasks pipeline)
    comparing := caller.comparingOf (graph.tasks pipeline)
    combining
    combined
    log := ⟨1, graph.tasks pipeline, 1, ended, 0⟩ }

def ending (notified added : Nat) (caller : Caller) (finishing : List (List Nat)) : PipelineState :=
  { merging graph pipeline notified 0 0 added caller with
    totalTasks := graph.tasks pipeline + added
    finished := true
    finishing
    log := ⟨1, graph.tasks pipeline, 1, added, 1⟩ }

end PipelineState

open PipelineState in
/-- The states that a pipeline goes through when neither the adding of tasks nor one of the
added tasks throws. -/
inductive Phase (graph : PipelineGraph) (pipeline : Nat) : Nat → Nat → PipelineState → Prop where
  | idle (notified : Nat) :
      Phase graph pipeline 0 0 { initial with finishedDependencies := notified }
  | working (notified queued executing counting ended : Nat)
      (all : queued + executing + counting + ended = graph.tasks pipeline)
      (some : 0 < queued + executing + counting) :
      Phase graph pipeline queued 0 (working graph pipeline notified executing counting ended)
  | beforeFinalize (notified : Nat) :
      Phase graph pipeline 0 0 (beforeFinalize graph pipeline notified)
  | finalizedAlone (notified : Nat) :
      Phase graph pipeline 0 0 (finalizedAlone graph pipeline notified)
  | merging (notified queued combining combined ended : Nat) (caller : Caller)
      (all : caller.left + queued + combining + combined + ended = graph.finalizations pipeline)
      (some : 0 < caller.left + queued + combining + combined) (launches : caller ≠ .launching 0) :
      Phase graph pipeline 0 queued
        (merging graph pipeline notified combining combined ended caller)
  | ending (notified added : Nat) (caller : Caller) (finishing : List (List Nat))
      (launched : ∀ left, caller ≠ .launching left) (alone : added = 0 → caller = .gone)
      (shape : finishing = [] ∨ ∃ rest, rest <:+ graph.parents pipeline ∧ finishing = [rest]) :
      Phase graph pipeline 0 0 (ending graph pipeline notified added caller finishing)

structure Standing where
  notified : Nat
  scheduled : Nat
  unnotified : List Nat
  done : Bool

namespace PipelineState

def unnotified (graph : PipelineGraph) (pipeline : Nat) (state : PipelineState) : List Nat :=
  if state.log.finished = 0 then graph.parents pipeline else state.finishing.flatten

structure Quiet (state : PipelineState) : Prop where
  executing : state.executing = 0
  counting : state.counting = 0
  finalizing : state.finalizing = []
  launching : state.launching = []
  comparing : state.comparing = []
  combining : state.combining = 0
  combined : state.combined = 0
  finishing : state.finishing = []

def done (state : PipelineState) : Bool :=
  decide (0 < state.log.finished) && state.finishing.isEmpty

def standing (graph : PipelineGraph) (pipeline : Nat) (state : PipelineState) : Standing where
  notified := state.finishedDependencies
  scheduled := state.log.scheduled
  unnotified := state.unnotified graph pipeline
  done := state.done

end PipelineState

theorem finish_standing {graph : PipelineGraph} {pipeline : Nat} {state : PipelineState}
    (fresh : state.log.finished = 0) (quiet : state.finishing = []) :
    (finish graph pipeline state).standing graph pipeline = state.standing graph pipeline := by
  simp [finish, PipelineState.standing, PipelineState.unnotified, PipelineState.done, fresh, quiet]

def Advances (graph : PipelineGraph) (pipeline work finalizations : Nat)
    (state next : PipelineState) : Prop :=
  Phase graph pipeline work finalizations next ∧
    next.standing graph pipeline = state.standing graph pipeline

namespace Phase

variable {graph : PipelineGraph} {pipeline work finalizations : Nat} {state next : PipelineState}

theorem takeWork (phase : Phase graph pipeline (work + 1) finalizations state) :
    Advances graph pipeline work finalizations state { state with executing := state.executing + 1 } := by
  cases phase with
  | working notified _ executing counting ended all some =>
    refine ⟨.working notified work (executing + 1) counting ended ?_ ?_, rfl⟩ <;> omega

theorem takeFinalization (phase : Phase graph pipeline work (finalizations + 1) state) :
    Advances graph pipeline work finalizations state { state with combining := state.combining + 1 } := by
  cases phase with
  | merging notified _ combining combined ended caller all some launches =>
    refine ⟨.merging notified finalizations (combining + 1) combined ended caller ?_ ?_ launches, rfl⟩ <;> omega

section

variable (phase : Phase graph pipeline work finalizations state)
include phase

theorem execute {executing : Nat} (present : state.executing = executing + 1) :
    Advances graph pipeline work finalizations state { state with executing, counting := state.counting + 1 } := by
  cases phase with
  | working notified _ previous counting ended all some =>
    obtain rfl : previous = executing + 1 := present
    exact ⟨.working notified work executing (counting + 1) ended (by omega) (by omega), rfl⟩
  | _ => cases present

theorem finalizeHT {combining : Nat} (present : state.combining = combining + 1) :
    Advances graph pipeline work finalizations state { state with combining, combined := state.combined + 1 } := by
  cases phase with
  | merging notified _ previous combined ended caller all some launches =>
    obtain rfl : previous = combining + 1 := present
    exact ⟨.merging notified finalizations combining (combined + 1) ended caller (by omega) (by omega) launches, rfl⟩
  | _ => cases present

/-- The last task is the one that calls `Finalize`. -/
theorem finishTask (stepped : ExecutorState.finishTask state = some next) :
    Advances graph pipeline work finalizations state next := by
  cases phase with
  | working notified _ executing counting ended all some =>
    cases counting with
    | zero => cases stepped
    | succ counting =>
      cases stepped
      refine ⟨?_, rfl⟩
      split
      next last =>
        change ended + 1 = graph.tasks pipeline at last
        obtain ⟨rfl, rfl, rfl⟩ : work = 0 ∧ executing = 0 ∧ counting = 0 := by omega
        have reached : Phase graph pipeline 0 0 (.beforeFinalize graph pipeline notified) := .beforeFinalize notified
        simp only [PipelineState.beforeFinalize, PipelineState.working, ← last] at reached ⊢
        exact reached
      next more =>
        change ended + 1 ≠ graph.tasks pipeline at more
        exact .working notified work executing counting (ended + 1) (by omega) (by omega)
  | _ => cases stepped

theorem finalize {error : Option String} (stepped : ExecutorState.finalize graph pipeline error state = some next) :
    Advances graph pipeline work finalizations state next := by
  cases phase with
  | beforeFinalize notified =>
    cases stepped
    refine ⟨?_, ?_⟩
    · split
      · exact .finalizedAlone notified
      next added =>
        have positive : graph.finalizations pipeline ≠ 0 := fun none => added (by simp [none])
        exact .merging notified 0 0 0 0 (.launching (graph.finalizations pipeline)) (by simp [Caller.left])
          (by simp [Caller.left]; omega) (by simpa using positive)
    · split <;> rfl
  | _ => cases stepped

theorem scheduleTask (stepped : ExecutorState.scheduleTask state = some next) :
    Advances graph pipeline work (finalizations + 1) state next := by
  cases phase with
  | merging notified _ combining combined ended caller all some launches =>
    cases caller with
    | launching left =>
      cases stepped
      simp only [Caller.left] at all some
      have positive : left ≠ 0 := fun zero => launches (by rw [zero])
      refine ⟨?_, ?_⟩
      · split
        · exact .merging notified (finalizations + 1) combining combined ended .comparing
            (by simp only [Caller.left]; omega) (by omega) (by simp)
        · exact .merging notified (finalizations + 1) combining combined ended
            (.launching (left - 1)) (by simp only [Caller.left]; omega) (by omega)
            (by simp; omega)
      · split <;> rfl
    | _ => cases stepped
  | ending notified added caller finishing launched alone shape =>
    cases caller with
    | launching left => exact absurd rfl (launched left)
    | _ => cases stepped
  | _ => cases stepped

/-- The comparison after `Finalize` succeeds only where no tasks were added. -/
theorem compare (stepped : ExecutorState.compare graph pipeline state = some next) :
    Advances graph pipeline work finalizations state next := by
  cases phase with
  | finalizedAlone notified =>
    cases stepped
    rw [if_pos (show graph.tasks pipeline = (PipelineState.finalizedAlone graph pipeline notified).totalTasks from rfl)]
    refine ⟨.ending notified 0 .gone [graph.parents pipeline] (by simp) (fun _ => rfl)
      (.inr ⟨_, suffix_refl _, rfl⟩), finish_standing rfl rfl⟩
  | merging notified _ combining combined ended caller all some launches =>
    cases caller with
    | comparing =>
      cases stepped
      rw [if_neg (show graph.tasks pipeline ≠
        (PipelineState.merging graph pipeline notified combining combined ended .comparing).totalTasks
        by simp only [PipelineState.merging]; omega)]
      exact ⟨.merging notified finalizations combining combined ended .gone all some (by simp), rfl⟩
    | _ => cases stepped
  | ending notified added caller finishing launched alone shape =>
    cases caller with
    | comparing =>
      cases stepped
      have positive : added ≠ 0 := fun none => by cases alone none
      rw [if_neg (show graph.tasks pipeline ≠
        (PipelineState.ending graph pipeline notified added .comparing finishing).totalTasks
        by simp only [PipelineState.ending]; omega)]
      exact ⟨.ending notified added .gone finishing (by simp) (fun _ => rfl) shape, rfl⟩
    | _ => cases stepped
  | _ => cases stepped

/-- The last of the added tasks is the one that calls `Finish`. -/
theorem finishFinalization (stepped : ExecutorState.finishFinalization graph pipeline state = some next) :
    Advances graph pipeline work finalizations state next := by
  cases phase with
  | merging notified _ combining combined ended caller all some launches =>
    cases combined with
    | zero => cases stepped
    | succ combined =>
      cases stepped
      by_cases last : ended + 1 = graph.finalizations pipeline
      · obtain ⟨none, rfl, rfl, rfl⟩ : caller.left = 0 ∧ finalizations = 0 ∧ combining = 0 ∧ combined = 0 := by omega
        rw [if_pos (by simp only [PipelineState.merging]; omega)]
        refine ⟨?_, ?_⟩
        · have reached : Phase graph pipeline 0 0
              (.ending graph pipeline notified (ended + 1) caller [graph.parents pipeline]) :=
            .ending notified (ended + 1) caller _ (caller.not_launching none launches) (by simp)
              (.inr ⟨_, suffix_refl _, rfl⟩)
          simp only [PipelineState.ending, PipelineState.merging, finish, ← last] at reached ⊢
          exact reached
        · exact finish_standing rfl rfl
      · rw [if_neg (by simp only [PipelineState.merging]; omega)]
        exact ⟨.merging notified finalizations combining combined (ended + 1) caller (by omega)
          (by omega) launches, rfl⟩
  | _ => cases stepped

theorem schedule (fresh : state.log.scheduled = 0) :
    Phase graph pipeline (work + graph.tasks pipeline) finalizations { state with
      totalTasks := graph.tasks pipeline
      log := { state.log with scheduled := state.log.scheduled + 1 } } := by
  cases phase with
  | idle notified =>
    rw [Nat.zero_add]
    exact .working notified (graph.tasks pipeline) 0 0 0 rfl (graph.launched pipeline)
  | _ => cases fresh

theorem notify (notified : Nat) :
    Phase graph pipeline work finalizations { state with finishedDependencies := notified } := by
  cases phase with
  | idle => exact .idle notified
  | working _ _ executing counting ended all some =>
    exact .working notified work executing counting ended all some
  | beforeFinalize => exact .beforeFinalize notified
  | finalizedAlone => exact .finalizedAlone notified
  | merging _ _ combining combined ended caller all some launches =>
    exact .merging notified finalizations combining combined ended caller all some launches
  | ending _ added caller finishing launched alone shape =>
    exact .ending notified added caller finishing launched alone shape

theorem finishing {first : List Nat} {more : List (List Nat)} (present : state.finishing = first :: more) :
    more = [] ∧ first <:+ graph.parents pipeline ∧ 0 < state.log.scheduled ∧ 0 < state.log.finished ∧
      ∀ later, later = [] ∨ (∃ rest, rest <:+ graph.parents pipeline ∧ later = [rest]) →
        Phase graph pipeline work finalizations { state with finishing := later } := by
  cases phase with
  | ending notified added caller finishing launched alone shape =>
    obtain rfl : finishing = first :: more := present
    rcases shape with empty | ⟨rest, suffix, same⟩
    · cases empty
    · cases same
      exact ⟨rfl, suffix, Nat.one_pos, Nat.one_pos,
        fun later shape => .ending notified added caller later launched alone shape⟩
  | _ => cases present

theorem finished_of_log (ended : 0 < state.log.finished) : state.finished = true := by
  cases phase with
  | ending => rfl
  | _ => cases ended

theorem log_bounds : state.log.scheduled ≤ 1 ∧ state.log.finalized ≤ 1 ∧ state.log.finished ≤ 1 := by
  cases phase with
  | idle => exact ⟨Nat.zero_le 1, Nat.zero_le 1, Nat.zero_le 1⟩
  | working | beforeFinalize => exact ⟨Nat.le_refl 1, Nat.zero_le 1, Nat.zero_le 1⟩
  | finalizedAlone | merging => exact ⟨Nat.le_refl 1, Nat.le_refl 1, Nat.zero_le 1⟩
  | ending => exact ⟨Nat.le_refl 1, Nat.le_refl 1, Nat.le_refl 1⟩

theorem afterTasks (called : 0 < state.log.finalized) :
    state.log.ended = graph.tasks pipeline ∧ work = 0 ∧ state.executing = 0 ∧ state.counting = 0 := by
  cases phase with
  | finalizedAlone | merging | ending => exact ⟨rfl, rfl, rfl, rfl⟩
  | _ => cases called

theorem afterFinalizations (ended : 0 < state.log.finished) : state.log.finalized = 1 ∧ finalizations = 0 ∧
      state.launching = [] ∧ state.combining = 0 ∧ state.combined = 0 ∧
      state.log.ended + state.log.finalizationsEnded = state.totalTasks := by
  cases phase with
  | ending notified added caller finishing launched alone shape =>
    refine ⟨rfl, rfl, ?_, rfl, rfl, rfl⟩
    cases caller with
    | launching left => exact absurd rfl (launched left)
    | _ => rfl
  | _ => cases ended

/-- A completed pipeline is quiet once its caller of `Finalize` has made the comparison. -/
theorem quiet_of_done (done : state.done = true) (compared : state.comparing = []) :
    work = 0 ∧ finalizations = 0 ∧ state.Quiet ∧ state.log.scheduled = 1 ∧
      state.log.finalized = 1 ∧ state.log.finished = 1 := by
  cases phase with
  | ending notified added caller finishing launched alone shape =>
    obtain rfl : finishing = [] := by simpa [PipelineState.done, PipelineState.ending] using done
    refine ⟨rfl, rfl, ⟨rfl, rfl, rfl, ?_, compared, rfl, rfl, rfl⟩, rfl, rfl, rfl⟩
    cases caller with
    | launching left => exact absurd rfl (launched left)
    | _ => rfl
  | _ => cases done

theorem quiet_of_unscheduled (fresh : state.log.scheduled = 0) : work = 0 ∧ finalizations = 0 ∧ state.Quiet := by
  cases phase with
  | idle => exact ⟨rfl, rfl, ⟨rfl, rfl, rfl, rfl, rfl, rfl, rfl, rfl⟩⟩
  | _ => cases fresh

end

theorem of_quiet (phase : Phase graph pipeline 0 0 state) (quiet : state.Quiet) :
    state.log.scheduled = 0 ∨ state.log.scheduled = 1 ∧ state.log.finalized = 1 ∧
      state.log.finished = 1 ∧ state.done = true := by
  cases phase with
  | idle => exact .inl rfl
  | working notified _ executing counting ended all some =>
    have idle := quiet.executing
    have counted := quiet.counting
    dsimp only [PipelineState.working] at idle counted
    omega
  | beforeFinalize => exact absurd quiet.finalizing (cons_ne_nil _ _)
  | finalizedAlone => exact absurd quiet.comparing (cons_ne_nil _ _)
  | merging notified _ combining combined ended caller all some launches =>
    have none := quiet.launching
    have combines := quiet.combining
    have counted := quiet.combined
    dsimp only [PipelineState.merging] at none combines counted
    cases caller with
    | launching => cases none
    | _ =>
      simp only [Caller.left] at some
      omega
  | ending notified added caller finishing launched alone shape =>
    obtain rfl : finishing = [] := quiet.finishing
    exact .inr ⟨rfl, rfl, rfl, rfl⟩

end Phase

end GuinsooDB
