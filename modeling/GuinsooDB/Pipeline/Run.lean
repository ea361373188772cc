import GuinsooDB.Pipeline.Phase
import GuinsooDB.Library.Transition
import Mathlib.Data.List.Count
import Mathlib.Data.List.Nodup

/-!
What holds in every state that the threads reach together: no pipeline is scheduled, finalized
or finished twice or too early, the main thread returns after all tasks, and when no thread has
anything left to do every pipeline is finished.
-/

namespace GuinsooDB

open ExecutorState List Option Transition Or

def ExecutorStatus.rest : ExecutorStatus → List Nat
  | .scheduling rest => rest
  | _ => []

def ExecutorStatus.isRunning : ExecutorStatus → Bool
  | .scheduling _ | .waiting => true
  | _ => false

def Started (graph : PipelineGraph) (status : ExecutorStatus) (pipeline notified : Nat) : Prop :=
  if graph.dependencies pipeline = [] then pipeline < graph.count ∧ pipeline ∉ status.rest
  else notified = (graph.dependencies pipeline).length

theorem countP_add_one {Element : Type*} {list : List Element} {before after : Element → Bool}
    {changed : Element} (distinct : list.Nodup) (inside : changed ∈ list)
    (off : before changed = false) (on : after changed = true)
    (same : ∀ other, other ≠ changed → after other = before other) :
    list.countP after = list.countP before + 1 := by
  obtain ⟨front, back, rfl⟩ := append_of_mem inside
  have apart := nodup_append.mp distinct
  have fresh := nodup_cons.mp apart.2.1
  have frontSame : front.countP after = front.countP before := by
    refine countP_congr fun other there => ?_
    rw [same other (apart.2.2 other there changed mem_cons_self)]
  have backSame : back.countP after = back.countP before := by
    refine countP_congr fun other there => ?_
    rw [same other fun equal => fresh.1 (equal ▸ there)]
  rw [countP_append, countP_append, countP_cons_of_pos on,
    countP_cons_of_neg (by simp [off]), frontSame, backSame, Nat.add_assoc]

structure Agreement (graph : PipelineGraph) (standing : Nat → Standing) (completed : Nat)
    (status : ExecutorStatus) : Prop where
  outside : ∀ pipeline, 0 < (standing pipeline).scheduled → pipeline < graph.count
  notified : ∀ pipeline, (standing pipeline).notified =
    (graph.dependencies pipeline).countP fun other => pipeline ∉ (standing other).unnotified
  scheduled : ∀ pipeline, 0 < (standing pipeline).scheduled ↔
    Started graph status pipeline (standing pipeline).notified
  completed : completed = (range graph.count).countP fun pipeline => (standing pipeline).done

namespace Agreement

variable {graph : PipelineGraph} {standing after : Nat → Standing} {completed pipeline : Nat}
  {status later : ExecutorStatus}

variable (agreement : Agreement graph standing completed status)
include agreement

theorem of_status (same : ∀ pipeline notified, Started graph later pipeline notified ↔
      Started graph status pipeline notified) : Agreement graph standing completed later :=
  ⟨agreement.outside, agreement.notified,
    fun pipeline => (agreement.scheduled pipeline).trans (same _ _).symm, agreement.completed⟩

theorem congr (same : ∀ pipeline, after pipeline = standing pipeline) : Agreement graph after completed status := by
  rwa [funext same]

theorem schedule (inside : pipeline < graph.count) (begun : Started graph later pipeline (standing pipeline).notified)
    (same : ∀ other, other ≠ pipeline → ∀ notified, Started graph later other notified ↔
      Started graph status other notified) :
    Agreement graph (fun other => { standing other with
      scheduled := (standing other).scheduled + if other = pipeline then 1 else 0 })
      completed later := by
  refine ⟨?_, agreement.notified, ?_, agreement.completed⟩
  · intro other positive
    by_cases equal : other = pipeline
    · rw [equal]
      exact inside
    · simp only [if_neg equal] at positive
      exact agreement.outside other positive
  · intro other
    by_cases equal : other = pipeline
    · simp only [equal]
      exact ⟨fun _ => begun, fun _ => Nat.succ_pos _⟩
    · simp only [if_neg equal]
      rw [same other equal]
      exact agreement.scheduled other

theorem completeDependency {parent : Nat} {rest : List Nat}
    (first : (standing pipeline).unnotified = parent :: rest) (distinct : (parent :: rest).Nodup)
    (depends : pipeline ∈ graph.dependencies parent) :
    (standing parent).scheduled = 0 ∧ Agreement graph (fun other =>
      { scheduled := (standing other).scheduled +
          if other = parent ∧ (standing parent).notified + 1 = (graph.dependencies parent).length
          then 1 else 0
        notified := (standing other).notified + if other = parent then 1 else 0
        unnotified := if other = pipeline then rest else (standing other).unnotified
        done := (standing other).done }) completed status := by
  have some : graph.dependencies parent ≠ [] := ne_nil_of_mem depends
  have awaited : (standing parent).notified < (graph.dependencies parent).length := by
    rw [agreement.notified]
    refine countP_lt_length_iff.mpr ⟨pipeline, depends, ?_⟩
    simp [first]
  have fresh : (standing parent).scheduled = 0 := by
    by_contra begun
    have started := (agreement.scheduled parent).mp (Nat.pos_of_ne_zero begun)
    rw [Started, if_neg some] at started
    omega
  refine ⟨fresh, ?_, ?_, ?_, agreement.completed⟩
  · intro other positive
    by_cases equal : other = parent
    · rw [equal]
      exact (graph.inside parent pipeline depends).1
    · simp only [equal, false_and, if_false] at positive
      exact agreement.outside other positive
  · intro other
    dsimp only
    rw [agreement.notified]
    by_cases equal : other = parent
    · rw [if_pos equal, equal]
      refine (countP_add_one (graph.distinct parent) depends ?_ ?_ ?_).symm
      · simp [first]
      · simpa using (nodup_cons.mp distinct).1
      · intro dependency different
        rw [if_neg different]
    · rw [if_neg equal, Nat.add_zero]
      refine countP_congr fun dependency _ => ?_
      split
      next same =>
        rw [same, first]
        simp [equal]
      · rfl
  · intro other
    dsimp only
    by_cases equal : other = parent
    · rw [equal, fresh, Started, if_neg some, if_pos rfl]
      by_cases last : (standing parent).notified + 1 = (graph.dependencies parent).length
      · simp [last]
      · simp [last]
    · rw [if_neg fun both => equal both.1, if_neg equal]
      exact agreement.scheduled other

theorem completePipeline (inside : pipeline < graph.count) (before : (standing pipeline).done = false) :
    Agreement graph (fun other => { standing other with
      done := decide (other = pipeline) || (standing other).done }) (completed + 1) status := by
  refine ⟨agreement.outside, agreement.notified, agreement.scheduled, ?_⟩
  rw [agreement.completed]
  refine (countP_add_one nodup_range (mem_range.mpr inside) before ?_ ?_).symm
  · simp
  · intro other different
    simp [different]

theorem completed_le : completed ≤ graph.count := by
  rw [agreement.completed]
  exact Nat.le_trans countP_le_length (Nat.le_of_eq length_range)

theorem all_done (all : graph.count ≤ completed) (pipeline : Nat) (inside : pipeline < graph.count) :
    (standing pipeline).done = true := by
  have counted : (range graph.count).countP (fun pipeline => (standing pipeline).done) =
      (range graph.count).length := by
    rw [← agreement.completed, length_range]
    exact Nat.le_antisymm agreement.completed_le all
  exact countP_eq_length.mp counted pipeline (mem_range.mpr inside)

end Agreement

namespace ExecutorState

variable (graph : PipelineGraph)

structure Quiet (state : ExecutorState) : Prop where
  queue : state.queue = []
  pipelines : ∀ pipeline < graph.count, (state.pipelines pipeline).Quiet

structure Complete (state : ExecutorState) : Prop where
  once : ∀ pipeline < graph.count, (state.pipelines pipeline).log.scheduled = 1 ∧
    (state.pipelines pipeline).log.finalized = 1 ∧ (state.pipelines pipeline).log.finished = 1
  completed : state.completedPipelines = graph.count

def Leaves (state : ExecutorState) : Prop :=
  match state.status with
  | .returned error => state.Quiet graph ∧ state.Complete graph ∧ error = state.exceptions.head?
  | .escaped error => state.Quiet graph ∧ some error = state.exceptions.head?
  | .terminated => False
  | .scheduling _ | .waiting => True

structure Sound (state : ExecutorState) : Prop where
  scheduled : ∀ pipeline, (state.pipelines pipeline).log.scheduled ≤ 1
  afterDependencies : ∀ pipeline, 0 < (state.pipelines pipeline).log.scheduled →
    ∀ other ∈ graph.dependencies pipeline, (state.pipelines other).finished = true
  finalized : ∀ pipeline, (state.pipelines pipeline).log.finalized ≤ 1
  afterTasks : ∀ pipeline, 0 < (state.pipelines pipeline).log.finalized →
    (state.pipelines pipeline).log.ended = graph.tasks pipeline ∧
      state.queue.count (.work pipeline) = 0 ∧ (state.pipelines pipeline).executing = 0 ∧
      (state.pipelines pipeline).counting = 0
  finished : ∀ pipeline, (state.pipelines pipeline).log.finished ≤ 1
  afterFinalizations : ∀ pipeline, 0 < (state.pipelines pipeline).log.finished →
    (state.pipelines pipeline).log.finalized = 1 ∧ state.queue.count (.finalization pipeline) = 0 ∧
      (state.pipelines pipeline).launching = [] ∧ (state.pipelines pipeline).combining = 0 ∧
      (state.pipelines pipeline).combined = 0 ∧
      (state.pipelines pipeline).log.ended + (state.pipelines pipeline).log.finalizationsEnded =
        (state.pipelines pipeline).totalTasks
  leaves : state.Leaves graph
  complete : state.status = .waiting → state.Quiet graph → state.Complete graph

/-- No added task throws, `Finalize` does not throw once it has added tasks, and the main thread
does not see the last pipeline completed while a thread is on its way from `Finalize` to the
comparison after it. -/
def Allowed (state : ExecutorState) : ExecutorAction → Prop
  | .scheduleFails _ _ | .finalizeHTFails _ _ _ => False
  | .poll => state.completedPipelines < graph.count ∨
      ∀ pipeline < graph.count, (state.pipelines pipeline).comparing = []
  | _ => True

instance (state : ExecutorState) : (action : ExecutorAction) →
    Decidable (Allowed graph state action)
  | .scheduleFails _ _ | .finalizeHTFails _ _ _ => instDecidableFalse
  | .poll => inferInstanceAs (Decidable (_ ∨ _))
  | .scheduleNext | .take | .execute _ _ | .finishTask _ | .finalize _ _ | .scheduleTask _
  | .compare _ | .finalizeHT _ | .finishFinalization _ | .completeDependency _
  | .completePipeline _ => instDecidableTrue

structure Invariant (state : ExecutorState) : Prop where
  phases : ∀ pipeline, Phase graph pipeline (state.queue.count (.work pipeline))
    (state.queue.count (.finalization pipeline)) (state.pipelines pipeline)
  agreement : Agreement graph (fun pipeline => (state.pipelines pipeline).standing graph pipeline)
    state.completedPipelines state.status
  order : state.status.rest.Nodup ∧ ∀ pipeline ∈ state.status.rest, pipeline < graph.count
  leaves : state.status.isRunning = true ∨ ∃ error, state.status = .returned error ∧
    state.Quiet graph ∧ state.Complete graph ∧ error = state.exceptions.head?

variable {graph} {state next : ExecutorState}

/-! A step of one pipeline -/

theorem set_pipelines {pipeline : Nat} {changed : PipelineState} {other : Nat} :
    (state.set pipeline changed).pipelines other = if other = pipeline then changed else state.pipelines other := by
  simp only [set, Function.update_apply]

theorem set_standing (pipeline : Nat) (changed : PipelineState) (other : Nat) :
    ((state.set pipeline changed).pipelines other).standing graph other =
      if other = pipeline then changed.standing graph pipeline
      else (state.pipelines other).standing graph other := by
  rw [set_pipelines]
  split
  next same =>
    rw [same]
  · rfl

abbrev Phased (graph : PipelineGraph) (state : ExecutorState) : Prop :=
  ∀ pipeline, Phase graph pipeline (state.queue.count (.work pipeline))
    (state.queue.count (.finalization pipeline)) (state.pipelines pipeline)

variable {pipeline : Nat} {changed : PipelineState}

theorem set_phased (phased : state.Phased graph) (phase : Phase graph pipeline (state.queue.count (.work pipeline))
      (state.queue.count (.finalization pipeline)) changed) :
    (state.set pipeline changed).Phased graph := by
  intro other
  rw [set_pipelines]
  split
  next equal =>
    rw [equal]
    exact phase
  · exact phased other

section

variable (invariant : state.Invariant graph) (running : state.status.isRunning = true)
include invariant running

variable {exceptions : List String}

theorem Invariant.advanced {queue : List Job} (advances : Advances graph pipeline (queue.count (.work pipeline))
      (queue.count (.finalization pipeline)) (state.pipelines pipeline) changed)
    (others : ∀ other, other ≠ pipeline → queue.count (.work other) = state.queue.count (.work other) ∧
      queue.count (.finalization other) = state.queue.count (.finalization other)) :
    ({ state.set pipeline changed with queue, exceptions } : ExecutorState).Invariant graph := by
  have standing : (fun other => ((state.set pipeline changed).pipelines other).standing graph other) =
      fun other => (state.pipelines other).standing graph other := by
    funext other
    rw [set_standing, advances.2]
    split
    next same =>
      rw [same]
    · rfl
  refine ⟨?_, ?_, invariant.order, inl running⟩
  · intro other
    rw [set_pipelines]
    split
    next same =>
      rw [same]
      exact advances.1
    next different =>
      rw [(others other different).1, (others other different).2]
      exact invariant.phases other
  · dsimp only
    rw [standing]
    exact invariant.agreement

theorem Invariant.advance {step : PipelineState → Option PipelineState}
    (advances : ∀ changed, step (state.pipelines pipeline) = some changed →
      Advances graph pipeline (state.queue.count (.work pipeline))
        (state.queue.count (.finalization pipeline)) (state.pipelines pipeline) changed)
    (stepped : state.advance pipeline step = some next) :
    ({ next with exceptions } : ExecutorState).Invariant graph := by
  obtain ⟨changed, made, rfl⟩ := map_eq_some_iff.mp stepped
  exact invariant.advanced running (advances changed made) fun _ _ => ⟨rfl, rfl⟩

theorem Invariant.take (stepped : state.take = some next) : next.Invariant graph := by
  rw [ExecutorState.take] at stepped
  split at stepped
  · cases stepped
  next pipeline rest queue =>
    cases stepped
    have phase := invariant.phases pipeline
    rw [queue, count_cons_self, count_cons_of_ne (by simp)] at phase
    refine invariant.advanced running phase.takeWork fun other different => ?_
    rw [queue, count_cons_of_ne (by simpa using different.symm), count_cons_of_ne (by simp)]
    exact ⟨rfl, rfl⟩
  next pipeline rest queue =>
    cases stepped
    have phase := invariant.phases pipeline
    rw [queue, count_cons_self, count_cons_of_ne (by simp)] at phase
    refine invariant.advanced running phase.takeFinalization fun other different => ?_
    rw [queue, count_cons_of_ne (by simp), count_cons_of_ne (by simpa using different.symm)]
    exact ⟨rfl, rfl⟩

theorem Invariant.scheduleTask (stepped : state.advance pipeline scheduleTask = some next) :
    ({ next with queue := state.queue ++ [.finalization pipeline] } : ExecutorState).Invariant
      graph := by
  obtain ⟨changed, made, rfl⟩ := map_eq_some_iff.mp stepped
  refine invariant.advanced running ?_ fun other different => ?_
  · rw [count_append, count_append, count_singleton_self, count_singleton, if_neg (by simp)]
    exact (invariant.phases pipeline).scheduleTask made
  · rw [count_append, count_append, count_singleton, count_singleton,
      if_neg (by simp), if_neg (by simpa using different.symm)]
    exact ⟨rfl, rfl⟩

end

/-! Steps that concern more than one pipeline -/

theorem schedule_pipelines (pipeline other : Nat) :
    (state.schedule graph pipeline).pipelines other = if other = pipeline then
      { state.pipelines pipeline with
        totalTasks := graph.tasks pipeline
        log := { (state.pipelines pipeline).log with
          scheduled := (state.pipelines pipeline).log.scheduled + 1 } }
      else state.pipelines other := by
  rw [schedule]
  exact set_pipelines

theorem schedule_phased (phased : state.Phased graph) (fresh : (state.pipelines pipeline).log.scheduled = 0) :
    (state.schedule graph pipeline).Phased graph := by
  intro other
  rw [schedule_pipelines]
  dsimp only [schedule, set]
  have added : (replicate (graph.tasks pipeline) (Job.work pipeline)).count
      (.finalization other) = 0 := count_eq_zero.mpr (by simp)
  rw [count_append, count_append, added, Nat.add_zero]
  by_cases equal : other = pipeline
  · rw [if_pos equal, equal, count_replicate_self]
    exact (phased pipeline).schedule fresh
  · have none : (replicate (graph.tasks pipeline) (Job.work pipeline)).count
        (.work other) = 0 := count_eq_zero.mpr (by simp [equal])
    rw [if_neg equal, none, Nat.add_zero]
    exact phased other

theorem schedule_standing (pipeline other : Nat) :
    ((state.schedule graph pipeline).pipelines other).standing graph other =
      let before := (state.pipelines other).standing graph other
      { before with scheduled := before.scheduled + if other = pipeline then 1 else 0 } := by
  rw [schedule_pipelines]
  split
  next equal =>
    rw [equal]
    rfl
  · rfl

def counted (state : ExecutorState) (pipeline parent : Nat) (rest : List Nat) : ExecutorState :=
  (state.set pipeline { state.pipelines pipeline with finishing := [rest] }).set parent
    { state.pipelines parent with
      finishedDependencies := (state.pipelines parent).finishedDependencies + 1 }

theorem counted_standing {parent : Nat} {rest : List Nat}
    (present : (state.pipelines pipeline).finishing = [parent :: rest])
    (ended : 0 < (state.pipelines pipeline).log.finished) (different : parent ≠ pipeline)
    (other : Nat) :
    ((state.counted pipeline parent rest).pipelines other).standing graph other =
      let before := (state.pipelines other).standing graph other
      { before with
        notified := before.notified + if other = parent then 1 else 0
        unnotified := if other = pipeline then rest else before.unnotified } := by
  rw [counted, set_standing, set_standing]
  by_cases isParent : other = parent
  · simp [isParent, different, PipelineState.standing, PipelineState.unnotified, PipelineState.done]
  · by_cases isChild : other = pipeline
    · simp [isChild, different.symm, PipelineState.standing, PipelineState.unnotified,
        PipelineState.done, present, Nat.ne_of_gt ended]
    · simp [isParent, isChild]

theorem queue_eq_nil (none : ∀ pipeline, state.queue.count (.work pipeline) = 0 ∧
    state.queue.count (.finalization pipeline) = 0) : state.queue = [] := by
  refine eq_nil_iff_forall_not_mem.mpr fun job there => ?_
  cases job with
  | work pipeline => exact count_eq_zero.mp (none pipeline).1 there
  | finalization pipeline => exact count_eq_zero.mp (none pipeline).2 there

section

variable (invariant : state.Invariant graph)
include invariant

theorem Invariant.unscheduled
    (waits : ¬ Started graph state.status pipeline (state.pipelines pipeline).finishedDependencies) :
    (state.pipelines pipeline).log.scheduled = 0 := by
  by_contra begun
  exact waits ((invariant.agreement.scheduled pipeline).mp (Nat.pos_of_ne_zero begun))

theorem Invariant.scheduleNext (stepped : state.scheduleNext graph = some next) : next.Invariant graph := by
  rw [ExecutorState.scheduleNext] at stepped
  split at stepped
  next settled =>
    cases stepped
    refine ⟨invariant.phases, invariant.agreement.of_status ?_, ⟨nodup_nil, by simp [
      ExecutorStatus.rest]⟩, inl rfl⟩
    intro pipeline notified
    rw [settled]
    rfl
  next pipeline rest position =>
    have order := invariant.order
    rw [position] at order
    simp only [ExecutorStatus.rest, nodup_cons, mem_cons, forall_eq_or_imp] at order
    have others : ∀ other, other ≠ pipeline → ∀ notified,
        Started graph (.scheduling rest) other notified ↔ Started graph state.status other notified := by
      intro other different notified
      rw [position]
      simp [Started, ExecutorStatus.rest, different]
    cases stepped
    split
    next free =>
      rw [List.isEmpty_iff] at free
      have fresh : (state.pipelines pipeline).log.scheduled = 0 := by
        refine invariant.unscheduled ?_
        rw [position, Started, if_pos free]
        simp [ExecutorStatus.rest]
      refine ⟨schedule_phased invariant.phases fresh, ?_, ⟨order.1.2, order.2.2⟩, inl rfl⟩
      refine (invariant.agreement.schedule order.2.1 ?_ others).congr (schedule_standing pipeline)
      rw [Started, if_pos free]
      exact ⟨order.2.1, order.1.1⟩
    next bound =>
      rw [List.isEmpty_iff] at bound
      refine ⟨invariant.phases, invariant.agreement.of_status ?_, ⟨order.1.2, order.2.2⟩, inl rfl⟩
      intro other notified
      by_cases equal : other = pipeline
      · rw [equal, Started, Started, if_neg bound, if_neg bound]
      · exact others other equal notified
  · cases stepped

theorem Invariant.completePipeline (running : state.status.isRunning = true)
    (stepped : state.completePipeline pipeline = some next) : next.Invariant graph := by
  rw [ExecutorState.completePipeline] at stepped
  split at stepped
  next more present =>
    cases stepped
    obtain ⟨rfl, _, scheduled, ended, later⟩ := (invariant.phases pipeline).finishing present
    refine ⟨set_phased invariant.phases (later [] (inl rfl)), ?_, invariant.order, inl running⟩
    have before : ((state.pipelines pipeline).standing graph pipeline).done = false := by
      simp [PipelineState.standing, PipelineState.done, present]
    refine (invariant.agreement.completePipeline
      (invariant.agreement.outside pipeline scheduled) before).congr fun other => ?_
    rw [set_standing]
    split <;> simp_all [PipelineState.standing, PipelineState.unnotified, PipelineState.done, Nat.ne_of_gt ended]
  · cases stepped

theorem Invariant.completeDependency (running : state.status.isRunning = true)
    (stepped : state.completeDependency graph pipeline = some next) : next.Invariant graph := by
  rw [ExecutorState.completeDependency] at stepped
  split at stepped
  next parent rest more present =>
    obtain ⟨rfl, suffix, _, ended, later⟩ := (invariant.phases pipeline).finishing present
    have depends : pipeline ∈ graph.dependencies parent :=
      (graph.linked parent pipeline).mpr (suffix.subset mem_cons_self)
    have different : parent ≠ pipeline := by
      rintro rfl
      exact Nat.lt_irrefl _ (graph.acyclic parent parent depends)
    have distinct : (parent :: rest).Nodup := suffix.sublist.nodup (graph.parentsDistinct pipeline)
    have remaining : (state.pipelines pipeline).unnotified graph pipeline = parent :: rest := by
      simp [PipelineState.unnotified, present, Nat.ne_of_gt ended]
    have phased : (state.counted pipeline parent rest).Phased graph := set_phased (set_phased
      invariant.phases (later [rest] (inr ⟨rest, (suffix_cons parent rest).trans suffix, rfl⟩)))
      ((invariant.phases parent).notify _)
    have standing := @counted_standing graph state pipeline parent rest present ended different
    have found : (state.set pipeline { state.pipelines pipeline with finishing := [rest] }).pipelines parent =
        state.pipelines parent := by
      rw [set_pipelines, if_neg different]
    simp only [found] at stepped
    cases stepped
    obtain ⟨fresh, agreement⟩ := invariant.agreement.completeDependency remaining distinct depends
    split
    next last =>
      refine ⟨schedule_phased phased ?_, agreement.congr fun other => ?_, invariant.order, inl running⟩
      · exact (congrArg Standing.scheduled (standing parent)).trans fresh
      · refine (@schedule_standing graph (state.counted pipeline parent rest) parent other).trans ?_
        simp only [standing]
        simp only [PipelineState.standing, last, and_true]
    next more =>
      refine ⟨phased, agreement.congr fun other => ?_, invariant.order, inl running⟩
      refine (standing other).trans ?_
      simp only [PipelineState.standing, more, and_false, if_false, Nat.add_zero]
  · cases stepped

theorem Invariant.outside (outside : ¬ pipeline < graph.count) : state.queue.count (.work pipeline) = 0 ∧
      state.queue.count (.finalization pipeline) = 0 ∧ (state.pipelines pipeline).Quiet := by
  refine (invariant.phases pipeline).quiet_of_unscheduled ?_
  by_contra begun
  exact outside (invariant.agreement.outside pipeline (Nat.pos_of_ne_zero begun))

theorem Invariant.poll (allowed : Allowed graph state .poll)
    (stepped : state.poll graph = some next) : next.Invariant graph := by
  rw [ExecutorState.poll] at stepped
  split at stepped
  next waiting =>
    split at stepped
    · cases stepped
      exact invariant
    rename_i all
    cases stepped
    have compared := allowed.resolve_left all
    have settled : ∀ pipeline < graph.count, _ := fun pipeline inside =>
      (invariant.phases pipeline).quiet_of_done (invariant.agreement.all_done (Nat.le_of_not_lt all) pipeline inside)
        (compared pipeline inside)
    have none : ∀ pipeline, state.queue.count (.work pipeline) = 0 ∧
        state.queue.count (.finalization pipeline) = 0 := by
      intro pipeline
      by_cases inside : pipeline < graph.count
      · exact ⟨(settled pipeline inside).1, (settled pipeline inside).2.1⟩
      · exact ⟨(invariant.outside inside).1, (invariant.outside inside).2.1⟩
    refine ⟨invariant.phases, invariant.agreement.of_status ?_, ⟨nodup_nil, by
      simp [ExecutorStatus.rest]⟩, inr ⟨_, rfl, ⟨?_, ?_⟩, ⟨?_, ?_⟩, rfl⟩⟩
    · intro pipeline notified
      rw [waiting]
      rfl
    · exact queue_eq_nil none
    · exact fun pipeline inside => (settled pipeline inside).2.2.1
    · exact fun pipeline inside => (settled pipeline inside).2.2.2
    · exact Nat.le_antisymm invariant.agreement.completed_le (Nat.le_of_not_lt all)
  · cases stepped

end

theorem step_none {error : Option String} (queue : state.queue = [])
    (quiet : ∀ pipeline, (state.pipelines pipeline).Quiet)
    (returned : state.status = .returned error) (action : ExecutorAction) :
    state.step graph action = none := by
  cases action with
  | scheduleNext => simp [step, ExecutorState.scheduleNext, returned]
  | take => simp [step, ExecutorState.take, queue]
  | execute pipeline | finishTask pipeline | finalize pipeline | scheduleTask pipeline | scheduleFails pipeline
  | compare pipeline | finalizeHT pipeline | finalizeHTFails pipeline | finishFinalization pipeline
  | completeDependency pipeline | completePipeline pipeline =>
    obtain ⟨_, _, _, _, _, _, _, _⟩ := quiet pipeline
    simp [step, advance, finishTask, finalize, scheduleTask, scheduleFails, compare, finishFinalization,
      completeDependency, completePipeline, *]
  | poll => simp [step, poll, returned]

theorem Invariant.step {action : ExecutorAction} (invariant : state.Invariant graph)
    (allowed : Allowed graph state action) (stepped : state.step graph action = some next) :
    next.Invariant graph := by
  rcases invariant.leaves with running | ⟨error, returned, quiet, _, _⟩
  · cases action with
    | scheduleNext => exact invariant.scheduleNext stepped
    | take => exact invariant.take running stepped
    | execute pipeline error =>
      obtain ⟨moved, made, rfl⟩ := map_eq_some_iff.mp stepped
      refine invariant.advance running (fun changed counted => ?_) made
      split at counted
      · cases counted
      next executing present =>
        cases counted
        exact (invariant.phases pipeline).execute present
    | finishTask pipeline =>
      exact invariant.advance running (fun _ => (invariant.phases pipeline).finishTask) stepped
    | finalize pipeline error =>
      obtain ⟨moved, made, rfl⟩ := map_eq_some_iff.mp stepped
      exact invariant.advance running (fun _ => (invariant.phases pipeline).finalize) made
    | scheduleTask pipeline =>
      obtain ⟨moved, made, rfl⟩ := map_eq_some_iff.mp stepped
      exact invariant.scheduleTask running made
    | scheduleFails | finalizeHTFails => exact allowed.elim
    | compare pipeline =>
      exact invariant.advance running (fun _ => (invariant.phases pipeline).compare) stepped
    | finalizeHT pipeline =>
      rw [ExecutorState.step] at stepped
      refine invariant.advance running (fun changed counted => ?_) stepped
      split at counted
      · cases counted
      next combining present =>
        cases counted
        exact (invariant.phases pipeline).finalizeHT present
    | finishFinalization pipeline =>
      exact invariant.advance running (fun _ => (invariant.phases pipeline).finishFinalization) stepped
    | completeDependency pipeline => exact invariant.completeDependency running stepped
    | completePipeline pipeline => exact invariant.completePipeline running stepped
    | poll => exact invariant.poll allowed stepped
  · have everywhere : ∀ pipeline, (state.pipelines pipeline).Quiet := by
      intro pipeline
      by_cases inside : pipeline < graph.count
      · exact quiet.pipelines pipeline inside
      · exact (invariant.outside inside).2.2
    rw [step_none quiet.queue everywhere returned] at stepped
    cases stepped

theorem start_invariant : (start graph).Invariant graph := by
  refine ⟨fun _ => .idle 0, ⟨?_, ?_, ?_, ?_⟩, ⟨nodup_range, ?_⟩, inl rfl⟩
  · intro pipeline positive
    cases positive
  · intro pipeline
    refine (countP_eq_zero.mpr fun other depends => ?_).symm
    simpa [PipelineState.standing, PipelineState.unnotified, start, PipelineState.initial] using
      (graph.linked pipeline other).mp depends
  · intro pipeline
    refine ⟨fun positive => (Nat.lt_irrefl 0 positive).elim, fun started => ?_⟩
    rw [Started] at started
    split at started
    · exact absurd (mem_range.mpr started.1) started.2
    next some =>
      exact absurd (length_eq_zero_iff.mp started.symm) some
  · refine (countP_eq_zero.mpr fun pipeline _ => ?_).symm
    simp [PipelineState.standing, PipelineState.done, start, PipelineState.initial]
  · exact fun pipeline there => mem_range.mp there

/-! What the invariant says -/

section

variable (invariant : state.Invariant graph)
include invariant

theorem Invariant.dependencies_finished (begun : 0 < (state.pipelines pipeline).log.scheduled)
    (other : Nat) (depends : other ∈ graph.dependencies pipeline) :
    (state.pipelines other).finished = true := by
  have started := (invariant.agreement.scheduled pipeline).mp begun
  rw [Started, if_neg (ne_nil_of_mem depends), invariant.agreement.notified] at started
  have notified := countP_eq_length.mp started other depends
  simp only [decide_eq_true_eq] at notified
  refine (invariant.phases other).finished_of_log (Nat.pos_of_ne_zero fun unfinished => notified ?_)
  rw [PipelineState.standing, PipelineState.unnotified, if_pos unfinished]
  exact (graph.linked pipeline other).mp depends

theorem Invariant.all_over (waiting : state.status = .waiting) (quiet : state.Quiet graph)
    (pipeline : Nat) (inside : pipeline < graph.count) :
    (state.pipelines pipeline).log.scheduled = 1 ∧ (state.pipelines pipeline).log.finalized = 1 ∧
      (state.pipelines pipeline).log.finished = 1 ∧ (state.pipelines pipeline).done = true := by
  induction rank : graph.rank pipeline using Nat.strongRecOn generalizing pipeline with
  | _ rank ih =>
    have phase := invariant.phases pipeline
    rw [quiet.queue] at phase
    refine (phase.of_quiet (quiet.pipelines pipeline inside)).resolve_left fun unscheduled => ?_
    have started : Started graph state.status pipeline (state.pipelines pipeline).finishedDependencies := by
      rw [Started, waiting]
      split
      · exact ⟨inside, not_mem_nil⟩
      refine (invariant.agreement.notified pipeline).trans (countP_eq_length.mpr fun other depends => ?_)
      obtain ⟨_, _, finished, done⟩ := ih (graph.rank other) (rank ▸ graph.acyclic pipeline other depends) other
        (graph.inside pipeline other depends).2 rfl
      simp only [PipelineState.done, Bool.and_eq_true, List.isEmpty_iff] at done
      simp [PipelineState.standing, PipelineState.unnotified, finished, done.2]
    exact Nat.lt_irrefl 0 (unscheduled ▸ (invariant.agreement.scheduled pipeline).mpr started)

theorem Invariant.complete (waiting : state.status = .waiting) (quiet : state.Quiet graph) : state.Complete graph := by
  have settled := invariant.all_over waiting quiet
  refine ⟨fun pipeline inside => ?_, ?_⟩
  · obtain ⟨scheduled, finalized, finished, _⟩ := settled pipeline inside
    exact ⟨scheduled, finalized, finished⟩
  · have all : ∀ pipeline ∈ range graph.count, ((state.pipelines pipeline).standing graph pipeline).done = true :=
      fun pipeline there => (settled pipeline (mem_range.mp there)).2.2.2
    rw [invariant.agreement.completed, countP_eq_length.mpr all, length_range]

theorem Invariant.sound : state.Sound graph where
  scheduled pipeline := (invariant.phases pipeline).log_bounds.1
  afterDependencies _ begun := invariant.dependencies_finished begun
  finalized pipeline := (invariant.phases pipeline).log_bounds.2.1
  afterTasks pipeline := (invariant.phases pipeline).afterTasks
  finished pipeline := (invariant.phases pipeline).log_bounds.2.2
  afterFinalizations pipeline := (invariant.phases pipeline).afterFinalizations
  leaves := by
    rw [Leaves]
    rcases invariant.leaves with running | ⟨error, returned, left⟩
    · split <;> rename_i status <;> rw [status] at running <;> trivial
    · rw [returned]
      exact left
  complete := invariant.complete

end

def aggregateThenOrder : PipelineGraph where
  count := 2
  dependencies := fun pipeline => if pipeline = 1 then [0] else []
  parents := fun pipeline => if pipeline = 0 then [1] else []
  tasks := fun pipeline => if pipeline = 0 then 2 else 1
  finalizations := fun pipeline => if pipeline = 0 then 2 else 0
  rank := fun pipeline => pipeline
  distinct := fun pipeline => by split <;> simp
  parentsDistinct := fun pipeline => by split <;> simp
  linked := fun pipeline other => by split <;> split <;> simp_all
  inside := fun pipeline other there => by
    split at there <;> simp_all
  launched := fun pipeline => by split <;> simp
  acyclic := fun pipeline other there => by
    split at there <;> simp_all

def failing : List ExecutorAction :=
  [.scheduleNext, .take, .scheduleNext, .scheduleNext, .take, .execute 0 (some "overflow"),
    .finishTask 0, .poll, .execute 0 none, .finishTask 0, .finalize 0 none, .scheduleTask 0, .take,
    .scheduleTask 0, .finalizeHT 0, .take, .finishFinalization 0, .finalizeHT 0,
    .finishFinalization 0, .completeDependency 0, .take, .compare 0, .completePipeline 0,
    .execute 1 (some "interrupted"), .finishTask 1, .finalize 1 (some "interrupted"), .compare 1,
    .completePipeline 1, .poll]

def partitioned : PipelineGraph where
  count := 1
  dependencies := fun _ => []
  parents := fun _ => []
  tasks := fun _ => 1
  finalizations := fun _ => 2
  rank := fun _ => 0
  distinct := fun _ => nodup_nil
  parentsDistinct := fun _ => nodup_nil
  linked := fun _ _ => by simp only [not_mem_nil]
  inside := fun _ _ there => absurd there not_mem_nil
  launched := fun _ => Nat.one_pos
  acyclic := fun _ _ there => absurd there not_mem_nil

def added : List ExecutorAction :=
  [.scheduleNext, .scheduleNext, .take, .execute 0 none, .finishTask 0, .finalize 0 none]

/-- All goes well, and the pipeline is completed before the first task has left `FinishTask`. -/
def overtaken : List ExecutorAction :=
  added ++ [.scheduleTask 0, .scheduleTask 0, .take, .take, .finalizeHT 0, .finalizeHT 0,
    .finishFinalization 0, .finishFinalization 0, .completePipeline 0, .poll]

/-- `Finalize` throws between the two tasks, and the other one ends. -/
def starved : List ExecutorAction :=
  added ++ [.scheduleTask 0, .scheduleFails 0 "out of memory", .compare 0, .take, .finalizeHT 0,
    .finishFinalization 0]

def thrown : List ExecutorAction :=
  added ++ [.scheduleTask 0, .scheduleTask 0, .take, .finalizeHTFails 0 "out of memory" true]

end ExecutorState

end GuinsooDB
