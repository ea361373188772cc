import GuinsooDB.Library.Transition
import GuinsooDB.Join.Result

/-!
Several tasks probe one hash table. Each looks for unmatched rows of the build side when its own
input is at its end, by the flags and the position that all tasks share; rows that another task
would still have matched are then returned as unmatched.
-/

namespace GuinsooDB

open Outcome Transition List Multiset HashJoin

/-- The tasks of a pipeline: which of them have had an empty chunk, and the rows so far. -/
structure JoinRun (Left : Type) where
  global : HashJoinGlobal
  tasks : List (HashJoinTask Left × Bool)
  output : List (JoinedRow Left)

namespace HashJoin

variable {Left : Type} (plan : HashJoin)

def callTask (state : JoinRun Left) (number : Nat) : Option (JoinRun Left) :=
  match state.tasks[number]? with
  | some (task, false) =>
    match plan.getChunk state.global task with
    | .ok (rows, global, task) =>
      some { global
             tasks := state.tasks.set number (task, rows.isEmpty)
             output := state.output ++ rows }
    | .error _ => none
  | _ => some state

def launch (global : HashJoinGlobal) (tasks : List (List (List (ProbeRow Left)))) : JoinRun Left where
  global
  tasks := tasks.map fun chunks => (startTask chunks, false)
  output := []

variable {plan} {builds : List BuildRow} {probes : List (ProbeRow Left)} {base : JoinHashTable}

def Elsewhere (plan : HashJoin) (base : JoinHashTable) (state : JoinRun Left) (number entry : Nat) :
    Prop :=
  ∃ (other : Nat) (task : HashJoinTask Left × Bool), other ≠ number ∧
    state.tasks[other]? = some task ∧ task.1.Opens plan base entry

/-- A task that has nothing more of its own to return finds no entry without a match that another
task will still match. -/
def CallsInTime (plan : HashJoin) (builds : List BuildRow) (base : JoinHashTable)
    (state : JoinRun Left) (number : Nat) : Prop :=
  ∀ task, state.tasks[number]? = some (task, false) → plan.pending builds base task = 0 →
    Calm state.global.hashTable.found state.global.position (Elsewhere plan base state number)

def pendingAll (plan : HashJoin) (builds : List BuildRow) (base : JoinHashTable)
    (tasks : List (HashJoinTask Left × Bool)) : Multiset (JoinedRow Left) :=
  (tasks.map fun task => plan.pending builds base task.1).sum

structure Balanced (plan : HashJoin) (builds : List BuildRow) (probes : List (ProbeRow Left))
    (base : JoinHashTable) (state : JoinRun Left) : Prop where
  launched : state.tasks ≠ []
  shared : Shared plan builds probes base state.global
  waiting : ∀ task ∈ state.tasks, Waiting plan probes base task.1
  flagged : ∀ entry, (state.global.hashTable.found entry = true ∨
    ∃ (number : Nat) (task : HashJoinTask Left × Bool), state.tasks[number]? = some task ∧
      task.1.Opens plan base entry) ↔
      plan.hit base probes entry = true
  balance : (state.output : Multiset (JoinedRow Left)) + (plan.pendingAll builds base state.tasks +
      plan.unmatchedFrom base probes state.global.position) = plan.total builds base probes
  done : ∀ task, (task, true) ∈ state.tasks → plan.pending builds base task = 0 ∧
    plan.unmatchedFrom base probes state.global.position = 0

variable {task : HashJoinTask Left × Bool} {tasks : List (HashJoinTask Left × Bool)} {number : Nat}

theorem pendingAll_at (there : tasks[number]? = some task) : plan.pendingAll builds base tasks =
      plan.pending builds base task.1 + plan.pendingAll builds base (tasks.eraseIdx number) := by
  obtain ⟨inside, same⟩ := List.getElem?_eq_some_iff.mp there
  have perm := getElem_cons_eraseIdx_perm inside
  rw [same] at perm
  exact ((perm.map fun task => plan.pending builds base task.1).sum_eq).symm.trans sum_cons

theorem opens_split (there : tasks[number]? = some task) (entry : Nat) :
    (∃ (other : Nat) (given : HashJoinTask Left × Bool), tasks[other]? = some given ∧ given.1.Opens plan base entry) ↔
      task.1.Opens plan base entry ∨ ∃ (other : Nat) (given : HashJoinTask Left × Bool),
        other ≠ number ∧ tasks[other]? = some given ∧ given.1.Opens plan base entry := by
  constructor
  · rintro ⟨other, given, found, opened⟩
    by_cases same : other = number
    · rw [same, there] at found
      cases found
      exact .inl opened
    · exact .inr ⟨other, given, same, found, opened⟩
  · rintro (opened | ⟨other, given, _, found, opened⟩)
    · exact ⟨number, task, there, opened⟩
    · exact ⟨other, given, found, opened⟩

variable {state : JoinRun Left}

theorem callTask_balanced (rightOuter : plan.joinType.isRightOuter = true)
    (prepared : Prepared plan builds probes base True)
    (balanced : Balanced plan builds probes base state)
    (inTime : CallsInTime plan builds base state number) :
    ∃ next, plan.callTask state number = some next ∧ Balanced plan builds probes base next := by
  unfold callTask
  split
  next task there =>
    have flagged : ∀ entry, (state.global.hashTable.found entry = true ∨ task.Opens plan base entry ∨
        Elsewhere plan base state number entry) ↔ plan.hit base probes entry = true := by
      intro entry
      rw [← balanced.flagged entry, opens_split there]
      rfl
    have called := getChunk_called prepared (balanced.waiting _ (mem_of_getElem? there))
      balanced.shared (fun _ => flagged) (fun _ => inTime task there)
    obtain ⟨⟨rows, after, next⟩, returned⟩ := called.exists trivial
    have spec := called.value returned
    have inside := (List.getElem?_eq_some_iff.mp there).1
    have placed : (state.tasks.set number (next, rows.isEmpty))[number]? = some (next, rows.isEmpty) := by
      rw [getElem?_set_self inside]
    have others : ∀ other, other ≠ number →
        (state.tasks.set number (next, rows.isEmpty))[other]? = state.tasks[other]? :=
      fun other apart => getElem?_set_ne apart.symm
    rw [returned]
    refine ⟨_, rfl, ne_nil_of_mem (mem_of_getElem? placed), spec.shared, ?_, ?_, ?_, ?_⟩
    · intro given listed
      rcases mem_or_eq_of_mem_set listed with old | new
      · exact balanced.waiting given old
      · rw [new]
        exact spec.waiting
    · intro entry
      rw [← flagged entry, opens_split placed, ← or_assoc, ← or_assoc]
      refine or_congr (spec.flags rightOuter entry) ?_
      refine exists_congr fun other => exists_congr fun given => and_congr_right fun apart => ?_
      rw [others other apart]
    · rw [pendingAll_at placed, eraseIdx_set_eq, ← balanced.balance, pendingAll_at there, ← coe_add]
      have step := spec.balance
      calc _ = (state.output : Multiset (JoinedRow Left)) + (↑rows + (plan.pending builds base next +
              plan.unmatchedFrom base probes after.position) +
              plan.pendingAll builds base (state.tasks.eraseIdx number)) := by
            ac_rfl
        _ = _ := by
            rw [step]
            ac_rfl
    · intro given listed
      rcases mem_or_eq_of_mem_set listed with old | new
      · obtain ⟨nothing, scanned⟩ := balanced.done given old
        exact ⟨nothing, le_zero.mp (scanned ▸ spec.fewer)⟩
      obtain ⟨rfl, stopped⟩ := Prod.mk.inj new
      have zero := spec.exhausted (isEmpty_iff.mp stopped.symm)
      have later := spec.balance
      rw [zero, add_eq_zero, add_eq_zero] at later
      exact later.2
  · exact ⟨state, rfl, balanced⟩

variable {tasks : List (List (List (ProbeRow Left)))}

theorem pendingAll_launch : plan.pendingAll builds base (tasks.map fun chunks => (startTask chunks, false)) =
      plan.emittedAll builds tasks.flatten.flatten := by
  induction tasks with
  | nil => rfl
  | cons chunks rest ih =>
    rw [flatten_cons, flatten_append, emittedAll_append, ← ih, ← startTask_pending]
    exact sum_cons

theorem launch_balanced {global : HashJoinGlobal}
    (built : Built plan builds tasks.flatten.flatten True global) (launched : tasks ≠ [])
    (shaped : ∀ chunks ∈ tasks, ∀ chunk ∈ chunks, chunk ≠ [] ∧ chunk.length ≤ standardVectorSize) :
    Balanced plan builds tasks.flatten.flatten global.hashTable (launch global tasks) := by
  have within : ∀ chunks ∈ tasks, ∀ row ∈ chunks.flatten, row ∈ tasks.flatten.flatten := by
    intro chunks listed row inside
    obtain ⟨chunk, there, held⟩ := mem_flatten.mp inside
    exact mem_flatten.mpr ⟨chunk, mem_flatten.mpr ⟨chunks, listed, there⟩, held⟩
  have started : ∀ task ∈ (launch global tasks).tasks, ∃ chunks ∈ tasks, task = (startTask chunks, false) := by
    intro task listed
    obtain ⟨chunks, inside, rfl⟩ := mem_map.mp listed
    exact ⟨chunks, inside, rfl⟩
  refine ⟨fun none' => launched (map_eq_nil_iff.mp none'), built.shared, fun task listed => ?_,
    fun entry => ?_, ?_, fun task listed => ?_⟩
  · obtain ⟨chunks, inside, rfl⟩ := started task listed
    exact startTask_waiting (shaped chunks inside) (within chunks inside)
  · change (global.hashTable.found entry = true ∨ _) ↔ _
    rw [built.unflagged]
    constructor
    · rintro (impossible | ⟨number, task, there, opened⟩)
      · cases impossible
      · obtain ⟨chunks, inside, rfl⟩ := started task (mem_of_getElem? there)
        rw [startTask_opens, hit, any_eq_true] at opened
        obtain ⟨row, held, found⟩ := opened
        exact any_eq_true.mpr ⟨row, within chunks inside row held, found⟩
    · intro found
      obtain ⟨row, held, given⟩ := any_eq_true.mp found
      obtain ⟨chunk, there, inChunk⟩ := mem_flatten.mp held
      obtain ⟨chunks, inside, listed⟩ := mem_flatten.mp there
      obtain ⟨number, known⟩ := mem_iff_getElem?.mp inside
      refine .inr ⟨number, (startTask chunks, false), ?_, (startTask_opens).mpr ?_⟩
      · change (tasks.map _)[number]? = _
        rw [getElem?_map, known]
        rfl
      · exact any_eq_true.mpr ⟨row, mem_flatten.mpr ⟨chunk, listed, inChunk⟩, given⟩
  · rw [total, ← built.start, ← pendingAll_launch]
    exact zero_add _
  · obtain ⟨chunks, _, same⟩ := started _ listed
    cases same

theorem emitted_left {row : ProbeRow Left} {joined : JoinedRow Left}
    (pairs : plan.joinType.byPairs = true) (listed : joined ∈ plan.emitted builds row) :
    joined.left = some row := by
  have paired : joined ∈ (plan.partners builds row).map (plan.joinedPair row) → joined.left = some row := by
    intro found
    obtain ⟨_, _, rfl⟩ := mem_map.mp found
    rfl
  unfold emitted at listed
  cases type : plan.joinType with
  | inner | right =>
    rw [type] at listed
    exact paired listed
  | left | outer =>
    rw [type] at listed
    refine (mem_append.mp listed).elim paired fun found => ?_
    split at found
    · rw [List.mem_singleton.mp found]
      rfl
    · cases found
  | _ =>
    rw [type] at pairs
    cases pairs

def unmatchedBuilds (plan : HashJoin) (builds : List BuildRow) (probes : List (ProbeRow Left)) :
    List BuildRow :=
  builds.filter fun build => !probes.any fun row => plan.joins builds row build

theorem isRightOuter_byPairs (rightOuter : plan.joinType.isRightOuter = true) : plan.joinType.byPairs = true := by
  cases type : plan.joinType with
  | right | outer => rfl
  | _ =>
    rw [type] at rightOuter
    cases rightOuter

theorem total_strays (indexed : plan.Indexed builds base) (rightOuter : plan.joinType.isRightOuter = true) :
    (plan.total builds base probes).filter (fun row => row.left = none) =
      ((plan.unmatchedBuilds builds probes).map plan.strayRow : List (JoinedRow Left)) := by
  rw [total, filter_add, unmatchedFrom_start indexed rightOuter, emittedAll, filter_coe, filter_coe, coe_add]
  congr 1
  have none' : (probes.flatMap (plan.emitted builds)).filter (fun row => decide (row.left = none)) = [] := by
    rw [filter_eq_nil_iff]
    intro joined listed stray
    obtain ⟨row, _, held⟩ := mem_flatMap.mp listed
    rw [decide_eq_true_iff, emitted_left (isRightOuter_byPairs rightOuter) held] at stray
    cases stray
  rw [none', nil_append]
  apply filter_eq_self.mpr
  intro joined listed
  obtain ⟨build, _, rfl⟩ := mem_map.mp listed
  rfl

theorem Balanced.finished (balanced : Balanced plan builds probes base state)
    (all : ∀ task ∈ state.tasks, task.2 = true) :
    (state.output : Multiset (JoinedRow Left)) = plan.total builds base probes := by
  have ended : ∀ task ∈ state.tasks, plan.pending builds base task.1 = 0 ∧
      plan.unmatchedFrom base probes state.global.position = 0 := by
    intro task listed
    have same : task = (task.1, true) := Prod.ext rfl (all task listed)
    exact balanced.done task.1 (same ▸ listed)
  obtain ⟨task, listed⟩ := exists_mem_of_ne_nil _ balanced.launched
  have nothing : plan.pendingAll builds base state.tasks = 0 := by
    refine sum_eq_zero fun part inside => ?_
    obtain ⟨other, there, rfl⟩ := mem_map.mp inside
    exact (ended other there).1
  rw [← balanced.balance, nothing, (ended task listed).2]
  exact (add_zero _).symm

end HashJoin

/-- The input of a RIGHT or FULL OUTER join, with the chunks of the probe side spread over tasks. -/
structure ParallelJoin (Left : Type) where
  plan : HashJoin
  rightOuter : plan.joinType.isRightOuter = true
  build : List (List BuildRow)
  tasks : List (List (List (ProbeRow Left)))
  launched : tasks ≠ []
  buildSmall : ∀ chunk ∈ build, chunk.length ≤ standardVectorSize
  probeSmall : ∀ chunks ∈ tasks, ∀ chunk ∈ chunks, chunk ≠ [] ∧ chunk.length ≤ standardVectorSize

namespace ParallelJoin

variable {Left : Type} (input : ParallelJoin Left)

def sequential (fuel : Nat) : Except String (List (JoinedRow Left)) := do
  let global ← input.plan.buildAll input.build
  input.plan.drain fuel global (startTask input.tasks.flatten)

def execute (global : HashJoinGlobal) (calls : List Nat) : Option (JoinRun Left) :=
  runPartial input.plan.callTask (launch global input.tasks) calls

def CallsInTime (global : HashJoinGlobal) (calls : List Nat) : Prop :=
  MeetsPartial input.plan.callTask
    (HashJoin.CallsInTime input.plan input.build.flatten global.hashTable)
    (launch global input.tasks) calls

def callBound : Nat :=
  input.tasks.flatten.flatten.length * (input.build.flatten.length + 1) + input.build.flatten.length

def unmatched : List BuildRow :=
  input.plan.unmatchedBuilds input.build.flatten input.tasks.flatten.flatten

theorem buildAll_built : ∃ global, input.plan.buildAll input.build = .ok global ∧
    HashJoin.Built input.plan input.build.flatten input.tasks.flatten.flatten True global := by
  have plain : input.plan.joinType ≠ .mark := by
    intro mark
    have rightOuter := input.rightOuter
    rw [mark] at rightOuter
    cases rightOuter
  have yields := @HashJoin.buildAll_built Left input.plan input.tasks.flatten.flatten True input.build
    input.buildSmall (fun mark => absurd mark plain) (fun mark => absurd mark plain)
    fun _ mark => absurd mark plain
  obtain ⟨global, outcome⟩ := yields.exists trivial
  exact ⟨global, outcome, yields.value outcome⟩

variable {global : HashJoinGlobal}

theorem sequential_total (outcome : input.plan.buildAll input.build = .ok global)
    (built : HashJoin.Built input.plan input.build.flatten input.tasks.flatten.flatten True global)
    {fuel : Nat} (enough : input.callBound < fuel) :
    ∃ rows, input.sequential fuel = .ok rows ∧ ↑rows =
      input.plan.total input.build.flatten global.hashTable input.tasks.flatten.flatten := by
  have yields := built.drain (fun chunk listed => by
    obtain ⟨chunks, inside, there⟩ := mem_flatten.mp listed
    exact input.probeSmall chunks inside chunk there) fun _ =>
      lt_of_le_of_lt (total_card built.prepared.indexed) enough
  obtain ⟨rows, drained⟩ := yields.exists trivial
  refine ⟨rows, ?_, yields.value drained⟩
  rw [sequential, outcome]
  exact drained

/-- The rows so far against those of one task. No row of the build side that a probe row joins is
returned as unmatched, and in the end each other row is, once. -/
structure Agrees (rows : List (JoinedRow Left)) (final : JoinRun Left) : Prop where
  among : (final.output : Multiset (JoinedRow Left)) ≤ rows
  strays : ∀ row ∈ final.output, row.left = none →
    ∃ build ∈ input.unmatched, row = input.plan.strayRow build
  complete : (∀ task ∈ final.tasks, task.2 = true) →
    (final.output : Multiset (JoinedRow Left)) = rows ∧
      (final.output.filter fun row => row.left = none).Perm
        (input.unmatched.map input.plan.strayRow)

theorem agrees_of_balanced {rows : List (JoinedRow Left)} {final : JoinRun Left}
    (indexed : input.plan.Indexed input.build.flatten global.hashTable)
    (all : ↑rows = input.plan.total input.build.flatten global.hashTable input.tasks.flatten.flatten)
    (balanced : HashJoin.Balanced input.plan input.build.flatten input.tasks.flatten.flatten
      global.hashTable final) : input.Agrees rows final := by
  have strays := @HashJoin.total_strays Left input.plan input.build.flatten
    input.tasks.flatten.flatten global.hashTable indexed input.rightOuter
  rw [← all] at strays
  have among : (final.output : Multiset (JoinedRow Left)) ≤ rows := by
    rw [all, ← balanced.balance]
    exact le_add_right _ _
  refine ⟨among, fun row listed stray => ?_, fun done => ?_⟩
  · have inside : row ∈ filter (fun row => row.left = none) (rows : Multiset (JoinedRow Left)) :=
      mem_filter.mpr ⟨mem_of_le among (mem_coe.mpr listed), stray⟩
    rw [strays, mem_coe] at inside
    obtain ⟨build, there, same⟩ := mem_map.mp inside
    exact ⟨build, there, same.symm⟩
  · have same : (final.output : Multiset (JoinedRow Left)) = rows := (balanced.finished done).trans all.symm
    refine ⟨same, ?_⟩
    rw [← same, filter_coe] at strays
    exact coe_eq_coe.mp strays

end ParallelJoin

def HashJoinTask.closed {Left : Type} (task : HashJoinTask Left) : Bool :=
  task.child.isEmpty && task.childChunk.isEmpty

namespace HashJoin

variable {Left : Type} {plan : HashJoin} {builds : List BuildRow} {base : JoinHashTable}

theorem closed_opens {task : HashJoinTask Left} (closed : task.closed = true) {entry : Nat} :
    ¬task.Opens plan base entry := by
  rw [HashJoinTask.closed, Bool.and_eq_true, List.isEmpty_iff, List.isEmpty_iff] at closed
  rintro (⟨_, _, more, _⟩ | ⟨row, inside, _⟩)
  · exact more closed.2
  · rw [closed.1] at inside
    cases inside

def callsInTime (plan : HashJoin) (builds : List BuildRow) (state : JoinRun Left) (number : Nat) :
    Bool :=
  match state.tasks[number]? with
  | some (task, false) =>
    !task.cachedChunk.isEmpty ||
      task.child.flatten.any (fun row => !(plan.emitted builds row).isEmpty) ||
      state.tasks.zipIdx.all fun other => other.2 == number || other.1.1.closed
  | _ => true

theorem callsInTime_sound (state : JoinRun Left) (number : Nat)
    (checked : plan.callsInTime builds state number = true) :
    CallsInTime plan builds base state number := by
  intro task there nothing entry elsewhere
  exfalso
  rw [callsInTime, there] at checked
  simp only [Bool.or_eq_true] at checked
  rw [pending, HashJoinTask.input, add_eq_zero, add_eq_zero, coe_eq_zero, emittedAll,
    coe_eq_zero, flatMap_eq_nil_iff] at nothing
  rcases checked with (cached | input) | others
  · rw [nothing.1] at cached
    cases cached
  · obtain ⟨row, inside, emits⟩ := any_eq_true.mp input
    rw [nothing.2.2 row inside] at emits
    cases emits
  · obtain ⟨other, given, apart, found, opened⟩ := elsewhere
    have closed := all_eq_true.mp others (given, other) (mem_zipIdx_iff_getElem?.mpr found)
    rw [Bool.or_eq_true, beq_iff_eq] at closed
    exact closed_opens (closed.resolve_left apart) opened

end HashJoin

namespace ParallelJoin

open JoinInput

def twoTasks (first second : List (List (ProbeRow Nat)))
    (firstSmall : ∀ chunk ∈ first, chunk ≠ [] ∧ chunk.length ≤ standardVectorSize)
    (secondSmall : ∀ chunk ∈ second, chunk ≠ [] ∧ chunk.length ≤ standardVectorSize) :
    ParallelJoin Nat where
  plan := byEquality .right .int32
  rightOuter := rfl
  build := [[⟨[number 5], [number 50]⟩, ⟨[number 7], [number 70]⟩]]
  tasks := [first, second]
  launched := cons_ne_nil _ _
  buildSmall := by decide
  probeSmall := by
    intro chunks listed
    rcases mem_cons.mp listed with rfl | other
    · exact firstSmall
    · rw [List.mem_singleton.mp other]
      exact secondSmall

def oneChunkEach : ParallelJoin Nat :=
  twoTasks [[⟨[number 6], 0⟩]] [[⟨[number 5], 1⟩]] (by decide) (by decide)

def idleTask : ParallelJoin Nat := twoTasks [] [[⟨[number 5], 1⟩]] (by decide) (by decide)

end ParallelJoin

end GuinsooDB
