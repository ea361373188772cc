import GuinsooDB.Version.Restart

/-!
A table that kept running beside the same table after a checkpoint and a restart: every
continuation shows the same rows on both, if no slot behind the last row was stale.
-/

namespace GuinsooDB

open Transition VersionedTable Restart Bool List

/-- A manager that has no open transaction and has run the one that loads the tables. -/
structure TransactionManager.Restarted (manager : TransactionManager) : Prop where
  valid : manager.Valid
  room : manager.Room
  idle : manager.activeTransactions = []
  started : 0 < manager.currentStartTimestamp
  bounded : manager.currentTransactionId ≤ transactionIdStart + manager.currentStartTimestamp

/-- The counters of a manager that kept running and of one that was restarted. -/
structure Restart.Between (restart : Restart) (running restarted : TransactionManager) : Prop where
  time : running.currentStartTimestamp = restart.time
  id : running.currentTransactionId = restart.transactionId
  newTime : restarted.currentStartTimestamp = restart.newTime
  newId : restarted.currentTransactionId = restart.newTransactionId

namespace VersionState

def reloaded (state : VersionState) (manager : TransactionManager) (table : VersionedTable) :
    VersionState where
  manager
  table
  undo := fun _ => []
  recorded := fun row => (state.recorded row).reloaded

structure SameRows (state twin : VersionState) (transaction newTransaction : Transaction) :
    Prop where
  total : twin.table.totalRows = state.table.totalRows
  scan : ∀ vector maxCount, maxCount ≤ state.table.rowsIn vector →
    selectedRows maxCount (twin.table.getSelVector newTransaction vector maxCount) =
      selectedRows maxCount (state.table.getSelVector transaction vector maxCount)
  fetch : ∀ row < state.table.totalRows,
    twin.table.fetch newTransaction row = state.table.fetch transaction row

/-- An allowed action. The rows that it deletes come from a scan of a transaction that was
started after the tables were loaded. -/
def Continues (state : VersionState) (action : VersionAction) : Prop :=
  state.Allowed action ∧ ∀ transaction ∈ state.manager.activeTransactions, ∀ segment rowIds,
    action = .delete transaction.transactionId segment rowIds →
      0 < transaction.startTime ∧
        Restart.Mirrors.Scanned state.recorded transaction segment rowIds

/-- The states of a table over actions, checkpoints and restarts. -/
inductive Reachable : VersionState → Prop
  | loaded (totalRows : Nat) : Reachable (.initial (.loaded totalRows) .loaded)
  | step {state next : VersionState} {action : VersionAction} (before : Reachable state)
      (continues : state.Continues action) (stepped : state.step action = some next) :
      Reachable next
  | reload {state : VersionState} {manager : TransactionManager} {table : VersionedTable}
      (before : Reachable state) (idle : state.manager.activeTransactions = [])
      (clean : state.table.NoStaleSlots) (restarted : manager.Restarted)
      (read : state.table.reload = some table) : Reachable (state.reloaded manager table)

end VersionState

def DeletedAtCheckpoint (deleteId : Nat) : Prop := deleteId = notDeletedId ∨ deleteId = 0

namespace VersionInvariant

variable {whole : Nat → Prop} {state : VersionState} {transaction : Transaction}

variable (invariant : VersionInvariant whole state)

include invariant in
theorem currentTransactionId_lt :
    state.manager.currentTransactionId < notDeletedId := by
  have bounded := invariant.bounded
  have room := invariant.room
  simp only [TransactionManager.Room, transactionIdStart] at bounded room
  simp only [notDeletedId]
  omega

include invariant in
theorem knows (accountable : Accountable state.ledger)
    (member : transaction ∈ state.manager.activeTransactions) :
    Restart.Mirrors.Knows state.ledger transaction where
  mine := fun _ mine => ((invariant.held transaction member).mine_eq mine).2
  hit := by
    intro row hit
    refine ⟨accountable.marks transaction member row hit, ?_⟩
    obtain ⟨rows, deleted, inside⟩ := hit
    have marked := ((invariant.held transaction member).deletes _ rows deleted).1
    have committed := marked.committed _ inside
    rwa [rowsOf, Nat.div_add_mod'] at committed

theorem targets_of_kept (invariant : VersionInvariant DeletedAtCheckpoint state) {segment : Nat} {rowIds : List Nat}
    (present : ∀ rowId ∈ rowIds, rowId < morselSize ∧ segment * morselSize + rowId < state.table.totalRows)
    (kept : ∀ rowId ∈ rowIds, (state.recorded (segment * morselSize + rowId)).deleted ≠ 0) :
    state.table.Targets segment rowIds := by
  intro rowId listed
  obtain ⟨small, inTable⟩ := present rowId listed
  refine ⟨small, inTable, ?_⟩
  intro insertId deleteId found
  refine (invariant.constants _ insertId deleteId found).resolve_right ?_
  intro deleted
  have sound := invariant.sound (segment * morselVectorCount + rowId / standardVectorSize)
  rw [found] at sound
  have ids := sound.2 _ (VersionDeleteState.rowId_inside inTable)
  have position : (segment * morselVectorCount + rowId / standardVectorSize) *
      standardVectorSize + rowId % standardVectorSize = segment * morselSize + rowId := by
    simp only [morselSize, morselVectorCount, standardVectorSize]
    omega
  rw [rowsOf, position] at ids
  apply kept rowId listed
  rw [ids, deleted]

theorem targets_of_scanned (invariant : VersionInvariant DeletedAtCheckpoint state)
    {action : VersionAction} (continues : state.Continues action) : state.Aims action := by
  rintro transaction segment rowIds member rfl
  obtain ⟨allowed, scanned⟩ := continues
  obtain ⟨started, seen⟩ := scanned transaction member segment rowIds rfl
  refine invariant.targets_of_kept allowed ?_
  intro rowId listed
  have kept := (seen rowId listed).2
  omega

include invariant in
theorem settled (accountable : Accountable state.ledger)
    (idle : state.manager.activeTransactions = []) {row : Nat}
    (inside : row < state.table.totalRows) : (state.recorded row).Settled := by
  have room := invariant.room
  have past := invariant.past row inside
  have small := invariant.currentTransactionId_lt
  have inserted := accountable.inserted row inside
  have deleted := accountable.deleted row inside
  have start : transactionIdStart = 4611686018427388000 := rfl
  simp only [VersionState.ledger, idle, TransactionManager.Room] at inserted deleted room
  refine ⟨by omega, ?_⟩
  rcases deleted with kept | committed | ⟨_, listed, _⟩
  · exact .inr kept
  · exact .inl (by omega)
  · cases listed

include invariant in
theorem reloaded (accountable : Accountable state.ledger)
    (idle : state.manager.activeTransactions = []) (clean : state.table.NoStaleSlots)
    {manager : TransactionManager} (restarted : manager.Restarted) :
    VersionInvariant DeletedAtCheckpoint (state.reloaded manager state.table.reloaded) where
  valid := restarted.valid
  room := restarted.room
  bounded := restarted.bounded
  layout := state.table.reloaded_layout
  constants := fun _ _ _ found => .inr (reloaded_constants found).2
  sound := reloaded_sound invariant.sound clean fun _ inside => invariant.settled accountable idle inside
  held := by
    change ∀ transaction ∈ manager.activeTransactions, _
    simp [restarted.idle]
  past := by
    intro row _
    have above := restarted.valid.idStart
    have positive : 0 < transactionIdStart := by decide
    change 0 < manager.currentTransactionId
    omega
  unused := fun _ _ => rfl

end VersionInvariant

variable {manager : TransactionManager}

theorem Accountable.reloaded (state : VersionState) (restarted : manager.Restarted) (table : VersionedTable) :
    Accountable (state.reloaded manager table).ledger where
  marks := by
    change ∀ transaction ∈ manager.activeTransactions, _
    simp [restarted.idle]
  deleted := by
    intro row _
    change (state.recorded row).reloaded.deleted = _ ∨
      (state.recorded row).reloaded.deleted < manager.currentStartTimestamp ∨ _
    rw [RowVersion.reloaded]
    split
    · exact .inl rfl
    · exact .inr (.inl restarted.started)
  inserted := fun _ _ => .inl (lt_of_lt_of_le Nat.one_pos (Nat.le_max_left _ _))

namespace VersionState.Reachable

variable {state : VersionState}

theorem invariant (reachable : state.Reachable) :
    VersionInvariant DeletedAtCheckpoint state ∧ Accountable state.ledger := by
  induction reachable with
  | loaded totalRows =>
    have loaded := VersionInvariant.loaded totalRows
    refine ⟨{ loaded with constants := ?_ }, Accountable.loaded totalRows⟩
    exact fun vector insertId deleteId found =>
      .inl (loaded.constants vector insertId deleteId found)
  | @step state next action _ continues stepped ih =>
    obtain ⟨before, accountable⟩ := ih
    have targets := before.targets_of_scanned continues
    obtain ⟨other, same, kept⟩ := before.step (.inl rfl) continues.1 targets
    rw [stepped] at same
    cases same
    refine ⟨kept, ?_⟩
    rw [VersionState.step_ledger before targets stepped]
    exact accountable.step before action
  | @reload state manager table _ idle clean restarted read ih =>
    obtain ⟨before, accountable⟩ := ih
    rw [before.layout.reload] at read
    cases read
    exact ⟨before.reloaded accountable idle clean restarted, Accountable.reloaded state restarted _⟩

theorem run {final : VersionState} {actions : List VersionAction} (before : state.Reachable)
    (continues : MeetsPartial VersionState.step Continues state actions)
    (ran : runPartial VersionState.step state actions = some final) : final.Reachable := by
  induction actions generalizing state with
  | nil =>
    cases ran
    exact before
  | cons action rest ih =>
    obtain ⟨next, stepped, later⟩ := Option.bind_eq_some_iff.mp ran
    exact ih (before.step continues.1 stepped) (continues.2 next stepped) later

end VersionState.Reachable

structure Twins (restart : Restart) (state twin : VersionState) : Prop where
  running : VersionInvariant DeletedAtCheckpoint state
  accountable : Accountable state.ledger
  restarted : VersionInvariant DeletedAtCheckpoint twin
  mirrors : Restart.Mirrors restart state.ledger twin.ledger

namespace Twins

variable {restart : Restart} {state twin : VersionState} {transaction : Transaction}
  {action : VersionAction}

variable (twins : Twins restart state twin)
include twins

theorem total : twin.table.totalRows = state.table.totalRows := twins.mirrors.total

theorem active : twin.manager.activeTransactions = state.manager.activeTransactions.map restart.transaction :=
  twins.mirrors.active

theorem newTargets (continues : state.Continues action) : twin.Aims (restart.action action) := by
  intro _ segment rowIds member deletes
  rw [twins.active] at member
  obtain ⟨old, oldMember, rfl⟩ := mem_map.mp member
  have after := (twins.mirrors.later old oldMember).id
  cases action with
  | delete transactionId other others =>
    simp only [action, VersionAction.delete.injEq] at deletes
    obtain ⟨same, rfl, rfl⟩ := deletes
    rw [(newIdOf_inj after).mp same] at continues
    obtain ⟨allowed, scanned⟩ := continues
    obtain ⟨_, seen⟩ := scanned old oldMember _ _ rfl
    refine twins.restarted.targets_of_kept ?_ ?_
    · rw [twins.total]
      exact allowed
    · intro rowId listed
      exact (twins.mirrors.live_of_scanned oldMember (allowed rowId listed).2 fun other here =>
        seen other (mem_singleton.mp here ▸ listed)).deleted_ne_zero
  | _ => cases deletes

theorem newAllowed (allowed : state.Allowed action) : twin.Allowed (restart.action action) := by
  have earlier := restart.earlier
  have since : restart.time ≤ state.manager.currentStartTimestamp := twins.mirrors.since
  have time : twin.manager.currentStartTimestamp ≤ state.manager.currentStartTimestamp := by
    refine le_trans (le_of_eq twins.mirrors.time) ?_
    change state.manager.currentStartTimestamp - restart.time + restart.newTime ≤ _
    omega
  cases action with
  | start =>
    simp only [VersionState.Allowed, action] at allowed ⊢
    omega
  | append _ _ _ => trivial
  | delete _ segment rowIds =>
    simp only [VersionState.Allowed, action, twins.total] at allowed ⊢
    exact allowed
  | commit transactionId failure =>
    obtain ⟨room, apart⟩ := allowed
    refine ⟨by omega, ?_⟩
    by_cases after : restart.transactionId ≤ transactionId
    · have entries : twin.undo (restart.newIdOf transactionId) = state.undo transactionId :=
        twins.mirrors.undo transactionId after
      rw [entries]
      exact apart
    · have none : twin.undo (restart.newIdOf transactionId) = [] := by
        rw [newIdOf, if_neg after]
        exact twins.mirrors.idle
      simp [none, AppendsApart]
  | rollback _ => trivial

theorem step (continues : state.Continues action) : ∃ next nextTwin, state.step action = some next ∧
      twin.step (restart.action action) = some nextTwin ∧ Twins restart next nextTwin := by
  have allowed := continues.1
  have targets := twins.running.targets_of_scanned continues
  have newTargets := twins.newTargets continues
  obtain ⟨next, stepped, running⟩ := twins.running.step (.inl rfl) allowed targets
  obtain ⟨nextTwin, newStepped, restarted⟩ := twins.restarted.step (.inl rfl) (twins.newAllowed allowed) newTargets
  have ledger := VersionState.step_ledger twins.running targets stepped
  have newLedger := VersionState.step_ledger twins.restarted newTargets newStepped
  refine ⟨next, nextTwin, stepped, newStepped, running, ?_, restarted, ?_⟩
  · rw [ledger]
    exact twins.accountable.step twins.running action
  rw [ledger, newLedger]
  apply twins.mirrors.step twins.running.room twins.running.currentTransactionId_lt
    twins.restarted.currentTransactionId_lt
  · exact fun old member => twins.running.knows twins.accountable member
  · intro old member segment rowIds deletes
    refine ⟨?_, (continues.2 old member segment rowIds deletes).2⟩
    subst action
    exact fun rowId listed => (allowed rowId listed).2

theorem sameRows (member : transaction ∈ state.manager.activeTransactions) :
    state.SameRows twin transaction (restart.transaction transaction) := by
  have later := twins.mirrors.later transaction member
  have newMember : restart.transaction transaction ∈ twin.manager.activeTransactions := by
    rw [twins.active]
    exact mem_map_of_mem member
  have started := restart.started
  have earlier := restart.earlier
  have since := later.started
  have reads := twins.running.reads member (by omega)
  have newReads := twins.restarted.reads newMember (by
    change 0 < transaction.startTime - restart.time + restart.newTime
    omega)
  have rows (row : Nat) (inside : row < state.table.totalRows) :
      (twin.recorded row).visible (restart.transaction transaction) = (state.recorded row).visible transaction :=
    ((twins.mirrors.rows row inside).visible later).symm
  refine { total := twins.total, scan := ?_, fetch := ?_ }
  · intro vector maxCount within
    have newWithin : maxCount ≤ twin.table.rowsIn vector := by
      rw [rowsIn, twins.total]
      exact within
    rw [reads.1 vector maxCount within, newReads.1 vector maxCount newWithin]
    apply filter_range_congr
    intro row inside
    exact rows _ (lt_totalRows (lt_of_lt_of_le inside within))
  · intro row inside
    rw [reads.2 row inside, newReads.2 row (twins.total.symm ▸ inside), rows row inside]

end Twins

variable {state : VersionState}

theorem Twins.reloaded {restart : Restart} (invariant : VersionInvariant DeletedAtCheckpoint state)
    (accountable : Accountable state.ledger) (idle : state.manager.activeTransactions = [])
    (clean : state.table.NoStaleSlots) (restarted : manager.Restarted)
    (between : restart.Between state.manager manager) :
    Twins restart state (state.reloaded manager state.table.reloaded) where
  running := invariant
  accountable := accountable
  restarted := invariant.reloaded accountable idle clean restarted
  mirrors := {
    time := by
      change manager.currentStartTimestamp =
        state.manager.currentStartTimestamp - restart.time + restart.newTime
      rw [between.newTime, between.time, Nat.sub_self, Nat.zero_add]
    since := Nat.le_of_eq between.time.symm
    ids := by
      change manager.currentTransactionId = restart.newIdOf state.manager.currentTransactionId
      rw [between.newId, between.id, newIdOf_of_le (Nat.le_refl _), Nat.sub_self,
        Nat.zero_add]
    idsSince := le_of_eq between.id.symm
    active := by
      change manager.activeTransactions = state.manager.activeTransactions.map _
      rw [restarted.idle, idle]
      rfl
    later := by
      change ∀ transaction ∈ state.manager.activeTransactions, _
      simp [idle]
    total := state.table.reloaded_totalRows
    undo := by
      intro id after
      exact (invariant.unused id (le_trans (le_of_eq between.id) after)).symm
    idle := rfl
    rows := by
      intro row inside
      change restart.Alike (state.recorded row) (state.recorded row).reloaded
      have settled := invariant.settled accountable idle inside
      have past := invariant.past row inside
      have inserted := accountable.inserted row inside
      have deleted := accountable.deleted row inside
      have started := restart.started
      have earlier := restart.earlier
      have room := restart.room
      simp only [VersionState.ledger, idle, between.time] at inserted deleted
      rw [between.id] at past
      by_cases visible : (state.recorded row).visible checkpointReader = true
      · obtain ⟨committed, kept⟩ := settled.visible_checkpoint.mp visible
        rw [RowVersion.reloaded_of_visible visible]
        exact .inl ⟨.inl ⟨by omega, rfl⟩, .inl ⟨kept, rfl⟩⟩
      have hidden := fun both => visible (settled.visible_checkpoint.mpr both)
      refine .inr ⟨RowVersion.reloaded_of_hidden visible, ?_⟩
      rcases deleted with kept | committed | ⟨_, listed, _⟩
      · right
        have aborted : ¬(state.recorded row).inserted < transactionIdStart - 1 :=
          fun below => hidden ⟨below, kept⟩
        omega
      · exact .inl committed
      · cases listed }

/-- A continuation shows the same rows on a table that kept running and on its copy that was
written by a checkpoint and read back, if no slot behind the last row is stale. -/
theorem VersionState.reload_sameRows {state : VersionState} (reachable : state.Reachable)
    (idle : state.manager.activeTransactions = []) (clean : state.table.NoStaleSlots)
    {manager : TransactionManager} (restarted : manager.Restarted) {restart : Restart}
    (between : restart.Between state.manager manager) {actions : List VersionAction}
    (continues : MeetsPartial step Continues state actions) :
    ∃ table final finalTwin, state.table.reload = some table ∧
      runPartial step state actions = some final ∧
      runPartial step (state.reloaded manager table) (actions.map restart.action) =
        some finalTwin ∧
      finalTwin.manager.activeTransactions =
        final.manager.activeTransactions.map restart.transaction ∧
      ∀ transaction ∈ final.manager.activeTransactions,
        final.SameRows finalTwin transaction (restart.transaction transaction) := by
  obtain ⟨invariant, accountable⟩ := reachable.invariant
  have simulates : ∀ state twin action, Twins restart state twin → state.Continues action →
      ∃ next nextTwin, state.step action = some next ∧
        twin.step (restart.action action) = some nextTwin ∧ Twins restart next nextTwin :=
    fun _ _ _ twins => twins.step
  obtain ⟨final, finalTwin, ran, newRan, twins⟩ := runPartial_simulation simulates
    (Twins.reloaded invariant accountable idle clean restarted between) continues
  exact ⟨_, final, finalTwin, invariant.layout.reload, ran, newRan, twins.active,
    fun _ member => twins.sameRows member⟩

namespace VersionState

def continuesCheck (state : VersionState) (action : VersionAction) : Bool :=
  state.allowedCheck action &&
    state.manager.activeTransactions.all fun transaction =>
      match action with
      | .delete transactionId segment rowIds =>
        transactionId ≠ transaction.transactionId ||
          0 < transaction.startTime && rowIds.all fun rowId =>
            useVersion transaction.startTime transaction.transactionId
                (state.recorded (segment * morselSize + rowId)).inserted &&
              transaction.startTime ≤ (state.recorded (segment * morselSize + rowId)).deleted
      | _ => true

theorem continues_of_check (state : VersionState) (action : VersionAction)
    (checked : state.continuesCheck action = true) : state.Continues action := by
  obtain ⟨allowed, scanned⟩ := and_eq_true_iff.mp checked
  refine ⟨state.allowed_of_check allowed, ?_⟩
  intro transaction member segment rowIds deletes
  subst action
  have own := all_eq_true.mp scanned transaction member
  simpa [Restart.Mirrors.Scanned] using own

def cleanCheck (state : VersionState) (segments : Nat) : Bool :=
  state.table.segmentCount ≤ segments &&
    (List.range (segments * morselVectorCount)).all fun vector =>
      match state.table.info vector with
      | some (.vector chunk) => (List.range standardVectorSize).all fun slot =>
        slot < state.table.rowsIn vector ||
          chunk.selects checkpointReader.startTime checkpointReader.transactionId slot
      | _ => true

theorem clean_of_check (layout : state.table.Layout) {segments : Nat}
    (checked : state.cleanCheck segments = true) : state.table.NoStaleSlots := by
  obtain ⟨few, checks⟩ := and_eq_true_iff.mp checked
  intro vector chunk found slot unused small
  have inside : vector < segments * morselVectorCount := by
    by_contra outside
    have beyond := layout.beyond (vector / morselVectorCount) (by
      simp only [decide_eq_true_eq, morselVectorCount] at few outside ⊢
      omega)
    rw [info, beyond] at found
    cases found
  have checkedVector := all_eq_true.mp checks vector (mem_range.mpr inside)
  rw [found] at checkedVector
  have selected := all_eq_true.mp checkedVector slot (mem_range.mpr small)
  rw [or_eq_true, decide_eq_true_eq] at selected
  exact ChunkVectorInfo.mem_checkpointSlots.mpr ⟨small, selected.resolve_left (by omega)⟩

def afterLoading (actions : List VersionAction) : Option VersionState :=
  runPartial step (.initial (.loaded 10) .loaded)
    (.start :: .commit transactionIdStart none :: actions)

end VersionState

def TransactionManager.afterLoading : TransactionManager :=
  { TransactionManager.initial with
    currentStartTimestamp := 2
    currentTransactionId := transactionIdStart + 1 }

theorem TransactionManager.afterLoading_restarted : afterLoading.Restarted := by
  refine ⟨?_, ?_, rfl, ?_, ?_⟩
  · constructor <;> simp [afterLoading, initial]
  · change 2 < transactionIdStart
    decide
  all_goals decide

def Restart.afterOne (time : Nat) (started : 2 ≤ time) (room : time < transactionIdStart) :
    Restart where
  time
  transactionId := transactionIdStart + 2
  newTime := 2
  newTransactionId := transactionIdStart + 1
  started := by decide
  earlier := started
  room
  above := by decide
  newAbove := by decide

namespace VersionState

def insertThenDelete : List VersionAction := [
  .start,
  .append (transactionIdStart + 1) 3 false,
  .delete (transactionIdStart + 1) 0 [0, 4],
  .commit (transactionIdStart + 1) none
]

def insertAgain : List VersionAction := [
  .start,
  .append (transactionIdStart + 2) 5 false,
  .delete (transactionIdStart + 2) 0 [1],
  .commit (transactionIdStart + 2) none,
  .start
]

def pauses (state : VersionState) (time : Nat) (actions : List VersionAction) : Bool :=
  state.manager.activeTransactions.isEmpty && state.manager.currentStartTimestamp = time &&
    state.manager.currentTransactionId = transactionIdStart + 2 &&
    checkPartial step continuesCheck state actions

variable {actions : List VersionAction}

theorem pauses_spec {time : Nat} (started : 2 ≤ time)
    (room : time < transactionIdStart) (paused : state.pauses time actions = true) :
    state.manager.activeTransactions = [] ∧ (afterOne time started room).Between state.manager .afterLoading ∧
      MeetsPartial step Continues state actions := by
  simp only [pauses, and_eq_true, List.isEmpty_iff, decide_eq_true_eq] at paused
  obtain ⟨⟨⟨idle, sameTime⟩, sameId⟩, checked⟩ := paused
  exact ⟨idle, ⟨sameTime, sameId, rfl, rfl⟩, meetsPartial_of_check continues_of_check checked⟩

theorem reachable_afterLoading (checked : checkPartial step continuesCheck (.initial (.loaded 10) .loaded)
      (.start :: .commit transactionIdStart none :: actions) = true)
    (ran : afterLoading actions = some state) : state.Reachable :=
  (Reachable.loaded 10).run (meetsPartial_of_check continues_of_check checked) ran

theorem insertThenDelete_sameRows :
    ∃ state, afterLoading insertThenDelete = some state ∧
      ∃ table final finalTwin, state.table.reload = some table ∧
        runPartial step state insertAgain = some final ∧
        runPartial step (state.reloaded .afterLoading table)
          (insertAgain.map (afterOne 4 (by decide) (by decide)).action) =
          some finalTwin ∧
        finalTwin.manager.activeTransactions = final.manager.activeTransactions.map
          (afterOne 4 (by decide) (by decide)).transaction ∧
        ∀ transaction ∈ final.manager.activeTransactions,
          final.SameRows finalTwin transaction
            ((afterOne 4 (by decide) (by decide)).transaction transaction) := by
  have evaluated : (afterLoading insertThenDelete).any
      (fun state => state.pauses 4 insertAgain && state.cleanCheck 1) = true := by
    decide +kernel
  obtain ⟨state, ran, both⟩ := (Option.any_eq_true _ _).mp evaluated
  obtain ⟨paused, checked⟩ := and_eq_true_iff.mp both
  have reachable := reachable_afterLoading (by decide +kernel) ran
  obtain ⟨idle, between, continues⟩ := pauses_spec (by decide) (by decide) paused
  exact ⟨state, ran, reload_sameRows reachable idle
    (clean_of_check reachable.invariant.1.layout checked)
    TransactionManager.afterLoading_restarted between continues⟩

def violateConstraint : List VersionAction := [
  .start,
  .append (transactionIdStart + 1) 5 true,
  .rollback (transactionIdStart + 1)
]

def losesRow (state : VersionState) (restart : Restart) (actions : List VersionAction) : Bool :=
  state.table.reload.any fun table =>
    (runPartial step state actions).any fun final =>
      (runPartial step (state.reloaded .afterLoading table) (actions.map restart.action)).any
        fun finalTwin =>
          final.manager.activeTransactions.any fun transaction =>
            final.table.fetch transaction 10 &&
              !finalTwin.table.fetch (restart.transaction transaction) 10

theorem violateConstraint_not_sameRows :
    ∃ state, afterLoading violateConstraint = some state ∧ state.Reachable ∧
      state.manager.activeTransactions = [] ∧
      MeetsPartial step Continues state insertAgain ∧
      ∃ table final finalTwin, state.table.reload = some table ∧
        runPartial step state insertAgain = some final ∧
        runPartial step (state.reloaded .afterLoading table)
          (insertAgain.map (afterOne 3 (by decide) (by decide)).action) =
          some finalTwin ∧
        ∃ transaction ∈ final.manager.activeTransactions,
          final.table.fetch transaction 10 = true ∧
          finalTwin.table.fetch
            ((afterOne 3 (by decide) (by decide)).transaction transaction) 10 = false := by
  have evaluated : (afterLoading violateConstraint).any (fun state =>
      state.pauses 3 insertAgain &&
        state.losesRow (afterOne 3 (by decide) (by decide)) insertAgain) = true := by
    decide +kernel
  obtain ⟨state, ran, both⟩ := (Option.any_eq_true _ _).mp evaluated
  obtain ⟨paused, loses⟩ := and_eq_true_iff.mp both
  obtain ⟨idle, _, continues⟩ := pauses_spec (by decide) (by decide) paused
  simp only [losesRow, Option.any_eq_true, any_eq_true, and_eq_true,
    not_eq_true'] at loses
  obtain ⟨table, reload, final, finalRan, finalTwin, newRan, transaction, active, seen, lost⟩ :=
    loses
  exact ⟨state, ran, reachable_afterLoading (by decide +kernel) ran, idle, continues, table,
    final, finalTwin, reload, finalRan, newRan, transaction, active, seen, lost⟩

end VersionState

end GuinsooDB
