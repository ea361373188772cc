import GuinsooDB.Version.Visibility

/-!
The ledger of a versioned table: how many rows there are, the ids of every row and the undo
entries of the transactions, without the version infos. Every step of the table with infos
is a step of its ledger.
-/

namespace GuinsooDB

open Transition Option VersionEntry

structure VersionLedger where
  manager : TransactionManager
  totalRows : Nat
  undo : Nat → List VersionEntry
  recorded : RowVersions

def VersionState.ledger (state : VersionState) : VersionLedger where
  manager := state.manager
  totalRows := state.table.totalRows
  undo := state.undo
  recorded := state.recorded

def VersionEntry.revertTotal (totalRows : Nat) : VersionEntry → Nat
  | .append startRow count =>
    if count = 0 then totalRows else if totalRows ≠ startRow + count then totalRows else startRow
  | .delete _ _ => totalRows

namespace VersionLedger

variable (ledger : VersionLedger) (transactionId : Nat)

def push (entries : List VersionEntry) : VersionLedger :=
  { ledger with
    undo := Function.update ledger.undo transactionId (ledger.undo transactionId ++ entries) }

def append (count : Nat) (constraintViolated : Bool) : VersionLedger :=
  if count = 0 then ledger
  else
    let appended := { ledger with
      recorded := ledger.recorded.insert ledger.totalRows count transactionId }
    if constraintViolated then appended
    else { appended with totalRows := ledger.totalRows + count }.push transactionId
      [.append ledger.totalRows count]

def delete (segment : Nat) (rowIds : List Nat) : VersionLedger :=
  let groups := ledger.recorded.deleteGroups transactionId (inTable segment (groupsOf rowIds))
  { ledger.push transactionId (groups.map fun group => .delete group.1 group.2) with
    recorded := ledger.recorded.markGroups transactionId groups }

def commitEntries (commitId : Nat) (ledger : VersionLedger) (entries : List VersionEntry) :
    VersionLedger :=
  { ledger with recorded := entries.foldl (RowVersions.commitEntry commitId) ledger.recorded }

def revertEntries (deleteId : Nat) (ledger : VersionLedger) (entries : List VersionEntry) :
    VersionLedger :=
  { ledger with
    totalRows := entries.foldl revertTotal ledger.totalRows
    recorded := entries.foldl (RowVersions.revertEntry deleteId) ledger.recorded }

variable (transaction : Transaction)

def removeTransaction : VersionLedger :=
  { ledger with manager := (ledger.manager.removeTransaction transaction).1 }

def commit (failure : Option (Nat × Nat)) : VersionLedger :=
  let id := transaction.transactionId
  let entries := ledger.undo id
  let (manager, commitId) := ledger.manager.drawCommitId
  let drawn := { ledger with manager }
  match failure with
  | none => (drawn.commitEntries commitId entries).removeTransaction { transaction with commitId }
  | some (committed, reverted) =>
    (((drawn.commitEntries commitId (entries.take committed)).revertEntries id
      (entries.take reverted)).revertEntries notDeletedId entries.reverse).removeTransaction
        { transaction with commitId := 0 }

def rollback : VersionLedger :=
  (ledger.revertEntries notDeletedId
    (ledger.undo transaction.transactionId).reverse).removeTransaction transaction

def step : VersionAction → VersionLedger
  | .start =>
    match ledger.manager.startTransaction with
    | .ok (manager, _) => { ledger with manager }
    | .error _ => ledger
  | .append transactionId count constraintViolated =>
    match ledger.manager.find transactionId with
    | none => ledger
    | some transaction => ledger.append transaction.transactionId count constraintViolated
  | .delete transactionId segment rowIds =>
    match ledger.manager.find transactionId with
    | none => ledger
    | some transaction => ledger.delete transaction.transactionId segment rowIds
  | .commit transactionId failure =>
    match ledger.manager.find transactionId with
    | none => ledger
    | some transaction => ledger.commit transaction failure
  | .rollback transactionId =>
    match ledger.manager.find transactionId with
    | none => ledger
    | some transaction => ledger.rollback transaction

end VersionLedger

/-! Steps of the table are steps of the ledger -/

variable {commitId : Nat} {committed : VersionedTable}

theorem VersionedTable.commitLoop_totalRows {fuel : Nat} {table : VersionedTable}
    {row remaining : Nat} (ran : commitLoop commitId fuel table row remaining = some committed) :
    committed.totalRows = table.totalRows := by
  induction fuel generalizing table row remaining with
  | zero =>
    cases ran
    rfl
  | succ fuel ih =>
    obtain ⟨changed, mapped, later⟩ := bind_eq_some_iff.mp ran
    obtain ⟨morsel, _, rfl⟩ := map_eq_some_iff.mp mapped
    split at later
    · cases later
      rfl
    · have kept := ih later
      exact kept

theorem VersionedTable.revertAppend_totalRows (table : VersionedTable) (startRow count : Nat) :
    (table.revertAppend startRow count).totalRows = revertTotal table.totalRows (.append startRow count) := by
  simp only [revertAppend, revertTotal]
  split_ifs <;> rfl

namespace VersionEntry

variable {table : VersionedTable} {entry : VersionEntry}

theorem commit_totalRows (ran : commit commitId table entry = some committed) :
    committed.totalRows = table.totalRows := by
  cases entry with
  | append startRow count => exact VersionedTable.commitLoop_totalRows ran
  | delete vector rows =>
    obtain ⟨info, _, rfl⟩ := map_eq_some_iff.mp ran
    rfl

theorem revert_totalRows {deleteId : Nat} {reverted : VersionedTable}
    (ran : revert deleteId table entry = some reverted) :
    reverted.totalRows = revertTotal table.totalRows entry := by
  cases entry with
  | append startRow count =>
    cases ran
    exact table.revertAppend_totalRows startRow count
  | delete vector rows =>
    have same : commit deleteId table (.delete vector rows) = some reverted := ran
    exact commit_totalRows same

end VersionEntry

namespace VersionState

variable {state next : VersionState}

variable {entries : List VersionEntry}

theorem forEntries_ledger {change : VersionedTable → VersionEntry → Option VersionedTable}
    {record : RowVersions → VersionEntry → RowVersions} (total : Nat → VersionEntry → Nat)
    (totals : ∀ table entry changed, change table entry = some changed →
      changed.totalRows = total table.totalRows entry)
    (ran : state.forEntries change record entries = some next) :
    next.ledger = { state.ledger with
      totalRows := entries.foldl total state.table.totalRows
      recorded := entries.foldl record state.recorded } := by
  obtain ⟨table, changed, rfl⟩ := map_eq_some_iff.mp ran
  have rows := runPartial_view totals changed
  simp only [ledger, rows, run]

theorem commitEntries_ledger (ran : state.commitEntries commitId entries = some next) :
    next.ledger = state.ledger.commitEntries commitId entries := by
  have effect := forEntries_ledger (fun total _ => total) (fun _ _ _ => commit_totalRows) ran
  rw [List.foldl_fixed] at effect
  exact effect

theorem revertEntries_ledger {deleteId : Nat} (ran : state.revertEntries deleteId entries = some next) :
    next.ledger = state.ledger.revertEntries deleteId entries :=
  forEntries_ledger revertTotal (fun _ _ _ => revert_totalRows) ran

theorem append_ledger {id count : Nat} {constraintViolated : Bool}
    (ran : state.append id count constraintViolated = some next) :
    next.ledger = state.ledger.append id count constraintViolated := by
  unfold append at ran
  unfold VersionLedger.append
  split at ran
  next none =>
    cases ran
    rw [if_pos none]
  rename_i some
  obtain ⟨table, appended, rfl⟩ := map_eq_some_iff.mp ran
  obtain ⟨grown, _, rfl⟩ := map_eq_some_iff.mp appended
  rw [if_neg some]
  cases constraintViolated with
  | false => rfl
  | true =>
    simp only [if_true, ledger, VersionedTable.revertAppend_totalRows,
      revertTotal, if_neg some, ne_eq, not_true_eq_false, if_false]

variable {transaction : Transaction}

theorem commit_ledger {failure : Option (Nat × Nat)} (ran : state.commit transaction failure = some next) :
    next.ledger = state.ledger.commit transaction failure := by
  cases failure with
  | none =>
    obtain ⟨committed, entries, rfl⟩ := map_eq_some_iff.mp ran
    have effect := commitEntries_ledger entries
    change VersionLedger.removeTransaction committed.ledger _ = _
    rw [effect]
    rfl
  | some outcome =>
    obtain ⟨first, firstRan, later⟩ := bind_eq_some_iff.mp ran
    obtain ⟨second, secondRan, last⟩ := bind_eq_some_iff.mp later
    obtain ⟨third, thirdRan, rfl⟩ := map_eq_some_iff.mp last
    change VersionLedger.removeTransaction third.ledger _ = _
    rw [revertEntries_ledger thirdRan, revertEntries_ledger secondRan, commitEntries_ledger firstRan]
    rfl

theorem rollback_ledger (ran : state.rollback transaction = some next) :
    next.ledger = state.ledger.rollback transaction := by
  obtain ⟨reverted, entries, rfl⟩ := map_eq_some_iff.mp ran
  change VersionLedger.removeTransaction reverted.ledger _ = _
  rw [revertEntries_ledger entries]
  rfl

variable {whole : Nat → Prop}

theorem delete_ledger (invariant : VersionInvariant whole state) {id segment : Nat} {rowIds : List Nat}
    (targets : state.table.Targets segment rowIds) :
    (state.delete id segment rowIds).ledger = state.ledger.delete id segment rowIds := by
  have pushed := (VersionedTable.delete_spec invariant.layout invariant.sound targets id).1
  rw [delete_eq pushed]
  rfl

theorem ledger_unchanged (same : some state = some next) : next.ledger = state.ledger := by
  cases same
  rfl

theorem step_ledger (invariant : VersionInvariant whole state) {action : VersionAction} (targets : state.Aims action)
    (stepped : state.step action = some next) : next.ledger = state.ledger.step action := by
  cases action with
  | start =>
    simp only [step] at stepped
    change _ = match state.manager.startTransaction with
      | .ok (manager, _) => { state.ledger with manager }
      | .error _ => state.ledger
    cases started : state.manager.startTransaction <;> rw [started] at stepped <;> cases stepped <;>
      rfl
  | append transactionId count constraintViolated =>
    revert stepped
    simp only [step, VersionLedger.step]
    exact state.manager.find_cases transactionId ledger_unchanged fun _ _ _ => append_ledger
  | delete transactionId segment rowIds =>
    revert stepped
    simp only [step, VersionLedger.step]
    refine state.manager.find_cases transactionId ledger_unchanged fun _ member same => ?_
    rintro ⟨⟩
    exact delete_ledger invariant (targets member (same ▸ rfl))
  | commit transactionId failure =>
    revert stepped
    simp only [step, VersionLedger.step]
    exact state.manager.find_cases transactionId ledger_unchanged fun _ _ _ => commit_ledger
  | rollback transactionId =>
    revert stepped
    simp only [step, VersionLedger.step]
    exact state.manager.find_cases transactionId ledger_unchanged fun _ _ _ => rollback_ledger

end VersionState

end GuinsooDB
