import GuinsooDB.Wal.CommitState

/-!
Which table a reader of the log is in at each record. Replay keeps the table of the last
`USE_TABLE` record, so every data record needs its own table to be that one.
-/

namespace GuinsooDB

open Transition LogEntry UndoEntry CommitState List

variable {Row Value Change : Type}

def LogEntry.switch (current : Option (String × String)) (entry : LogEntry Row Value Change) :
    Option (String × String) :=
  match entry.record with
  | .useTable schema table => some (schema, table)
  | .catalog _ | .insertTuple _ | .deleteTuple _ | .updateTuple _ _ => current

@[simp] theorem LogEntry.switch_useTable (current : Option (String × String)) (info : DataTableInfo) : switch current
      (⟨.useTable info.schema info.table, none⟩ : LogEntry Row Value Change) = some info.name :=
  rfl

def tableAt (log : List (LogEntry Row Value Change)) : Option (String × String) :=
  log.foldl switch none

/-- The last `USE_TABLE` record before a data record names the table the record belongs to. -/
def TableContext (log : List (LogEntry Row Value Change)) : Prop :=
  ∀ before entry after, log = before ++ entry :: after →
    ∀ info, entry.owner = some info → tableAt before = some info.name

namespace UndoEntry

def changed : UndoEntry Change → Option DataTableInfo
  | .catalogEntry _ | .insertTuple _ _ _ => none
  | .deleteTuple info _ _ | .updateTuple info _ _ _ => if info.isTemporary then none else some info

def logged : UndoEntry Change → Option DataTableInfo
  | .catalogEntry _ => none
  | .insertTuple info _ _ | .deleteTuple info _ _ | .updateTuple info _ _ _ =>
    if info.isTemporary then none else some info

end UndoEntry

def lastOf (select : UndoEntry Change → Option DataTableInfo) (undo : List (UndoEntry Change)) :
    Option DataTableInfo :=
  undo.foldl (fun last entry => (select entry).or last) none

/-- A delete or update that follows a delete or update of the same table follows no insert
into another table since. -/
def Steady (undo : List (UndoEntry Change)) : Prop :=
  ∀ before entry after info, undo = before ++ entry :: after → entry.changed = some info →
    (lastOf changed before).map DataTableInfo.address = some info.address →
    (lastOf logged before).map DataTableInfo.name = some info.name

/-! Both properties from the left -/

def ContextFrom : Option (String × String) → List (LogEntry Row Value Change) → Prop
  | _, [] => True
  | current, entry :: rest =>
    (∀ info, entry.owner = some info → current = some info.name) ∧
      ContextFrom (entry.switch current) rest

variable {current : Option (String × String)} {log : List (LogEntry Row Value Change)}

theorem contextFrom_iff : ContextFrom current log ↔ ∀ before entry after, log = before ++ entry :: after →
      ∀ info, entry.owner = some info → before.foldl switch current = some info.name := by
  induction log generalizing current with
  | nil => simp [ContextFrom]
  | cons first rest ih =>
    rw [ContextFrom, ih]
    constructor
    · rintro ⟨here, later⟩ before entry after same info owned
      cases before with
      | nil =>
        obtain ⟨rfl, rfl⟩ := cons_eq_cons.mp same
        exact here info owned
      | cons head before =>
        obtain ⟨rfl, split⟩ := cons_eq_cons.mp same
        exact later before entry after split info owned
    · intro named
      refine ⟨fun info owned => named [] first rest rfl info owned, ?_⟩
      intro before entry after split info owned
      exact named (first :: before) entry after (by rw [split]; rfl) info owned

theorem tableContext_iff : TableContext log ↔ ContextFrom none log := contextFrom_iff.symm

theorem contextFrom_append {first second : List (LogEntry Row Value Change)} : ContextFrom current (first ++ second) ↔
      ContextFrom current first ∧ ContextFrom (first.foldl switch current) second := by
  induction first generalizing current with
  | nil => simp [ContextFrom]
  | cons entry rest ih =>
    simp only [cons_append, ContextFrom, ih, foldl_cons, and_assoc]

def SteadyFrom : Option Nat → Option (String × String) → List (UndoEntry Change) → Prop
  | _, _, [] => True
  | address, name, entry :: rest =>
    (∀ info, entry.changed = some info → address = some info.address → name = some info.name) ∧
    SteadyFrom ((entry.changed.map DataTableInfo.address).or address)
      ((entry.logged.map DataTableInfo.name).or name) rest

variable {undo : List (UndoEntry Change)}

theorem steadyFrom_iff {changed logged : Option DataTableInfo} :
    SteadyFrom (changed.map DataTableInfo.address) (logged.map DataTableInfo.name) undo ↔
      ∀ before entry after info, undo = before ++ entry :: after → entry.changed = some info →
        (before.foldl (fun last entry => entry.changed.or last) changed).map DataTableInfo.address = some info.address →
        (before.foldl (fun last entry => entry.logged.or last) logged).map DataTableInfo.name = some info.name := by
  induction undo generalizing changed logged with
  | nil => simp [SteadyFrom]
  | cons first rest ih =>
    rw [SteadyFrom, ← Option.map_or, ← Option.map_or, ih]
    constructor
    · rintro ⟨here, later⟩ before entry after info same changes
      cases before with
      | nil =>
        obtain ⟨rfl, rfl⟩ := cons_eq_cons.mp same
        exact here info changes
      | cons head before =>
        obtain ⟨rfl, split⟩ := cons_eq_cons.mp same
        exact later before entry after info split changes
    · intro steady
      refine ⟨fun info changes => steady [] first rest info rfl changes, ?_⟩
      intro before entry after info split changes
      exact steady (first :: before) entry after info (by rw [split]; rfl) changes

theorem steady_iff : Steady undo ↔ SteadyFrom none none undo := (steadyFrom_iff).symm

namespace CommitState

def written (data : TableData Row Value) (address : Option Nat) :
    UndoEntry Change → List (LogEntry Row Value Change)
  | .catalogEntry change => change.toList.map fun change => ⟨.catalog change, none⟩
  | .insertTuple info startRow count =>
    if info.isTemporary then [] else
      ⟨.useTable info.schema info.table, none⟩ :: (scanTableSegment startRow count).map
        fun chunk => ⟨.insertTuple (chunk.map (data.row info)), some info⟩
  | .deleteTuple info baseRow rows =>
    if info.isTemporary then [] else
      (if address ≠ some info.address then [⟨.useTable info.schema info.table, none⟩] else []) ++
        [⟨.deleteTuple (rows.map (baseRow + ·)), some info⟩]
  | .updateTuple info column start tuples =>
    if info.isTemporary then [] else
      (if address ≠ some info.address then [⟨.useTable info.schema info.table, none⟩] else []) ++
        [⟨.updateTuple column (tuples.map fun tuple =>
          (data.committed info column (start + tuple), start + tuple)), some info⟩]

theorem switchTable_spec (state : CommitState Row Value Change) (info : DataTableInfo) :
    (state.switchTable info).log = state.log ++ (if state.currentTableInfo.map DataTableInfo.address ≠ some info.address
          then [⟨.useTable info.schema info.table, none⟩] else []) ∧
      (state.switchTable info).currentTableInfo.map DataTableInfo.address = some info.address := by
  rw [switchTable]
  split
  · exact ⟨rfl, rfl⟩
  next same =>
    exact ⟨(append_nil _).symm, not_not.mp same⟩

theorem commitEntry_spec {data : TableData Row Value} (state : CommitState Row Value Change)
    (entry : UndoEntry Change) : (state.commitEntry data entry).log = state.log ++
        written data (state.currentTableInfo.map DataTableInfo.address) entry ∧
      (state.commitEntry data entry).currentTableInfo.map DataTableInfo.address =
        (entry.changed.map DataTableInfo.address).or (state.currentTableInfo.map DataTableInfo.address) := by
  cases entry with
  | catalogEntry change => cases change <;> simp [commitEntry, written, write, changed]
  | insertTuple info startRow count =>
    rw [commitEntry, written, changed]
    split <;> simp [writeToLog, write]
  | deleteTuple info baseRow rows =>
    obtain ⟨log, current⟩ := state.switchTable_spec info
    rw [commitEntry, written, changed]
    split
    · simp
    · simp only [writeDelete, write, log, current, append_assoc]
      simp
  | updateTuple info column start tuples =>
    obtain ⟨log, current⟩ := state.switchTable_spec info
    rw [commitEntry, written, changed]
    split
    · simp
    · simp only [writeUpdate, write, log, current, append_assoc]
      simp

end CommitState

theorem contextFrom_inserts (info : DataTableInfo) (chunks : List (List Row)) :
    let entries : List (LogEntry Row Value Change) := chunks.map fun chunk => ⟨.insertTuple chunk, some info⟩
    ContextFrom (some info.name) entries ∧ entries.foldl switch (some info.name) = some info.name := by
  induction chunks with
  | nil => exact ⟨trivial, rfl⟩
  | cons chunk rest ih =>
    refine ⟨⟨?_, ih.1⟩, ih.2⟩
    intro owner owned
    cases owned
    rfl

theorem contextFrom_switched (address : Option Nat) (name : Option (String × String))
    (info : DataTableInfo) (record : WalRecord Row Value Change)
    (keeps : ∀ current, switch current ⟨record, some info⟩ = current) :
    let entries : List (LogEntry Row Value Change) :=
      (if address ≠ some info.address then [⟨.useTable info.schema info.table, none⟩] else []) ++ [⟨record, some info⟩]
    (ContextFrom name entries ↔ (address = some info.address → name = some info.name)) ∧
      ((address = some info.address → name = some info.name) → entries.foldl switch name = some info.name) := by
  by_cases same : address = some info.address <;> simp [same, ContextFrom, keeps]

theorem contextFrom_written (data : TableData Row Value) (address : Option Nat)
    (name : Option (String × String)) (entry : UndoEntry Change) :
    let kept := ∀ info, entry.changed = some info → address = some info.address → name = some info.name
    (ContextFrom name (written data address entry) ↔ kept) ∧ (kept → (written data address entry).foldl switch name =
        (entry.logged.map DataTableInfo.name).or name) := by
  cases entry with
  | catalogEntry change =>
    cases change <;>
      simp [written, ContextFrom, changed, logged, switch]
  | insertTuple info startRow count =>
    have inserts := @contextFrom_inserts Row Value Change info
      ((scanTableSegment startRow count).map fun chunk => chunk.map (data.row info))
    simp only [map_map, Function.comp_def] at inserts
    cases temporary : info.isTemporary with
    | true =>
      simp [written, ContextFrom, changed, logged, temporary]
    | false =>
      simpa [written, changed, logged, temporary, ContextFrom] using inserts
  | deleteTuple info baseRow rows =>
    have switched := contextFrom_switched address name info
      (.deleteTuple (rows.map (baseRow + ·)) : WalRecord Row Value Change) fun _ => rfl
    cases temporary : info.isTemporary with
    | true =>
      simp [written, ContextFrom, changed, logged, temporary]
    | false =>
      simpa [written, changed, logged, temporary] using switched
  | updateTuple info column start tuples =>
    have switched := contextFrom_switched address name info (.updateTuple column (tuples.map fun tuple =>
        (data.committed info column (start + tuple), start + tuple)) :
        WalRecord Row Value Change) fun _ => rfl
    cases temporary : info.isTemporary with
    | true =>
      simp [written, ContextFrom, changed, logged, temporary]
    | false =>
      simpa [written, changed, logged, temporary] using switched

variable {undo : List (UndoEntry Change)} {data : TableData Row Value}

theorem contextFrom_commit (state : CommitState Row Value Change) (name : Option (String × String)) :
    ∃ records, (run (commitEntry data) state undo).log = state.log ++ records ∧ (ContextFrom name records ↔
        SteadyFrom (state.currentTableInfo.map DataTableInfo.address) name undo) := by
  induction undo generalizing state name with
  | nil => exact ⟨[], (append_nil _).symm, Iff.rfl⟩
  | cons entry rest ih =>
    obtain ⟨log, current⟩ := state.commitEntry_spec entry
    obtain ⟨records, logRest, context⟩ :=
      ih (state.commitEntry data entry) ((entry.logged.map DataTableInfo.name).or name)
    refine ⟨written data (state.currentTableInfo.map DataTableInfo.address) entry ++ records, ?_, ?_⟩
    · rw [run_cons, logRest, log, append_assoc]
    · obtain ⟨first, leaves⟩ := contextFrom_written data (state.currentTableInfo.map DataTableInfo.address) name entry
      rw [contextFrom_append, SteadyFrom, first]
      refine and_congr_right fun kept => ?_
      rw [leaves kept, context, current]

theorem tableContext_commit_iff : TableContext (commitUndoBuffer data undo).log ↔ Steady undo := by
  obtain ⟨records, log, context⟩ := contextFrom_commit .initial none
  rw [commitUndoBuffer, log, tableContext_iff, steady_iff]
  exact context

/-- For every transaction, the data records that its commit writes are in the context of
their tables exactly when no delete or update relies on a switch that an insert into another
table has undone. -/
theorem commit_tableContext_iff (data : TableData Row Value)
    (operations : List (TableOperation Change)) (order : List (DataTableInfo × Nat)) :
    let writes := (run TransactionWrites.step .empty operations).commitStorage order
    TableContext (commitUndoBuffer data writes.undo).log ↔ Steady writes.undo :=
  tableContext_commit_iff

section Examples

def tableA : DataTableInfo := { address := 0, schema := "main", table := "a" }
def tableB : DataTableInfo := { address := 1, schema := "main", table := "b" }

/-- A delete from one table, an insert into another that is large enough to be flushed, and
another delete from the first table. -/
def insertBetweenDeletes : List (TableOperation Empty) :=
  [.delete tableA 0 [0]] ++ List.replicate 200 (.append tableB 1024 0 0 false) ++
    [.delete tableA 0 [1]]

def rowNumbers : TableData Nat Nat := { row := fun _ row => row, committed := fun _ _ row => row }

set_option maxRecDepth 10000 in
theorem insertBetweenDeletes_undo :
    ((run TransactionWrites.step .empty insertBetweenDeletes).commitStorage [(tableB, 204800)]).undo =
      [.deleteTuple tableA 0 [0], .insertTuple tableB 0 204800, .deleteTuple tableA 0 [1]] := by
  rfl

/-- The second delete is written while the log is in the table of the insert. -/
theorem insertBetweenDeletes_not_tableContext :
    let writes := (run TransactionWrites.step .empty insertBetweenDeletes).commitStorage
      [(tableB, 204800)]
    ¬TableContext (commitUndoBuffer rowNumbers writes.undo).log := by
  intro writes context
  have undo : writes.undo = _ := insertBetweenDeletes_undo
  have steady := (tableContext_commit_iff).mp context
  rw [undo] at steady
  have named := steady [.deleteTuple tableA 0 [0], .insertTuple tableB 0 204800]
    (.deleteTuple tableA 0 [1]) [] tableA rfl rfl rfl
  exact absurd named (by decide)

end Examples

end GuinsooDB
