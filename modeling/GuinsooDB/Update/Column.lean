import GuinsooDB.Library.LedgerVersions
import GuinsooDB.Update.Snapshot

/-!
Updates of a nullable column. `StandardColumnData::Update` runs the update on the data
segment, which leaves out NULL rows, and then on the validity segment. Each segment
checks for conflicts on its own.
-/

namespace GuinsooDB

open SortedEntries SnapshotLedger UndoChain Transition TransactionManager VectorRows List

variable {D : Type}

abbrev columnKind : SegmentKind → SegmentKind := fun kind => kind

def VectorRows.assignsValue (target : VectorRows) (values : FlatVector D) (row : Nat) : Bool :=
  (target.rows.idxOf? row).any values.rowIsValid

def columnBase (base : Nat → FlatVector D) : SegmentKind → Nat → FlatVector D := fun _ => base

/-- `StandardColumnData::Update`, with the exception it throws. What the data segment has
done stays when the validity segment throws. -/
def Database.updateColumn (base : Nat → FlatVector D) (database : Database D columnKind)
    (transaction : Transaction) (target : VectorRows) (values : FlatVector D) :
    Database D columnKind × Option String :=
  match database.update (columnBase base) transaction .data target values with
  | .error message => (database, some message)
  | .ok updated =>
    match updated.update (columnBase base) transaction .validity target values with
    | .error message => (updated, some message)
    | .ok finished => (finished, none)

inductive ColumnAction (D : Type) where
  | start
  | update (transactionId : Nat) (target : VectorRows) (values : FlatVector D)
  | commit (transactionId : Nat) (failure : Option Nat)
  | rollback (transactionId : Nat)

namespace History

def columnStep (base : Nat → FlatVector D) (history : History D columnKind) :
    ColumnAction D → History D columnKind
  | .start => history.step (columnBase base) .start
  | .update transactionId target values =>
    match history.database.manager.find transactionId with
    | none => history
    | some transaction =>
      match history.database.update (columnBase base) transaction .data target values with
      | .error _ => history
      | .ok _ =>
        (history.step (columnBase base) (.update transactionId .data target values)).step
          (columnBase base) (.update transactionId .validity target values)
  | .commit transactionId failure =>
    history.step (columnBase base) (.commit transactionId failure)
  | .rollback transactionId => history.step (columnBase base) (.rollback transactionId)

variable (history : History D columnKind)

def ColumnTimed : ColumnAction D → Prop
  | .start | .commit _ _ =>
    history.database.manager.currentStartTimestamp + 1 < transactionIdStart
  | .update _ _ _ | .rollback _ => True

variable (transaction : Transaction)

/-- Another transaction has updated the row, and is open or committed after this one started. -/
def UpdatedConcurrently (vectorIndex row version : Nat) : Prop :=
  version ≠ transaction.transactionId ∧ transaction.startTime < version ∧
    history.ledger.Writes version (.validity, vectorIndex, row)

/-- A concurrent version of the row is in a chain that the update goes through. -/
def Traced (target : VectorRows) (values : FlatVector D) (row version : Nat) : Prop :=
  version ≠ transaction.transactionId ∧ transaction.startTime < version ∧
    (history.recorded.Writes version (.validity, target.vectorIndex, row) ∨
      (target.assignsValue values row = true ∧
        history.recorded.Writes version (.data, target.vectorIndex, row)))

/-- An update that sets a row to NULL finds every concurrent update of that row in the
validity segment. -/
def Guarded : ColumnAction D → Prop
  | .update transactionId target values =>
    ∀ transaction, history.database.manager.find transactionId = some transaction →
      ∀ row ∈ target.rows, target.assignsValue values row = false → ∀ version,
        history.UpdatedConcurrently transaction target.vectorIndex row version →
        history.recorded.Writes version (.validity, target.vectorIndex, row)
  | .start | .commit _ _ | .rollback _ => True

def FirstUpdaterWins (base : Nat → FlatVector D) (history : History D columnKind)
    (transaction : Transaction) (target : VectorRows) (values : FlatVector D) : Prop :=
  ∀ row ∈ target.rows, ∀ version,
    history.UpdatedConcurrently transaction target.vectorIndex row version →
    (history.database.updateColumn base transaction target values).2 = some "Conflict on update!"

/-- A transaction that has updated a row has no concurrent update of it beside its own. -/
def NoLostUpdate : Prop :=
  ∀ transaction ∈ history.database.manager.activeTransactions, ∀ vectorIndex row,
    history.ledger.Writes transaction.transactionId (.validity, vectorIndex, row) →
    ∀ version, ¬history.UpdatedConcurrently transaction vectorIndex row version

end History

namespace Tracks

variable {ι : Type} {kind : ι → SegmentKind} {base : ι → Nat → FlatVector D}
  {database : Database D kind} {recorded : Ledger (RowValue D kind)} {transaction : Transaction}

theorem update_error_iff [DecidableEq ι] (tracks : Tracks base database recorded)
    (member : transaction ∈ database.manager.activeTransactions) (index : ι)
    (target : VectorRows) (values : FlatVector D) (message : String) :
    database.update base transaction index target values = .error message ↔ message = "Conflict on update!" ∧ ∃ row,
        (writeSet kind index target values (index, target.vectorIndex, row)).isSome ∧
        ∃ version, version ≠ transaction.transactionId ∧ transaction.startTime < version ∧
          recorded.Writes version (index, target.vectorIndex, row) := by
  have sorted := ascending_iff.mp (target.entries_ascending (kind index) values)
  simp only [Database.update_error_iff, ← target.lookup_entries, lookup_isSome_iff]
  refine and_congr_right fun _ => ?_
  cases found : (database.segments index).info target.vectorIndex with
  | none =>
    have untouched := tracks.not_recorded_of_blank found
    simp only [reduceCtorEq, false_and, exists_false, false_iff]
    rintro ⟨row, _, version, _, _, wrote | ⟨entry, inside, _, wrote⟩⟩
    · rw [(untouched row).1 version] at wrote
      simp at wrote
    · rw [(untouched row).2 entry inside] at wrote
      simp at wrote
  | some node =>
    have tracked := tracks.vector index target.vectorIndex node found
    simp only [Option.some.injEq, exists_eq_left']
    rw [checkForConflicts_eq_true sorted tracked.sound.sorted]
    constructor
    · rintro ⟨info, inside, other, later, row, rowMember, mentioned⟩
      refine ⟨row, rowMember, info.versionNumber, other, later, ?_⟩
      obtain ⟨value, lookup⟩ := Option.isSome_iff_exists.mp (lookup_isSome_iff.mpr mentioned)
      have node : (info.versionNumber, value) ∈ mentions node.next row := mem_mentions.mpr ⟨info, inside, rfl, lookup⟩
      rcases (tracked.linked row).node_version _ node with old | ⟨⟨_, value⟩, written, same⟩
      · have early : info.versionNumber < transaction.startTime := old.2 _ (mem_readers member)
        omega
      · simp only at same
        subst same
        exact tracks.coherent.writes_iff.mpr ⟨value, written⟩
    · rintro ⟨row, rowMember, version, other, later, wrote⟩
      obtain ⟨value, written⟩ := tracks.coherent.writes_iff.mp wrote
      have fresh : ¬database.manager.Old version := by
        intro old
        have early : version < transaction.startTime := old.2 _ (mem_readers member)
        omega
      obtain ⟨mention, mentioned, same⟩ := (tracked.linked row).write_node _ written fresh
      obtain ⟨info, inside, infoVersion, lookup⟩ := mem_mentions.mp mentioned
      exact ⟨info, inside, by omega, by omega, row, rowMember,
        lookup_isSome_iff.mp (by simp [lookup])⟩

end Tracks

variable {row : Nat} {target : VectorRows} {values : FlatVector D}

theorem VectorRows.writeSet_validity_isSome : (writeSet columnKind .validity target values
      (.validity, target.vectorIndex, row)).isSome ↔ row ∈ target.rows := by
  simp only [writeSet, and_self, if_true]
  cases found : target.rows.idxOf? row with
  | none => simpa using idxOf?_eq_none_iff.mp found
  | some position =>
    refine iff_of_true rfl ?_
    by_contra absent
    simp [idxOf?_eq_none_iff.mpr absent] at found

theorem VectorRows.writeSet_data_isSome :
    (writeSet columnKind .data target values (.data, target.vectorIndex, row)).isSome ↔
      target.assignsValue values row = true := by
  simp only [writeSet, and_self, if_true, assignsValue]
  cases found : target.rows.idxOf? row with
  | none => simp
  | some position =>
    cases valid : values.rowIsValid position with
    | false => simp [assigned, valid]
    | true =>
      refine iff_of_true ?_ (by simpa using valid)
      simp only [Option.bind_some, assigned, valid, if_true]
      rfl

theorem VectorRows.mem_of_assignsValue (assigns : target.assignsValue values row = true) : row ∈ target.rows := by
  by_contra absent
  simp [assignsValue, idxOf?_eq_none_iff.mpr absent] at assigns

namespace Database

variable {base : Nat → FlatVector D} {database updated : Database D columnKind}
  {recorded : Ledger (RowValue D columnKind)} {transaction : Transaction} {target : VectorRows}
  {values : FlatVector D}

variable (tracks : Tracks (columnBase base) database recorded)
  (member : transaction ∈ database.manager.activeTransactions)
include tracks member

theorem updateColumn_error_iff : (database.updateColumn base transaction target values).2 = some "Conflict on update!" ↔
      ∃ row ∈ target.rows, ∃ version, version ≠ transaction.transactionId ∧ transaction.startTime < version ∧
        (recorded.Writes version (.validity, target.vectorIndex, row) ∨ (target.assignsValue values row = true ∧
            recorded.Writes version (.data, target.vectorIndex, row))) := by
  have dataError := tracks.update_error_iff member .data target values
  simp only [writeSet_data_isSome] at dataError
  rw [updateColumn]
  cases data : database.update (columnBase base) transaction .data target values with
  | error message =>
    obtain ⟨same, row, assigns, version, other, later, wrote⟩ := (dataError message).mp data
    subst same
    exact iff_of_true rfl ⟨row, mem_of_assignsValue assigns, version, other, later, .inr ⟨assigns, wrote⟩⟩
  | ok updated =>
    have updatedMember : transaction ∈ updated.manager.activeTransactions := by
      rwa [update_manager data]
    have validityError := (tracks.update member data (by simp [UpdateSegment.skipsUpdate])).update_error_iff
      updatedMember .validity target values
    simp only [writeSet_validity_isSome, Ledger.writes_write] at validityError
    have noData : ∀ row version, version ≠ transaction.transactionId →
        transaction.startTime < version → target.assignsValue values row = true →
        ¬recorded.Writes version (.data, target.vectorIndex, row) := by
      intro row version other later assigns wrote
      have failed := (dataError "Conflict on update!").mpr ⟨rfl, row, assigns, version, other, later, wrote⟩
      rw [data] at failed
      cases failed
    dsimp only
    cases validity : updated.update (columnBase base) transaction .validity target values with
    | error message =>
      obtain ⟨same, row, inside, version, other, later, wrote⟩ := (validityError message).mp validity
      subst same
      exact iff_of_true rfl ⟨row, inside, version, other, later, wrote.imp id fun own => absurd own.1 other⟩
    | ok finished =>
      refine iff_of_false (by simp) ?_
      rintro ⟨row, inside, version, other, later, wrote | ⟨assigns, wrote⟩⟩
      · have failed := (validityError "Conflict on update!").mpr ⟨rfl, row, inside, version, other, later, .inl wrote⟩
        rw [validity] at failed
        cases failed
      · exact noData row version other later assigns wrote

end Database

namespace History

variable {base : Nat → FlatVector D} {history : History D columnKind} {transaction : Transaction}
  {target : VectorRows} {values : FlatVector D}

/-- Every update of a row is recorded in one of its two segments. -/
def AllTraced (ledger recorded : Ledger (RowValue D columnKind)) : Prop :=
  ∀ ⦃version vectorIndex row⦄, ledger.Writes version (.validity, vectorIndex, row) →
    recorded.Writes version (.validity, vectorIndex, row) ∨
      recorded.Writes version (.data, vectorIndex, row)

/-- What holds after every column action. The data of a row is always recorded, so a write
that the validity segment skips still leaves a version in the data segment. -/
structure Accounted (base : Nat → FlatVector D) (history : History D columnKind) : Prop where
  tracks : Tracks (columnBase base) history.database history.recorded
  sameLog : history.ledger.log.map Commit.commitId = history.recorded.log.map Commit.commitId
  traced : AllTraced history.ledger history.recorded

theorem Accounted.initial (base : Nat → FlatVector D) (starts : SegmentKind → Nat) :
    Accounted base (History.initial starts) where
  tracks := .initial starts
  sameLog := rfl
  traced := by
    rintro version vectorIndex row (wrote | ⟨entry, inside, _⟩)
    · simp [History.initial, Ledger.empty] at wrote
    · simp [History.initial, Ledger.empty] at inside

section

variable (accounted : Accounted base history)
  (member : transaction ∈ history.database.manager.activeTransactions)
include accounted member

theorem Accounted.recorded_apart : ∀ entry ∈ history.recorded.log, entry.commitId ≠ transaction.transactionId := by
  intro entry inside
  have := accounted.tracks.coherent.past entry inside
  have := (accounted.tracks.coherent.identified _ (mem_readers member)).2
  simp only [Transaction.reader] at this
  omega

theorem Accounted.ledger_apart : ∀ entry ∈ history.ledger.log, entry.commitId ≠ transaction.transactionId := by
  intro entry inside
  have listed : entry.commitId ∈ history.recorded.log.map Commit.commitId := by
    rw [← accounted.sameLog]
    exact mem_map_of_mem inside
  obtain ⟨record, recordInside, same⟩ := mem_map.mp listed
  rw [← same]
  exact accounted.recorded_apart member record recordInside

end

variable {action : ColumnAction D}

theorem columnStep_tracks (tracks : Tracks (columnBase base) history.database history.recorded)
    (timed : history.ColumnTimed action) :
    Tracks (columnBase base) (history.columnStep base action).database (history.columnStep base action).recorded := by
  cases action with
  | start | commit => exact And.left (step_invariant tracks timed)
  | rollback => exact And.left (step_invariant tracks trivial)
  | update transactionId target values =>
    rw [columnStep]
    split
    · exact tracks
    · split
      · exact tracks
      · have timed : history.Timed (.update transactionId .data target values) := trivial
        exact And.left (step_invariant (step_invariant tracks timed).1 trivial)

/-- The outcomes of an update of the column: the data segment throws, the validity segment
throws, or both are updated. Only the validity segment skips, when no value is NULL. -/
inductive ColumnUpdated (base : Nat → FlatVector D) (history : History D columnKind)
    (transaction : Transaction) (target : VectorRows) (values : FlatVector D) :
    History D columnKind → Prop
  | refused : ColumnUpdated base history transaction target values history
  | halted (database : Database D columnKind) (kept : database.manager = history.database.manager) :
      ColumnUpdated base history transaction target values {
        database
        ledger := history.ledger.write transaction.transactionId
          (writeSet columnKind .data target values)
        recorded := history.recorded.write transaction.transactionId
          (writeSet columnKind .data target values) }
  | finished (database : Database D columnKind) (skipped : Bool)
      (succeeded : (history.database.updateColumn base transaction target values).2 = none)
      (kept : database.manager = history.database.manager)
      (allValid : skipped = true → values.allValid = true) :
      ColumnUpdated base history transaction target values {
        database
        ledger := (history.ledger.write transaction.transactionId
          (writeSet columnKind .data target values)).write transaction.transactionId
            (writeSet columnKind .validity target values)
        recorded :=
          let halfway := history.recorded.write transaction.transactionId
            (writeSet columnKind .data target values)
          if skipped then halfway
          else halfway.write transaction.transactionId
            (writeSet columnKind .validity target values) }

theorem columnStep_update (base : Nat → FlatVector D) (target : VectorRows) (values : FlatVector D)
    (found : history.database.manager.find transaction.transactionId = some transaction) :
    ColumnUpdated base history transaction target values
        (history.columnStep base (.update transaction.transactionId target values)) ∧
      (history.columnStep base (.update transaction.transactionId target values)).database =
        (history.database.updateColumn base transaction target values).1 := by
  rw [columnStep, Database.updateColumn, found]
  dsimp only
  cases data : history.database.update (columnBase base) transaction .data target values with
  | error message => exact ⟨.refused, rfl⟩
  | ok updated =>
    have kept := Database.update_manager data
    have halfway : history.step (columnBase base)
        (.update transaction.transactionId .data target values) = {
          database := updated
          ledger := history.ledger.write transaction.transactionId
            (writeSet columnKind .data target values)
          recorded := history.recorded.write transaction.transactionId
            (writeSet columnKind .data target values) } := by
      simp [step, found, data, UpdateSegment.skipsUpdate]
    rw [halfway, step, kept, found]
    dsimp only
    cases validity : updated.update (columnBase base) transaction .validity target values with
    | error message => exact ⟨.halted updated kept, rfl⟩
    | ok finished =>
      refine ⟨.finished finished _ ?_ ((Database.update_manager validity).trans kept) ?_, rfl⟩
      · simp [Database.updateColumn, data, validity]
      · intro skips
        simp only [UpdateSegment.skipsUpdate, Bool.and_eq_true] at skips
        exact skips.2.2.1

variable {row : Nat}

theorem assignsValue_of_allValid (allValid : values.allValid = true) (inside : row ∈ target.rows) :
    target.assignsValue values row = true := by
  cases found : target.rows.idxOf? row with
  | none => exact absurd inside (idxOf?_eq_none_iff.mp found)
  | some position =>
    simpa [assignsValue, found] using FlatVector.rowIsValid_of_allValid allValid

variable {next : History D columnKind} {vectorIndex version : Nat}

section

variable (accounted : Accounted base history)
include accounted

theorem Accounted.updated_traced (updated : ColumnUpdated base history transaction target values next) :
    AllTraced next.ledger next.recorded := by
  intro version vectorIndex row wrote
  have traced := @accounted.traced version vectorIndex row
  cases updated with
  | refused => exact traced wrote
  | halted database =>
    simp only [Ledger.writes_write] at wrote ⊢
    rcases wrote with wrote | ⟨_, own⟩
    · exact (traced wrote).imp .inl .inl
    · simp [writeSet] at own
  | finished database skipped succeeded kept allValid =>
    simp only [Ledger.writes_write, or_assoc] at wrote
    rcases wrote with wrote | ⟨_, own⟩ | ⟨same, own⟩
    · have before := traced wrote
      cases skipped <;>
        simp only [Bool.false_eq_true, if_true, if_false, Ledger.writes_write] <;> tauto
    · simp [writeSet] at own
    cases skipped with
    | false =>
      simp only [Bool.false_eq_true, if_false, Ledger.writes_write]
      exact .inl (.inr ⟨same, own⟩)
    | true =>
      -- No value is NULL, so the data segment has recorded the row.
      obtain ⟨value, wroteValue⟩ := Option.isSome_iff_exists.mp own
      obtain ⟨target_row, inside, keyEq, _⟩ := writeSet_eq_some wroteValue
      obtain ⟨rfl, rfl⟩ := keyEq
      simp only [if_true, Ledger.writes_write]
      refine .inr (.inr ⟨same, writeSet_data_isSome.mpr ?_⟩)
      exact assignsValue_of_allValid (allValid rfl) inside

variable (member : transaction ∈ history.database.manager.activeTransactions)
include member

theorem Accounted.forget_traced : AllTraced (history.ledger.forget transaction.transactionId)
    (history.recorded.forget transaction.transactionId) := by
  intro version vectorIndex row wrote
  rw [Ledger.writes_forget (accounted.ledger_apart member)] at wrote
  simp only [Ledger.writes_forget (accounted.recorded_apart member)]
  exact (accounted.traced wrote.2).imp (⟨wrote.1, ·⟩) (⟨wrote.1, ·⟩)

theorem Accounted.commit_traced (commitId : Nat) : AllTraced (history.ledger.commit transaction.transactionId commitId)
      (history.recorded.commit transaction.transactionId commitId) := by
  intro version vectorIndex row wrote
  rw [Ledger.writes_commit (accounted.ledger_apart member)] at wrote
  simp only [Ledger.writes_commit (accounted.recorded_apart member)]
  rcases wrote with ⟨other, before⟩ | ⟨same, before⟩
  · exact (accounted.traced before).imp (fun own => .inl ⟨other, own⟩) (fun own => .inl ⟨other, own⟩)
  · exact (accounted.traced before).imp (fun own => .inr ⟨same, own⟩) (fun own => .inr ⟨same, own⟩)

end

theorem ColumnUpdated.sameLog (updated : ColumnUpdated base history transaction target values next) :
    next.ledger.log = history.ledger.log ∧ next.recorded.log = history.recorded.log := by
  cases updated with
  | refused => exact ⟨rfl, rfl⟩
  | halted => exact ⟨rfl, rfl⟩
  | finished _ skipped => cases skipped <;> exact ⟨rfl, rfl⟩

theorem Accounted.conflict (accounted : Accounted base history)
    (found : history.database.manager.find transaction.transactionId = some transaction)
    (guarded : history.Guarded (.update transaction.transactionId target values))
    (inside : row ∈ target.rows)
    (concurrent : history.UpdatedConcurrently transaction target.vectorIndex row version) :
    (history.database.updateColumn base transaction target values).2 = some "Conflict on update!" := by
  have member := (find_eq_some found).1
  refine (Database.updateColumn_error_iff accounted.tracks member).mpr
    ⟨row, inside, version, concurrent.1, concurrent.2.1, ?_⟩
  cases assigns : target.assignsValue values row with
  | false => exact .inl (guarded transaction found row inside assigns version concurrent)
  | true =>
    exact (accounted.traced concurrent.2.2).imp id fun wrote => ⟨rfl, wrote⟩

theorem stays_of_without {manager : TransactionManager} {id : Nat}
    (without : manager.readers = Ledger.without history.database.manager.readers id)
    (stays : transaction ∈ manager.activeTransactions) : transaction.transactionId ≠ id ∧
      ∃ before ∈ history.database.manager.activeTransactions, before.reader = transaction.reader := by
  have inside := mem_readers stays
  rw [without, Ledger.mem_without] at inside
  obtain ⟨before, member, same⟩ := mem_map.mp inside.1
  exact ⟨inside.2, before, member, same⟩

theorem Accounted.not_written (accounted : Accounted base history) {vectorIndex row : Nat} :
    ¬history.ledger.Writes history.database.manager.currentTransactionId (.validity, vectorIndex, row) := by
  have unrecorded : ∀ key, ¬history.recorded.Writes history.database.manager.currentTransactionId key := by
    rintro key (wrote | ⟨entry, inside, same, _⟩)
    · obtain ⟨reader, member, same⟩ := accounted.tracks.coherent.opened _ _ wrote
      obtain ⟨other, otherMember, rfl⟩ := mem_map.mp member
      exact absurd same (accounted.tracks.valid.active other otherMember).idBelow.ne
    · have past := accounted.tracks.coherent.past entry inside
      have room : _ < transactionIdStart := accounted.tracks.room
      have idStart := accounted.tracks.valid.idStart
      omega
  intro wrote
  exact (accounted.traced wrote).elim (unrecorded _) (unrecorded _)

section

variable (noLost : history.NoLostUpdate) (accounted : Accounted base history)
  (member : transaction ∈ history.database.manager.activeTransactions)
include noLost accounted member

theorem NoLostUpdate.forget (ledger : next.ledger = history.ledger.forget transaction.transactionId)
    (readers : next.database.manager.readers =
      Ledger.without history.database.manager.readers transaction.transactionId) :
    next.NoLostUpdate := by
  intro other stays vectorIndex row wrote version concurrent
  obtain ⟨_, before, beforeMember, same⟩ := stays_of_without readers stays
  simp only [Transaction.reader, Reader.mk.injEq] at same
  rw [UpdatedConcurrently, ledger, Ledger.writes_forget (accounted.ledger_apart member),
    ← same.1, ← same.2] at concurrent
  rw [ledger, Ledger.writes_forget (accounted.ledger_apart member), ← same.2] at wrote
  exact noLost before beforeMember vectorIndex row wrote.2 version ⟨concurrent.1, concurrent.2.1, concurrent.2.2.2⟩

theorem NoLostUpdate.commit (ledger : next.ledger = history.ledger.commit transaction.transactionId
      history.database.manager.currentStartTimestamp) (readers : next.database.manager.readers =
      Ledger.without history.database.manager.readers transaction.transactionId) :
    next.NoLostUpdate := by
  intro other stays vectorIndex row wrote version concurrent
  obtain ⟨different, before, beforeMember, same⟩ := stays_of_without readers stays
  simp only [Transaction.reader, Reader.mk.injEq] at same
  obtain ⟨sameStart, sameId⟩ := same
  have room : _ < transactionIdStart := accounted.tracks.room
  have beforeIdentified := accounted.tracks.valid.active before beforeMember
  have identified := accounted.tracks.valid.active transaction member
  have aboveStart := beforeIdentified.idAbove
  have above := identified.idAbove
  rw [ledger, Ledger.writes_commit (accounted.ledger_apart member), ← sameId] at wrote
  have wroteBefore : history.ledger.Writes before.transactionId (.validity, vectorIndex, row) := by
    rcases wrote with ⟨_, wrote⟩ | ⟨committed, _⟩
    · exact wrote
    · omega
  obtain ⟨notOwn, later, wroteVersion⟩ := concurrent
  rw [ledger, Ledger.writes_commit (accounted.ledger_apart member)] at wroteVersion
  rcases wroteVersion with ⟨_, wroteVersion⟩ | ⟨_, wroteVersion⟩
  · exact noLost before beforeMember vectorIndex row wroteBefore version ⟨by omega, by omega, wroteVersion⟩
  · exact noLost before beforeMember vectorIndex row wroteBefore transaction.transactionId
      ⟨by omega, by omega, wroteVersion⟩

end

section

variable (noLost : history.NoLostUpdate) (accounted : Accounted base history)
include noLost accounted

theorem NoLostUpdate.updated (found : history.database.manager.find transaction.transactionId = some transaction)
    (guarded : history.Guarded (.update transaction.transactionId target values))
    (updated : ColumnUpdated base history transaction target values next) : next.NoLostUpdate := by
  have member := (find_eq_some found).1
  have unwritten : ∀ vectorIndex row, (writeSet columnKind .data target values
      (.validity, vectorIndex, row)).isSome = false := by
    simp [writeSet]
  cases updated with
  | refused => exact noLost
  | halted database kept =>
    simpa only [NoLostUpdate, UpdatedConcurrently, Ledger.writes_write, kept, unwritten,
      Bool.false_eq_true, and_false, or_false] using noLost
  | finished database skipped succeeded kept =>
    have free : ∀ row ∈ target.rows, ∀ version,
        ¬history.UpdatedConcurrently transaction target.vectorIndex row version := by
      intro row inside version concurrent
      have refused := accounted.conflict found guarded inside concurrent
      simp [succeeded] at refused
    have own : ∀ vectorIndex row, (writeSet columnKind .validity target values
        (.validity, vectorIndex, row)).isSome → vectorIndex = target.vectorIndex ∧ row ∈ target.rows := by
      intro vectorIndex row wrote
      obtain ⟨value, wroteValue⟩ := Option.isSome_iff_exists.mp wrote
      obtain ⟨_, inside, keyEq, _⟩ := writeSet_eq_some wroteValue
      simp only [Prod.mk.injEq, true_and] at keyEq
      exact ⟨keyEq.1, keyEq.2 ▸ inside⟩
    intro other stays vectorIndex row wrote version concurrent
    have otherMember : other ∈ history.database.manager.activeTransactions := kept ▸ stays
    obtain ⟨notOwn, later, wroteVersion⟩ := concurrent
    simp only [Ledger.writes_write, unwritten, Bool.false_eq_true, and_false, or_false] at wrote wroteVersion
    rcases wrote with wrote | ⟨same, written⟩
    · rcases wroteVersion with wroteVersion | ⟨sameVersion, written⟩
      · exact noLost other otherMember vectorIndex row wrote version ⟨notOwn, later, wroteVersion⟩
      · obtain ⟨rfl, inside⟩ := own vectorIndex row written
        have := (accounted.tracks.valid.active transaction member).startBounded
        have := (accounted.tracks.valid.active other otherMember).idAbove
        exact free row inside other.transactionId ⟨by omega, by omega, wrote⟩
    · obtain rfl := accounted.tracks.valid.eq_of_active otherMember member same
      obtain ⟨rfl, inside⟩ := own vectorIndex row written
      rcases wroteVersion with wroteVersion | ⟨sameVersion, _⟩
      · exact free row inside version ⟨notOwn, later, wroteVersion⟩
      · exact notOwn sameVersion

theorem NoLostUpdate.start {database : Database D columnKind}
    (started : history.database.startTransaction = .ok (database, transaction)) :
    ({ history with database } : History D columnKind).NoLostUpdate := by
  intro other stays vectorIndex row wrote
  obtain ⟨_, _, newId, _, _, nextActive, _⟩ := startTransaction_eq (Database.startTransaction_eq_ok started).2
  simp only [nextActive, mem_append, mem_singleton] at stays
  rcases stays with stays | rfl
  · exact noLost other stays vectorIndex row wrote
  · rw [newId] at wrote
    exact absurd wrote (accounted.not_written)

end

theorem columnStep_invariant (accounted : Accounted base history)
    (timed : history.ColumnTimed action) : Accounted base (history.columnStep base action) ∧
      (history.NoLostUpdate → history.Guarded action → (history.columnStep base action).NoLostUpdate) := by
  have tracks := columnStep_tracks accounted.tracks timed
  cases action with
  | start =>
    rw [columnStep, step] at tracks ⊢
    cases started : history.database.startTransaction with
    | error => exact ⟨accounted, fun noLost _ => noLost⟩
    | ok result =>
      rw [started] at tracks
      exact ⟨⟨tracks, accounted.sameLog, accounted.traced⟩, fun noLost _ => noLost.start accounted started⟩
  | update transactionId target values =>
    cases found : history.database.manager.find transactionId with
    | none =>
      rw [columnStep, found]
      exact ⟨accounted, fun noLost _ => noLost⟩
    | some transaction =>
      obtain ⟨_, rfl⟩ := find_eq_some found
      have updated := (columnStep_update base target values found).1
      refine ⟨⟨tracks, ?_, accounted.updated_traced updated⟩,
        fun noLost guarded => noLost.updated accounted found guarded updated⟩
      rw [updated.sameLog.1, updated.sameLog.2, accounted.sameLog]
  | commit transactionId failure =>
    rw [columnStep, step] at tracks ⊢
    revert tracks
    refine history.database.manager.find_cases transactionId (fun _ => ⟨accounted, fun noLost _ => noLost⟩) ?_
    rintro transaction member rfl tracks
    have readers := history.database.commitTransaction_readers transaction failure
    cases failure with
    | none =>
      exact ⟨⟨tracks, congrArg (_ :: ·) accounted.sameLog, accounted.commit_traced member _⟩,
        fun noLost _ => noLost.commit accounted member rfl readers⟩
    | some reached =>
      exact ⟨⟨tracks, accounted.sameLog, accounted.forget_traced member⟩,
        fun noLost _ => noLost.forget accounted member rfl readers⟩
  | rollback transactionId =>
    rw [columnStep, step] at tracks ⊢
    revert tracks
    refine history.database.manager.find_cases transactionId (fun _ => ⟨accounted, fun noLost _ => noLost⟩) ?_
    rintro transaction member rfl tracks
    exact ⟨⟨tracks, accounted.sameLog, accounted.forget_traced member⟩, fun noLost _ =>
      noLost.forget accounted member rfl (history.database.rollbackTransaction_readers transaction)⟩

variable {starts : SegmentKind → Nat}

theorem run_accounted {actions : List (ColumnAction D)}
    (timed : Meets (columnStep base) ColumnTimed (History.initial starts) actions) :
    Accounted base (run (columnStep base) (History.initial starts) actions) := by
  have preserved : ∀ (history : History D columnKind) action, Accounted base history →
      history.ColumnTimed action → Accounted base (history.columnStep base action) :=
    fun _ _ accounted timed => (columnStep_invariant accounted timed).1
  exact run_invariant preserved (.initial base starts) timed

theorem initial_noLostUpdate : (History.initial starts : History D columnKind).NoLostUpdate := by
  intro transaction member
  simp [History.initial, Database.initial, TransactionManager.initial] at member

/-- A call refuses every concurrently updated row exactly when one of its rows has a
concurrent version in a chain it goes through. When no update of a run sets a row to NULL
past a concurrent update that the validity segment skipped, no update is lost. -/
theorem updateColumn_firstUpdaterWins (base : Nat → FlatVector D) (starts : SegmentKind → Nat)
    (actions : List (ColumnAction D))
    (timed : Meets (columnStep base) ColumnTimed (History.initial starts) actions) :
    let history := run (columnStep base) (History.initial starts) actions
    (∀ transaction ∈ history.database.manager.activeTransactions, ∀ target values,
      FirstUpdaterWins base history transaction target values ↔ ∀ row ∈ target.rows, ∀ version,
          history.UpdatedConcurrently transaction target.vectorIndex row version →
          ∃ caught ∈ target.rows, ∃ newer, history.Traced transaction target values caught newer) ∧
      (Meets (columnStep base) (fun state action => state.ColumnTimed action ∧ state.Guarded action)
          (History.initial starts) actions →
        history.NoLostUpdate ∧
          ∀ transaction ∈ history.database.manager.activeTransactions, ∀ target values,
            history.Guarded (.update transaction.transactionId target values) →
            FirstUpdaterWins base history transaction target values) := by
  intro history
  have accounted : Accounted base history := run_accounted timed
  refine ⟨?_, ?_⟩
  · intro transaction member target values
    refine forall_congr' fun row => forall_congr' fun _ => forall_congr' fun version =>
      forall_congr' fun _ => ?_
    exact Database.updateColumn_error_iff accounted.tracks member
  intro guarded
  have preserved : ∀ (state : History D columnKind) action,
      Accounted base state ∧ state.NoLostUpdate →
      state.ColumnTimed action ∧ state.Guarded action →
      Accounted base (state.columnStep base action) ∧
        (state.columnStep base action).NoLostUpdate :=
    fun _ _ invariant allowed =>
      (columnStep_invariant invariant.1 allowed.1).imp id fun keeps => keeps invariant.2 allowed.2
  refine ⟨(run_invariant preserved
    ⟨.initial base starts, initial_noLostUpdate⟩ guarded).2, ?_⟩
  intro transaction member target values callGuarded row inside version concurrent
  exact accounted.conflict (accounted.tracks.valid.find_of_mem member) callGuarded inside
    concurrent

section Examples

def zeroBase : Nat → FlatVector Nat := fun _ => { data := fun _ => 0, validity := none }

def valueWritten : History Nat columnKind :=
  run (columnStep zeroBase) (History.initial fun _ => 0) [
    .start, .start,
    .update transactionIdStart firstRow { data := fun _ => 7, validity := none }]

def secondTransaction : Transaction where
  startTime := 1
  transactionId := transactionIdStart + 1
  commitId := 0
  highestActiveQuery := 0
  activeQuery := maximumQueryId

/-- Setting the row to another value is refused. -/
theorem updateColumn_refuses_value :
    valueWritten.UpdatedConcurrently secondTransaction 0 0 transactionIdStart ∧
      FirstUpdaterWins zeroBase valueWritten secondTransaction firstRow
        { data := fun _ => 8, validity := none } := by
  have timed : Meets (columnStep zeroBase) ColumnTimed (History.initial fun _ => 0) [
      .start, .start,
      .update transactionIdStart firstRow { data := fun _ => 7, validity := none }] := by
    refine ⟨?_, ?_, trivial, trivial⟩
    · change 0 + 1 < transactionIdStart
      decide
    · change 1 + 1 < transactionIdStart
      decide
  refine ⟨⟨by decide, by decide, .inl (by decide)⟩, ?_⟩
  refine ((updateColumn_firstUpdaterWins zeroBase (fun _ => 0) _ timed).1
    secondTransaction (by decide) firstRow _).mpr ?_
  intro row inside version _
  exact ⟨0, by decide, transactionIdStart, by decide, by decide, .inr ⟨by decide, .inl (by decide)⟩⟩

/-- Setting the row to NULL is not: the data segment has nothing to do, and the first update
left no version in the validity segment. -/
theorem updateColumn_null_accepted :
    secondTransaction ∈ valueWritten.database.manager.activeTransactions ∧
      ¬FirstUpdaterWins zeroBase valueWritten secondTransaction firstRow
        { data := fun _ => 0, validity := some fun _ => false } := by
  refine ⟨by decide, ?_⟩
  intro wins
  have refused := wins 0 (by decide) transactionIdStart
    ⟨by decide, by decide, .inl (by decide)⟩
  exact absurd refused (by decide)

end Examples

end History

end GuinsooDB
