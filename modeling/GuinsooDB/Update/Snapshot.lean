import GuinsooDB.Library.LedgerAgreement
import GuinsooDB.Update.Effects

/-!
Every history of the update database is tracked by the ledger of recorded writes, and
scans read what that ledger says.
-/

namespace GuinsooDB

open SortedEntries SnapshotLedger UndoChain Transition Function Option TransactionManager UpdateSegment Database List

variable {D ι : Type} {kind : ι → SegmentKind}

def baseValue (kind : ι → SegmentKind) (base : ι → Nat → FlatVector D) (key : RowKey ι) :
    RowValue D kind key :=
  extract (kind key.1) (base key.1 key.2.1) key.2.2

section

variable {started database : Database D kind} {transaction : Transaction}
  (ok : database.startTransaction = .ok (started, transaction))
include ok

theorem Database.startTransaction_eq_ok : started = { database with manager := started.manager } ∧
    database.manager.startTransaction = .ok (started.manager, transaction) := by
  rw [Database.startTransaction] at ok
  split at ok
  next managerStarted =>
    obtain ⟨rfl, rfl⟩ := ok
    exact ⟨rfl, managerStarted⟩
  · simp at ok

theorem Database.startTransaction_readers : started.manager.readers = database.manager.readers ++
    [transaction.reader] := by
  have nextActive := (startTransaction_eq (startTransaction_eq_ok ok).2).2.2.2.2.2.1
  simp [readers, nextActive]

end

variable {index : ι} {values : FlatVector D} {target : VectorRows} {key : RowKey ι}

theorem writeSet_eq_some [DecidableEq ι] {value : RowValue D kind key}
    (wrote : writeSet kind index target values key = some value) :
    ∃ row ∈ target.rows, key = (index, target.vectorIndex, row) ∧
      ∃ position, assigned (kind key.1) values position = some value := by
  obtain ⟨other, vectorIndex, row⟩ := key
  rw [writeSet] at wrote
  split at wrote
  next here =>
    obtain ⟨sameIndex, sameVector⟩ := here
    obtain ⟨position, found, assigns⟩ := bind_eq_some_iff.mp wrote
    simp only at sameIndex sameVector
    subst other vectorIndex
    refine ⟨row, ?_, rfl, position, assigns⟩
    by_contra absent
    rw [idxOf?_eq_none_iff.mpr absent] at found
    simp at found
  · simp at wrote

structure Tracks (base : ι → Nat → FlatVector D) (database : Database D kind)
    (recorded : Ledger (RowValue D kind)) : Prop where
  valid : database.manager.Valid
  room : database.manager.Room
  coherent : recorded.Coherent database.manager.readers database.manager.currentStartTimestamp
  vector : ∀ index vectorIndex node, (database.segments index).info vectorIndex = some node →
    Tracked database.manager (extract (kind index) (base index vectorIndex))
      (fun row => recorded.writesOf database.manager.readers (index, vectorIndex, row)) node
  blank : ∀ index vectorIndex, (database.segments index).info vectorIndex = none →
    ∀ row, recorded.writesOf database.manager.readers (index, vectorIndex, row) = []
  lists : ∀ transactionId,
    Database.Lists database.segments transactionId (database.undo transactionId)

namespace Tracks

variable {base : ι → Nat → FlatVector D} {database : Database D kind}
  {recorded : Ledger (RowValue D kind)} {transaction : Transaction}

theorem initial (starts : ι → Nat) : Tracks base (Database.initial starts : Database D kind) Ledger.empty where
  valid := initial_valid
  room := by
    show 0 < transactionIdStart
    decide
  coherent := by
    constructor <;>
      simp [Database.initial, readers, TransactionManager.initial, Ledger.empty]
  vector := by
    intro index vectorIndex node found
    simp [Database.initial, create, info] at found
  blank := fun _ _ _ _ => rfl
  lists := by
    intro transactionId index vectorIndex node found
    simp [Database.initial, create, info] at found

section

variable (tracks : Tracks base database recorded)
include tracks

theorem scan (member : transaction ∈ database.manager.activeTransactions) (index : ι)
    (vectorIndex row : Nat) : database.scanVector base transaction index vectorIndex row =
      recorded.read (baseValue kind base) transaction.reader (index, vectorIndex, row) := by
  have reads := Ledger.read_eq_firstShown tracks.coherent
    (mem_readers member) (baseValue kind base) (index, vectorIndex, row)
  rw [reads, scanVector, fetchUpdates_eq]
  cases found : (database.segments index).info vectorIndex with
  | none =>
    rw [tracks.blank index vectorIndex found row]
    rfl
  | some node =>
    exact (tracks.vector index vectorIndex node found).fetch tracks.valid tracks.room member
      (tracks.coherent.hidden_closed (mem_readers member) (index, vectorIndex, row))

theorem now_lt_reader : ∀ reader ∈ database.manager.readers,
      database.manager.currentStartTimestamp < reader.transaction := by
  intro reader member
  obtain ⟨active, activeMember, readerEq⟩ := mem_map.mp member
  subst reader
  have high := (tracks.valid.active active activeMember).idAbove
  have room := tracks.room
  show database.manager.currentStartTimestamp < active.transactionId
  simp only [TransactionManager.Room] at room
  omega

theorem start {started : Database D kind} (room : database.manager.currentStartTimestamp + 1 < transactionIdStart)
    (ok : database.startTransaction = .ok (started, transaction)) :
    Tracks base started recorded := by
  obtain ⟨same, startOk⟩ := startTransaction_eq_ok ok
  obtain ⟨_, startEq, idEq, nextStart, _⟩ := startTransaction_eq startOk
  have readersEq := startTransaction_readers ok
  rw [Transaction.reader, startEq, idEq] at readersEq
  have fresh : ∀ reader ∈ database.manager.readers, reader.transaction ≠ database.manager.currentTransactionId := by
    intro reader member
    obtain ⟨active, activeMember, readerEq⟩ := mem_map.mp member
    subst reader
    exact ne_of_lt (tracks.valid.active active activeMember).idBelow
  have idStart := tracks.valid.idStart
  have unchanged : ∀ key, recorded.writesOf started.manager.readers key =
      recorded.writesOf database.manager.readers key := by
    intro key
    rw [readersEq]
    exact tracks.coherent.writesOf_begin fresh key
  refine ⟨startTransaction_valid tracks.valid startOk, ?_, ?_, ?_, ?_, same ▸ tracks.lists⟩
  · show started.manager.currentStartTimestamp < transactionIdStart
    omega
  · rw [readersEq, nextStart]
    exact tracks.coherent.begin fresh tracks.now_lt_reader (by omega)
  · intro index vectorIndex node found
    simp only [unchanged]
    rw [same] at found
    exact (tracks.vector index vectorIndex node found).start tracks.valid startOk
  · intro index vectorIndex found row
    rw [unchanged]
    rw [same] at found
    exact tracks.blank index vectorIndex found row

theorem not_recorded_of_blank {vectorIndex : Nat}
    (blank : (database.segments index).info vectorIndex = none) (row : Nat) :
    (∀ transactionId, recorded.pending transactionId (index, vectorIndex, row) = none) ∧
      ∀ entry ∈ recorded.log, entry.writes (index, vectorIndex, row) = none := by
  have nothing := tracks.blank index vectorIndex blank row
  refine ⟨fun transactionId => eq_none_iff_forall_ne_some.mpr fun value wrote => ?_,
    fun entry inside => eq_none_iff_forall_ne_some.mpr fun value wrote => ?_⟩
  · simpa [nothing] using tracks.coherent.mem_writesOf_pending wrote
  · simpa [nothing] using @Ledger.Coherent.mem_writesOf_logged _ _ _ database.manager.readers _ _ _ inside wrote

end

section Update

variable [DecidableEq ι] {index : ι} {target : VectorRows} {values : FlatVector D}

theorem setVector (tracks : Tracks base database recorded) (member : transaction ∈ database.manager.activeTransactions)
    {node : UpdateNodeData (Stored D (kind index))} {created : List Nat}
    (free : ∀ row value, (target.entries (kind index) values).lookup row = some value →
      Ledger.Coherent.Free recorded transaction.reader (index, target.vectorIndex, row))
    (tracked : Tracked database.manager (extract (kind index) (base index target.vectorIndex))
      (fun row => (recorded.write transaction.transactionId (writeSet kind index target values)).writesOf
        database.manager.readers (index, target.vectorIndex, row)) node)
    (owners : ∀ info ∈ node.next, (∃ oldNode, (database.segments index).info target.vectorIndex =
        some oldNode ∧ ∃ old ∈ oldNode.next, old.transaction = info.transaction) ∨
      (info.transaction = transaction.transactionId ∧ target.vectorIndex ∈ created)) :
    Tracks base { database with
      segments := Function.update database.segments index
        ((database.segments index).setInfo target.vectorIndex node)
      undo := update database.undo transaction.transactionId
        (database.undo transaction.transactionId ++
          created.map fun vectorIndex => (index, vectorIndex)) }
      (recorded.write transaction.transactionId (writeSet kind index target values)) := by
  have reader := mem_readers member
  have elsewhere : ∀ other vectorIndex, ¬(other = index ∧ vectorIndex = target.vectorIndex) →
      (fun row => (recorded.write transaction.transactionId
        (writeSet kind index target values)).writesOf database.manager.readers (other, vectorIndex, row)) =
        fun row => recorded.writesOf database.manager.readers (other, vectorIndex, row) := by
    intro other vectorIndex outside
    funext row
    exact Ledger.Coherent.writesOf_write_of_none (if_neg outside)
  have infoHere : (update database.segments index
      ((database.segments index).setInfo target.vectorIndex node) index).info target.vectorIndex = some node := by
    rw [update_self, setInfo_info, if_pos rfl]
  have infoElsewhere : ∀ other vectorIndex, ¬(other = index ∧ vectorIndex = target.vectorIndex) →
      (update database.segments index
        ((database.segments index).setInfo target.vectorIndex node) other).info vectorIndex =
        (database.segments other).info vectorIndex := by
    intro other vectorIndex outside
    by_cases sameIndex : other = index
    · subst other
      rw [update_self, setInfo_info, if_neg fun same => outside ⟨rfl, same⟩]
    · rw [update_of_ne sameIndex]
  have listed : ∀ transactionId entry, entry ∈ database.undo transactionId →
      entry ∈ update database.undo transaction.transactionId (database.undo transaction.transactionId ++
          created.map fun vectorIndex => (index, vectorIndex)) transactionId := by
    intro transactionId entry inside
    by_cases same : transactionId = transaction.transactionId
    · subst transactionId
      rw [update_self]
      exact mem_append_left _ inside
    · rwa [update_of_ne same]
  refine ⟨tracks.valid, tracks.room, tracks.coherent.write reader ?_, ?_, ?_, ?_⟩
  · rintro ⟨other, vectorIndex, row⟩ written
    obtain ⟨value, wrote⟩ := isSome_iff_exists.mp written
    by_cases here : other = index ∧ vectorIndex = target.vectorIndex
    · obtain ⟨sameIndex, sameVector⟩ := here
      subst other vectorIndex
      exact free row value ((target.lookup_entries row).trans wrote)
    · rw [writeSet, if_neg here] at wrote
      simp at wrote
  · intro other vectorIndex otherNode found
    by_cases here : other = index ∧ vectorIndex = target.vectorIndex
    · obtain ⟨sameIndex, sameVector⟩ := here
      subst other vectorIndex
      rw [infoHere, some.injEq] at found
      subst otherNode
      exact tracked
    · rw [infoElsewhere other vectorIndex here] at found
      rw [elsewhere other vectorIndex here]
      exact tracks.vector other vectorIndex otherNode found
  · intro other vectorIndex absent row
    by_cases here : other = index ∧ vectorIndex = target.vectorIndex
    · obtain ⟨sameIndex, sameVector⟩ := here
      subst other vectorIndex
      rw [infoHere] at absent
      simp at absent
    · rw [infoElsewhere other vectorIndex here] at absent
      rw [congrFun (elsewhere other vectorIndex here) row]
      exact tracks.blank other vectorIndex absent row
  · intro transactionId other vectorIndex otherNode found info inside owns
    by_cases here : other = index ∧ vectorIndex = target.vectorIndex
    · obtain ⟨sameIndex, sameVector⟩ := here
      subst other vectorIndex
      rw [infoHere, some.injEq] at found
      subst otherNode
      rcases owners info inside with ⟨oldNode, oldFound, old, oldMember, same⟩ | ⟨own, isCreated⟩
      · exact listed transactionId _
          (tracks.lists transactionId index _ oldNode oldFound old oldMember (same.trans owns))
      · rw [← owns, own]
        show _ ∈ update database.undo _ _ _
        rw [update_self]
        exact mem_append_right _ (mem_map.mpr ⟨_, isCreated, rfl⟩)
    · rw [infoElsewhere other vectorIndex here] at found
      exact listed transactionId _ (tracks.lists transactionId other vectorIndex otherNode found info inside owns)

theorem update {updated : Database D kind} (tracks : Tracks base database recorded)
    (member : transaction ∈ database.manager.activeTransactions)
    (ok : database.update base transaction index target values = .ok updated)
    (taken : (database.segments index).skipsUpdate target.vectorIndex values
      (base index target.vectorIndex) = false) : Tracks base updated
      (recorded.write transaction.transactionId (writeSet kind index target values)) := by
  have reader := mem_readers member
  have lookup : ∀ row, (target.entries (kind index) values).lookup row =
      writeSet kind index target values (index, target.vectorIndex, row) :=
    target.lookup_entries
  have sorted := target.entries_ascending (kind index) values
  have bounded := target.entries_bounded (kind index) values
  rw [Database.update] at ok
  split at ok
  · simp at ok
  rename_i segment created segmentOk
  simp only [Except.ok.injEq] at ok
  subst updated
  cases update_spec segmentOk with
  | skipped skips => simp [skips] at taken
  | empty _ nothing =>
    have unwritten : ∀ key : RowKey ι, writeSet kind index target values key = none := by
      rintro ⟨other, vectorIndex, row⟩
      by_cases here : other = index ∧ vectorIndex = target.vectorIndex
      · obtain ⟨sameIndex, sameVector⟩ := here
        subst other vectorIndex
        rw [← lookup row, nothing]
        rfl
      · rw [writeSet, if_neg here]
    simp only [Ledger.write_of_none unwritten, map_nil, append_nil, update_eq_self]
    exact tracks
  | created _ blank =>
    have untouched := tracks.not_recorded_of_blank blank
    have free : ∀ row, Ledger.Coherent.Free recorded transaction.reader (index, target.vectorIndex, row) := by
      intro row
      refine ⟨fun other _ => (untouched row).1 other, ?_⟩
      intro entry inside wrote
      rw [(untouched row).2 entry inside] at wrote
      simp at wrote
    refine tracks.setVector member (fun row _ _ => free row) ?_ ?_
    · refine .create tracks.valid member sorted bounded ?_ ?_
      · intro row value found
        have logged : recorded.loggedWrites (index, target.vectorIndex, row) = [] := by
          have nothing := tracks.blank index _ blank row
          exact (append_eq_nil_iff.mp nothing).2
        rw [lookup row] at found
        have written := tracks.coherent.writesOf_write_of_some reader found (free row)
        rwa [logged] at written
      · intro row found
        rw [lookup row] at found
        rw [Ledger.Coherent.writesOf_write_of_none found]
        exact tracks.blank index _ blank row
    · intro info inside
      rw [createNode, mem_singleton] at inside
      subst info
      exact .inr ⟨rfl, mem_singleton_self _⟩
  | @extended node _ found clean =>
    have tracked := tracks.vector index _ node found
    have conflictFree := checkForConflicts_eq_false (ascending_iff.mp sorted) tracked.sound.sorted clean
    have free : ∀ row value, (target.entries (kind index) values).lookup row = some value →
        Ledger.Coherent.Free recorded transaction.reader (index, target.vectorIndex, row) := by
      intro row value entry
      refine tracks.coherent.free_of_writes reader ?_
      refine tracked.writes_of_clean member ?_
      intro info inside different later
      exact conflictFree info inside different later row (lookup_isSome_iff.mp (by simp [entry]))
    refine tracks.setVector member free ?_ ?_
    · refine tracked.extend tracks.valid tracks.room member sorted bounded ?_ ?_ clean
      · intro row value entry
        have isFree := free row value entry
        rw [lookup row] at entry
        exact ⟨_, tracks.coherent.peels_logged reader isFree.1,
          tracks.coherent.writesOf_write_of_some reader entry isFree⟩
      · intro row entry
        rw [lookup row] at entry
        exact Ledger.Coherent.writesOf_write_of_none entry
    · intro info inside
      rcases extendNode_owner inside with ⟨old, oldMember, same⟩ | ⟨own, absent⟩
      · exact .inl ⟨node, found, old, oldMember, same⟩
      · exact .inr ⟨own, by simp [absent]⟩

end Update

theorem readers_retire {manager : TransactionManager} {leaving : Transaction}
    (same : leaving.transactionId = transaction.transactionId) : (manager.retire leaving).readers =
      Ledger.without manager.readers transaction.reader.transaction := by
  rw [readers, retire_active, others, Ledger.without, readers, List.filter_map]
  simp only [same]
  rfl

section

variable (tracks : Tracks base database recorded)
include tracks

section

variable (member : transaction ∈ database.manager.activeTransactions)
  {segments : (index : ι) → UpdateSegment D (kind index)}
include member

theorem abandon (drawn : TransactionManager) (leaving : Transaction)
    (same : leaving.transactionId = transaction.transactionId) (aborted : leaving.commitId = 0)
    (valid : drawn.Valid) (room : drawn.Room)
    (active : drawn.activeTransactions = database.manager.activeTransactions)
    (recent : drawn.recentlyCommittedTransactions = database.manager.recentlyCommittedTransactions)
    (now : database.manager.currentStartTimestamp ≤ drawn.currentStartTimestamp)
    (rolled : ∀ index vectorIndex, (segments index).info vectorIndex =
      ((database.segments index).info vectorIndex).map (rollbackNode transaction.transactionId)) :
    Tracks base { database with manager := drawn.retire leaving, segments }
      (recorded.forget transaction.transactionId) := by
  have reader := mem_readers member
  have drawnReaders : drawn.readers = database.manager.readers := by
    rw [readers, active, readers]
  have readers : (drawn.retire leaving).readers =
      Ledger.without database.manager.readers transaction.reader.transaction := by
    rw [readers_retire same, drawnReaders]
  have started : transaction.startTime < drawn.currentStartTimestamp :=
    lt_of_lt_of_le (tracks.valid.active transaction member).startBelow now
  have leavingActive : (drawn.retire leaving).activeTransactions = database.manager.others transaction := by
    rw [retire_active, others, others, active, same]
  have leavingNow := (drawn.retire_timestamps leaving).1
  have coherent : (recorded.forget transaction.reader.transaction).Coherent
      (drawn.retire leaving).readers (drawn.retire leaving).currentStartTimestamp := by
    rw [readers, leavingNow]
    refine (tracks.coherent.forget _).advance now ?_
    intro other inside
    obtain ⟨stays, stayMember, readerEq⟩ := mem_map.mp (Ledger.mem_without.mp inside).1
    subst other
    have high := (tracks.valid.active stays stayMember).idAbove
    show drawn.currentStartTimestamp ≤ stays.transactionId
    simp only [TransactionManager.Room] at room
    omega
  have peeled : ∀ key, Peels transaction.transactionId (recorded.writesOf database.manager.readers key)
      ((recorded.forget transaction.transactionId).writesOf (drawn.retire leaving).readers key) := by
    intro key
    rw [readers]
    exact tracks.coherent.peels_forget reader key
  refine ⟨?_, ?_, coherent, ?_, ?_, ?_⟩
  · exact retire_valid valid (active ▸ member) same (by omega)
  · show (drawn.retire leaving).currentStartTimestamp < transactionIdStart
    rw [leavingNow]
    exact room
  · intro index vectorIndex node found
    rw [rolled] at found
    obtain ⟨old, oldFound, nodeEq⟩ := map_eq_some_iff.mp found
    subst node
    refine (tracks.vector index vectorIndex old oldFound).rollback tracks.valid tracks.room member
      leavingActive (leavingNow ▸ now) (fun row => coherent.old_closed (index, vectorIndex, row)) ?_
      (fun row => peeled _)
    rw [retire_recent, recent, if_neg (by simp [aborted]), append_nil]
  · intro index vectorIndex absent row
    rw [rolled, map_eq_none_iff] at absent
    have nothing := tracks.blank index vectorIndex absent row
    have peels := peeled (index, vectorIndex, row)
    rw [nothing] at peels
    rcases peels.shape with empty | ⟨_, impossible⟩
    · exact empty.symm
    · simp at impossible
  · intro transactionId index vectorIndex node found info inside owns
    rw [rolled] at found
    obtain ⟨old, oldFound, nodeEq⟩ := map_eq_some_iff.mp found
    have tracked := tracks.vector index vectorIndex old oldFound
    have kept := (tracked.sound.rollbackNode (tracked.labelled tracks.valid tracks.room member)
      (extract (kind index) (base index vectorIndex))).2.1
    subst node
    rw [kept] at inside
    exact tracks.lists transactionId index vectorIndex old oldFound info (mem_of_mem_filter inside) owns

theorem commit (room : database.manager.currentStartTimestamp + 1 < transactionIdStart)
    (stamped : ∀ index vectorIndex, (segments index).info vectorIndex = ((database.segments index).info vectorIndex).map
      (commitNode transaction.transactionId database.manager.currentStartTimestamp)) :
    Tracks base { database with
      manager := database.manager.drawCommitId.1.retire
        { transaction with commitId := database.manager.currentStartTimestamp }
      segments }
      (recorded.commit transaction.transactionId database.manager.currentStartTimestamp) := by
  have reader := mem_readers member
  have started := (tracks.valid.active transaction member).startBelow
  let leaving : Transaction := { transaction with commitId := database.manager.currentStartTimestamp }
  let manager := database.manager.drawCommitId.1.retire leaving
  have readers : manager.readers = Ledger.without database.manager.readers transaction.reader.transaction :=
    readers_retire rfl
  have leavingNow : manager.currentStartTimestamp = database.manager.currentStartTimestamp + 1 :=
    (database.manager.drawCommitId.1.retire_timestamps leaving).1
  have coherent : (recorded.commit transaction.reader.transaction database.manager.currentStartTimestamp).Coherent
      manager.readers manager.currentStartTimestamp := by
    rw [readers, leavingNow]
    exact tracks.coherent.commit tracks.now_lt_reader
  have relabelled : ∀ key, (recorded.commit transaction.transactionId
      database.manager.currentStartTimestamp).writesOf manager.readers key =
      (recorded.writesOf database.manager.readers key).map fun write =>
        (if write.1 = transaction.transactionId then database.manager.currentStartTimestamp
          else write.1, write.2) := by
    intro key
    rw [readers]
    exact tracks.coherent.writesOf_commit reader _ key
  refine ⟨?_, ?_, coherent, ?_, ?_, ?_⟩
  · exact retire_valid (drawCommitId_valid tracks.valid) member rfl (Nat.lt_succ_self _)
  · show manager.currentStartTimestamp < transactionIdStart
    omega
  · intro index vectorIndex node found
    rw [stamped] at found
    obtain ⟨old, oldFound, nodeEq⟩ := map_eq_some_iff.mp found
    subst node
    refine (tracks.vector index vectorIndex old oldFound).commit tracks.valid tracks.room member
      (retire_active database.manager.drawCommitId.1 leaving) ?_
      (fun row => coherent.old_closed (index, vectorIndex, row)) leaving rfl rfl ?_
      (fun row => relabelled _)
    · show _ ≤ manager.currentStartTimestamp
      omega
    have committed : leaving.commitId ≠ 0 := by
      show database.manager.currentStartTimestamp ≠ 0
      omega
    rw [retire_recent, if_pos committed]
    rfl
  · intro index vectorIndex absent row
    rw [stamped, map_eq_none_iff] at absent
    rw [relabelled, tracks.blank index vectorIndex absent row]
    rfl
  · intro transactionId index vectorIndex node found info inside owns
    rw [stamped] at found
    obtain ⟨old, oldFound, nodeEq⟩ := map_eq_some_iff.mp found
    subst node
    obtain ⟨earlier, earlierMember, relabel⟩ := mem_map.mp inside
    refine tracks.lists transactionId index vectorIndex old oldFound earlier earlierMember ?_
    rw [← owns, ← relabel]
    split <;> rfl

end

theorem collect [DecidableEq ι] :
    Tracks base { database with
      manager := database.manager.collect
      segments := database.manager.cleaned.foldl (fun segments old =>
        cleanupEntries segments old.transactionId (database.undo old.transactionId))
        database.segments } recorded := by
  have cleaned := cleanup_info database.manager.cleaned database.segments tracks.lists
  refine ⟨collect_valid tracks.valid, tracks.room, tracks.coherent, ?_, ?_, ?_⟩
  · intro index vectorIndex node found
    rw [cleaned] at found
    obtain ⟨old, oldFound, nodeEq⟩ := map_eq_some_iff.mp found
    subst node
    exact (tracks.vector index vectorIndex old oldFound).cleanup tracks.valid
  · intro index vectorIndex absent row
    rw [cleaned, map_eq_none_iff] at absent
    exact tracks.blank index vectorIndex absent row
  · intro transactionId index vectorIndex node found info inside owns
    rw [cleaned] at found
    obtain ⟨old, oldFound, nodeEq⟩ := map_eq_some_iff.mp found
    subst node
    exact tracks.lists transactionId index vectorIndex old oldFound info (mem_of_mem_filter inside) owns

end

section Database

variable [DecidableEq ι]

variable (tracks : Tracks base database recorded)
  (member : transaction ∈ database.manager.activeTransactions)
include tracks member

theorem rollbackTransaction : Tracks base (database.rollbackTransaction transaction)
      (recorded.forget transaction.transactionId) :=
  (tracks.abandon member database.manager transaction rfl
    (tracks.valid.active transaction member).uncommitted tracks.valid tracks.room rfl rfl
    (le_refl _)
    (rollbackEntries_info (tracks.lists transaction.transactionId))).collect

theorem commitTransaction (room : database.manager.currentStartTimestamp + 1 < transactionIdStart) :
    Tracks base (database.commitTransaction transaction none)
      (recorded.commit transaction.transactionId database.manager.currentStartTimestamp) :=
  (tracks.commit member room (stampEntries_info (tracks.lists transaction.transactionId) )).collect

theorem failedCommit (room : database.manager.currentStartTimestamp + 1 < transactionIdStart)
    (reached : Nat) : Tracks base (database.commitTransaction transaction (some reached))
      (recorded.forget transaction.transactionId) := by
  let entries := database.undo transaction.transactionId
  have reverted := revertCommit_info (fun index vectorIndex node found =>
      (tracks.vector index vectorIndex node found).labelled tracks.valid tracks.room member)
    database.manager.currentStartTimestamp (entries.take reached)
  have lists : Database.Lists (stampEntries (stampEntries database.segments
      transaction.transactionId database.manager.currentStartTimestamp (entries.take reached))
      transaction.transactionId transaction.transactionId (entries.take reached))
      transaction.transactionId entries := by
    intro index vectorIndex node found
    rw [reverted] at found
    exact tracks.lists transaction.transactionId index vectorIndex node found
  have rolled := rollbackEntries_info lists
  simp only [reverted] at rolled
  exact (tracks.abandon member database.manager.drawCommitId.1 { transaction with commitId := 0 }
    rfl rfl (drawCommitId_valid tracks.valid) room rfl rfl (Nat.le_succ _)
    rolled).collect

end Database

end Tracks

theorem Database.rollbackTransaction_readers [DecidableEq ι] (database : Database D kind)
    (transaction : Transaction) : (database.rollbackTransaction transaction).manager.readers =
      Ledger.without database.manager.readers transaction.transactionId :=
  Tracks.readers_retire rfl

theorem Database.commitTransaction_readers [DecidableEq ι] (database : Database D kind)
    (transaction : Transaction) (failure : Option Nat) :
    (database.commitTransaction transaction failure).manager.readers =
      Ledger.without database.manager.readers transaction.transactionId := by
  cases failure with
  | none => exact Tracks.readers_retire rfl
  | some _ => exact Tracks.readers_retire rfl

variable {transaction : Transaction}

namespace History

variable {base : ι → Nat → FlatVector D} {history : History D kind}

/-- Every active transaction reads its own last write, or else the last write committed
before it started, or else the base value. -/
def SnapshotReads (base : ι → Nat → FlatVector D) (history : History D kind) : Prop :=
  ∀ transaction ∈ history.database.manager.activeTransactions, ∀ index vectorIndex row,
    history.database.scanVector base transaction index vectorIndex row =
      history.ledger.read (baseValue kind base) transaction.reader (index, vectorIndex, row)

/-- What holds after every step: the recorded writes track the database, and the ledger
of all writes agrees with them. -/
structure Consistent (base : ι → Nat → FlatVector D) (history : History D kind) : Prop where
  tracks : Tracks base history.database history.recorded
  agrees : Agrees (baseValue kind base) history.database.manager.readers history.ledger
    history.recorded

theorem Consistent.snapshotReads (consistent : Consistent base history) : SnapshotReads base history := by
  intro transaction member index vectorIndex row
  rw [consistent.tracks.scan member]
  exact (consistent.agrees.read transaction.reader _).symm

variable [DecidableEq ι]

variable {action : Action D ι}

theorem update_agrees (consistent : Consistent base history)
    (member : transaction ∈ history.database.manager.activeTransactions)
    (undisputed : history.Undisputed base (.update transaction.transactionId index target values)) :
    Agrees (baseValue kind base) history.database.manager.readers
      (history.ledger.write transaction.transactionId (writeSet kind index target values))
      (if (history.database.segments index).skipsUpdate target.vectorIndex values
        (base index target.vectorIndex) then history.recorded
        else history.recorded.write transaction.transactionId (writeSet kind index target values)) := by
  have reader := mem_readers member
  split
  next skips =>
    obtain ⟨blank, sameValue⟩ := skipsUpdate_spec skips
    refine consistent.agrees.skip reader ?_
    intro key value wrote
    obtain ⟨row, _, keyEq, position, assigns⟩ := writeSet_eq_some wrote
    subst key
    refine ⟨?_, consistent.tracks.not_recorded_of_blank blank row⟩
    rw [extract_of_assigned assigns]
    exact sameValue position row
  next taken =>
    refine consistent.agrees.write reader ?_
    intro key written other otherMember different
    obtain ⟨value, wrote⟩ := isSome_iff_exists.mp written
    obtain ⟨row, inside, keyEq, _⟩ := writeSet_eq_some wrote
    obtain ⟨active, activeMember, readerEq⟩ := mem_map.mp otherMember
    subst key other
    rcases undisputed with skips | clear
    · exact absurd skips taken
    · exact clear row inside active activeMember different

theorem step_invariant (tracks : Tracks base history.database history.recorded) (timed : history.Timed action) :
    Tracks base (history.step base action).database (history.step base action).recorded ∧
      (Agrees (baseValue kind base) history.database.manager.readers history.ledger
          history.recorded → history.Undisputed base action →
        Agrees (baseValue kind base) (history.step base action).database.manager.readers
          (history.step base action).ledger (history.step base action).recorded) := by
  cases action with
  | start =>
    rw [step]
    cases started : history.database.startTransaction with
    | error => exact ⟨tracks, fun agrees _ => agrees⟩
    | ok result =>
      refine ⟨tracks.start timed started, fun agrees _ => ?_⟩
      rw [startTransaction_readers started]
      exact agrees.begin _
  | update transactionId index target values =>
    rw [step]
    refine history.database.manager.find_cases transactionId ⟨tracks, fun agrees _ => agrees⟩ ?_
    rintro transaction member rfl
    dsimp only
    cases updated : history.database.update base transaction index target values with
    | error => exact ⟨tracks, fun agrees _ => agrees⟩
    | ok database =>
      dsimp only
      refine ⟨?_, fun agrees undisputed => ?_⟩
      · split
        next skips =>
          rw [update_skipped updated skips]
          exact tracks
        next taken =>
          exact tracks.update member updated (by simpa using taken)
      · rw [update_manager updated]
        exact update_agrees ⟨tracks, agrees⟩ member undisputed
  | commit transactionId failure =>
    rw [step]
    refine history.database.manager.find_cases transactionId ⟨tracks, fun agrees _ => agrees⟩ ?_
    rintro transaction member rfl
    rw [commitTransaction_readers]
    cases failure with
    | none => exact ⟨tracks.commitTransaction member timed, fun agrees _ => agrees.commit _ _⟩
    | some reached =>
      exact ⟨tracks.failedCommit member timed reached, fun agrees _ => agrees.forget _⟩
  | rollback transactionId =>
    rw [step]
    refine history.database.manager.find_cases transactionId ⟨tracks, fun agrees _ => agrees⟩ ?_
    rintro transaction member rfl
    rw [rollbackTransaction_readers]
    exact ⟨tracks.rollbackTransaction member, fun agrees _ => agrees.forget _⟩

theorem step_consistent (consistent : Consistent base history)
    (allowed : Allowed base history action) : Consistent base (history.step base action) :=
  have invariant := step_invariant consistent.tracks allowed.1
  ⟨invariant.1, invariant.2 consistent.agrees allowed.2⟩

theorem run_consistent {starts : ι → Nat} {actions : List (Action D ι)}
    (allowed : Meets (step base) (Allowed base) (History.initial starts : History D kind) actions) :
    Consistent base (run (step base) (History.initial starts : History D kind) actions) := by
  have preserved : ∀ (history : History D kind) action, Consistent base history →
      Allowed base history action → Consistent base (history.step base action) :=
    fun _ _ consistent allowed => step_consistent consistent allowed
  exact run_invariant preserved ⟨.initial starts, .empty _ _⟩ allowed

def actor : Action D ι → Option Nat
  | .start => none
  | .update transactionId _ _ _ => some transactionId
  | .commit transactionId _ => some transactionId
  | .rollback transactionId => some transactionId

theorem read_of_other {history : History D kind} {action : Action D ι}
    (started : transaction.startTime ≤ history.database.manager.currentStartTimestamp)
    (other : actor action ≠ some transaction.transactionId) :
    (history.step base action).ledger.read (baseValue kind base) transaction.reader key =
      history.ledger.read (baseValue kind base) transaction.reader key := by
  have unread : ∀ ledger : Ledger (RowValue D kind),
      ledger.pending transaction.transactionId key = history.ledger.pending transaction.transactionId key →
      ledger.lastCommitted transaction.startTime key = history.ledger.lastCommitted transaction.startTime key →
      ledger.read (baseValue kind base) transaction.reader key =
        history.ledger.read (baseValue kind base) transaction.reader key := by
    intro ledger pending committed
    rw [Ledger.read, Ledger.read, Transaction.reader, pending, committed]
  have forgotten : ∀ transactionId, actor action = some transactionId →
      (history.ledger.forget transactionId).pending transaction.transactionId key =
        history.ledger.pending transaction.transactionId key := by
    intro transactionId acting
    rw [Ledger.Coherent.pending_forget, if_neg fun same => other (acting.trans (congrArg some same.symm))]
  cases action with
  | start =>
    rw [step]
    cases history.database.startTransaction <;> rfl
  | update transactionId index target values =>
    rw [step]
    cases history.database.manager.find transactionId with
    | none => rfl
    | some owner =>
      dsimp only
      cases history.database.update base owner index target values with
      | error => rfl
      | ok database =>
        refine unread _ ?_ rfl
        rw [Ledger.Coherent.pending_write, if_neg fun same => other (congrArg some same.symm)]
  | rollback transactionId =>
    rw [step]
    cases history.database.manager.find transactionId with
    | none => rfl
    | some owner => exact unread _ (forgotten transactionId rfl) rfl
  | commit transactionId failure =>
    rw [step]
    cases history.database.manager.find transactionId with
    | none => rfl
    | some owner =>
      cases failure with
      | some _ => exact unread _ (forgotten transactionId rfl) rfl
      | none =>
        refine unread (history.ledger.commit transactionId _) (forgotten transactionId rfl) ?_
        rw [Ledger.lastCommitted, Ledger.commit, findSome?_cons, if_neg (Nat.not_lt.mpr started)]
        rfl

/-- In every history whose steps are allowed, scans read the snapshot of their transaction,
and no further step of another transaction changes what an active one reads. -/
theorem scan_reads_snapshot (base : ι → Nat → FlatVector D) (starts : ι → Nat)
    (actions : List (Action D ι))
    (allowed : Meets (step base) (Allowed base) (History.initial starts : History D kind) actions) :
    let history := run (step base) (History.initial starts : History D kind) actions
    SnapshotReads base history ∧ ∀ action, Allowed base history action →
        ∀ transaction ∈ history.database.manager.activeTransactions,
          transaction ∈ (history.step base action).database.manager.activeTransactions →
          actor action ≠ some transaction.transactionId → ∀ index vectorIndex row,
            (history.step base action).database.scanVector base transaction index vectorIndex row =
              history.database.scanVector base transaction index vectorIndex row := by
  intro history
  have consistent : Consistent base history := run_consistent allowed
  refine ⟨consistent.snapshotReads, ?_⟩
  intro action actionAllowed transaction member stays other index vectorIndex row
  have later := (step_consistent consistent actionAllowed).snapshotReads
  have started := (consistent.tracks.valid.active transaction member).startBelow
  rw [consistent.snapshotReads transaction member, later transaction stays,
    read_of_other (le_of_lt started) other]

section Examples

def firstRow : VectorRows where
  vectorIndex := 0
  rows := [0]
  inMorsel := by decide
  sorted := by simp
  bounded := by decide
  nonempty := by simp

def allValidBase : Unit → Nat → FlatVector Nat := fun _ _ => { data := fun _ => 0, validity := none }

def firstRowReads (history : History Nat fun _ : Unit => SegmentKind.data) : List Nat :=
  history.database.manager.activeTransactions.map fun transaction =>
    history.database.scanVector allValidBase transaction () 0 0

theorem scan_reads_snapshot_committed :
    let history := run (step allValidBase)
      (History.initial fun _ => 0 : History Nat fun _ : Unit => SegmentKind.data) [
        .start, .start,
        .update transactionIdStart () firstRow { data := fun _ => 7, validity := none },
        .commit transactionIdStart none, .start]
    SnapshotReads allValidBase history ∧ firstRowReads history = [0, 7] := by
  refine ⟨(scan_reads_snapshot allValidBase (fun _ => 0) _ ?_).1, by decide⟩
  refine ⟨⟨?_, trivial⟩, ⟨?_, trivial⟩, ⟨trivial, .inr ?_⟩, ⟨?_, trivial⟩, ⟨?_, trivial⟩, trivial⟩
  · show 0 + 1 < transactionIdStart
    decide
  · show 1 + 1 < transactionIdStart
    decide
  · intro row _ other _ _ wrote
    exact absurd (show false = true from wrote) (by decide)
  · show 2 + 1 < transactionIdStart
    decide
  · show 3 + 1 < transactionIdStart
    decide

/-- Two open transactions: the first sets the row to not NULL, which the validity segment
skips, and the second sets it to NULL. The second commits first. -/
def skippedWrite : History Nat fun _ : Unit => SegmentKind.validity :=
  run (step allValidBase) (History.initial fun _ => 0) [
    .start, .start,
    .update transactionIdStart () firstRow { data := fun _ => 0, validity := none },
    .update (transactionIdStart + 1) () firstRow
      { data := fun _ => 0, validity := some fun _ => false },
    .commit (transactionIdStart + 1) none, .commit transactionIdStart none, .start]

/-- The last committed write says that the row is valid, and a later scan reads NULL. -/
theorem skippedWrite_not_snapshot : ¬SnapshotReads allValidBase skippedWrite := by
  intro reads
  have scanned := reads {
    startTime := 4, transactionId := transactionIdStart + 2, commitId := 0
    highestActiveQuery := 0, activeQuery := maximumQueryId } (by decide) () 0 0
  exact absurd scanned (by decide)

end Examples

end History

end GuinsooDB
