import GuinsooDB.Version.Ledger

/-!
Which ids the rows of a ledger can have: a delete id is that of a commit, or it belongs to an
open transaction that has the row in its undo buffer.
-/

namespace GuinsooDB

open Transition List TransactionManager RowVersions Function

def Hit (entries : List VersionEntry) (row : Nat) : Prop :=
  ∃ rows, .delete (row / standardVectorSize) rows ∈ entries ∧ row % standardVectorSize ∈ rows

theorem not_hit_nil (row : Nat) : ¬Hit [] row := by
  rintro ⟨rows, member, _⟩
  cases member

variable {row : Nat}

theorem hit_append {first second : List VersionEntry} : Hit (first ++ second) row ↔ Hit first row ∨ Hit second row := by
  constructor
  · rintro ⟨rows, member, inside⟩
    rcases mem_append.mp member with left | right
    · exact .inl ⟨rows, left, inside⟩
    · exact .inr ⟨rows, right, inside⟩
  · rintro (⟨rows, member, inside⟩ | ⟨rows, member, inside⟩)
    · exact ⟨rows, mem_append_left _ member, inside⟩
    · exact ⟨rows, mem_append_right _ member, inside⟩

variable {entries : List VersionEntry}

theorem hit_reverse : Hit entries.reverse row ↔ Hit entries row := by
  simp [Hit]

variable {list : List VersionEntry}

theorem Mine.of_subset (subset : ∀ entry ∈ list, entry ∈ entries) (mine : Mine list row) : Mine entries row := by
  obtain ⟨start, count, member, bounds⟩ := mine
  exact ⟨start, count, subset _ member, bounds⟩

theorem Hit.of_subset (subset : ∀ entry ∈ list, entry ∈ entries) (hit : Hit list row) : Hit entries row := by
  obtain ⟨rows, member, inside⟩ := hit
  exact ⟨rows, subset _ member, inside⟩

variable {rest : List VersionEntry}

theorem hit_cons_append {start count : Nat} : Hit (.append start count :: rest) row ↔ Hit rest row := by
  simp [Hit]

theorem hit_cons_delete {vector : Nat} {rows : List Nat} : Hit (.delete vector rows :: rest) row ↔
      (row / standardVectorSize = vector ∧ row % standardVectorSize ∈ rows) ∨ Hit rest row := by
  constructor
  · rintro ⟨list, member, inside⟩
    rcases mem_cons.mp member with same | later
    · cases same
      exact .inl ⟨rfl, inside⟩
    · exact .inr ⟨list, later, inside⟩
  · rintro (⟨rfl, inside⟩ | ⟨list, later, inside⟩)
    · exact ⟨rows, mem_cons_self, inside⟩
    · exact ⟨list, mem_cons_of_mem _ later, inside⟩

/-! What a list of entries does to a row -/

namespace RowVersions

theorem delete_deleted (recorded : RowVersions) (vector : Nat) (rows : List Nat) (id row : Nat) :
    (recorded.delete vector rows id row).deleted =
      if row / standardVectorSize = vector ∧ row % standardVectorSize ∈ rows then id
      else (recorded row).deleted := by
  unfold delete
  split <;> rfl

theorem foldl_deleted {record : RowVersions → VersionEntry → RowVersions} {id : Nat}
    (appends : ∀ recorded start count row, (record recorded (.append start count) row).deleted = (recorded row).deleted)
    (deletes : ∀ recorded vector rows,
      record recorded (.delete vector rows) = RowVersions.delete recorded vector rows id)
    (list : List VersionEntry) (recorded : RowVersions) (row : Nat) :
    (Hit list row → (list.foldl record recorded row).deleted = id) ∧
      (¬Hit list row → (list.foldl record recorded row).deleted = (recorded row).deleted) := by
  induction list generalizing recorded with
  | nil => exact ⟨fun hit => absurd hit (not_hit_nil row), fun _ => rfl⟩
  | cons entry rest ih =>
    obtain ⟨later, outside⟩ := ih (record recorded entry)
    cases entry with
    | append start count =>
      rw [hit_cons_append]
      exact ⟨later, fun missed => (outside missed).trans (appends recorded start count row)⟩
    | delete vector rows =>
      rw [hit_cons_delete]
      have here := delete_deleted recorded vector rows id row
      rw [← deletes recorded vector rows] at here
      refine ⟨?_, ?_⟩
      · rintro (now | next)
        · by_cases again : Hit rest row
          · exact later again
          · exact (outside again).trans (here.trans (if_pos now))
        · exact later next
      · intro missed
        exact (outside fun next => missed (.inr next)).trans (here.trans (if_neg fun now => missed (.inl now)))

theorem foldl_commitEntry_deleted (list : List VersionEntry) (commitId : Nat) (recorded : RowVersions) (row : Nat) :
    (Hit list row → (list.foldl (commitEntry commitId) recorded row).deleted = commitId) ∧ (¬Hit list row →
        (list.foldl (commitEntry commitId) recorded row).deleted = (recorded row).deleted) :=
  foldl_deleted (fun _ _ _ _ => Departing.commitInsert_deleted ..) (fun _ _ _ => rfl) list recorded row

theorem foldl_revertEntry_deleted (list : List VersionEntry) (deleteId : Nat) (recorded : RowVersions) (row : Nat) :
    (Hit list row → (list.foldl (revertEntry deleteId) recorded row).deleted = deleteId) ∧ (¬Hit list row →
        (list.foldl (revertEntry deleteId) recorded row).deleted = (recorded row).deleted) :=
  foldl_deleted (fun _ _ _ _ => rfl) (fun _ _ _ => rfl) list recorded row

theorem foldl_revertEntry_inserted (list : List VersionEntry) (deleteId : Nat) (recorded : RowVersions) (row : Nat) :
    (list.foldl (revertEntry deleteId) recorded row).inserted = (recorded row).inserted := by
  induction list generalizing recorded with
  | nil => rfl
  | cons entry rest ih =>
    rw [foldl_cons, ih]
    cases entry with
    | append start count => rfl
    | delete vector rows => exact Departing.delete_inserted ..

theorem markGroups_eq (id : Nat) (recorded : RowVersions) (groups : List (Nat × List Nat)) :
    recorded.markGroups id groups = (groups.map fun group => VersionEntry.delete group.1 group.2).foldl (revertEntry id)
        recorded := by
  rw [foldl_map]
  rfl

theorem deletable_of_hit {id row : Nat} {groups : List (Nat × List Nat)} {recorded : RowVersions}
    (hit : Hit ((recorded.deleteGroups id groups).map fun group => .delete group.1 group.2) row) :
    (recorded row).deletable = true := by
  induction groups generalizing recorded with
  | nil => exact absurd hit (not_hit_nil row)
  | cons group rest ih =>
    rw [deleteGroups] at hit
    split at hit
    next deletable =>
      rw [map_cons, hit_cons_delete] at hit
      by_cases now : row / standardVectorSize = group.1 ∧ row % standardVectorSize ∈ group.2
      · have can := deletable _ now.2
        rw [rowsOf, ← now.1, Nat.div_add_mod'] at can
        exact can
      · have can := ih (hit.resolve_left now)
        rwa [RowVersions.delete, if_neg now] at can
    · exact absurd hit (not_hit_nil row)

end RowVersions

theorem RowVersion.eq_of_fields {first second : RowVersion}
    (inserted : first.inserted = second.inserted) (deleted : first.deleted = second.deleted) :
    first = second := by
  cases first
  simp_all

structure Accountable (ledger : VersionLedger) : Prop where
  marks : ∀ transaction ∈ ledger.manager.activeTransactions, ∀ row,
    Hit (ledger.undo transaction.transactionId) row →
      (ledger.recorded row).deleted = transaction.transactionId
  deleted : ∀ row < ledger.totalRows, (ledger.recorded row).deleted = notDeletedId ∨
    (ledger.recorded row).deleted < ledger.manager.currentStartTimestamp ∨
    ∃ transaction ∈ ledger.manager.activeTransactions,
      Hit (ledger.undo transaction.transactionId) row
  inserted : ∀ row < ledger.totalRows,
    (ledger.recorded row).inserted < max 1 ledger.manager.currentStartTimestamp ∨
      transactionIdStart ≤ (ledger.recorded row).inserted

namespace Accountable

variable {whole : Nat → Prop} {ledger : VersionLedger} {state : VersionState}
  {transaction : Transaction} {row : Nat}

theorem hit_lt (invariant : VersionInvariant whole state) (member : transaction ∈ state.manager.activeTransactions)
    (hit : Hit (state.undo transaction.transactionId) row) : row < state.table.totalRows := by
  obtain ⟨rows, deleted, inside⟩ := hit
  have marked := ((invariant.held transaction member).deletes _ rows deleted).1
  have bound := VersionedTable.lt_totalRows (marked.inside _ inside)
  rwa [Nat.div_add_mod'] at bound

theorem congr_recorded (accountable : Accountable ledger)
    (inRange : ∀ transaction ∈ ledger.manager.activeTransactions, ∀ row,
      Hit (ledger.undo transaction.transactionId) row → row < ledger.totalRows)
    {recorded : RowVersions} (same : ∀ row < ledger.totalRows, recorded row = ledger.recorded row) :
    Accountable { ledger with recorded } where
  marks := by
    intro other active row hit
    change (recorded row).deleted = _
    rw [same row (inRange other active row hit)]
    exact accountable.marks other active row hit
  deleted := by
    intro row inside
    change (recorded row).deleted = _ ∨ (recorded row).deleted < _ ∨ _
    rw [same row inside]
    exact accountable.deleted row inside
  inserted := by
    intro row inside
    change (recorded row).inserted < _ ∨ _ ≤ (recorded row).inserted
    rw [same row inside]
    exact accountable.inserted row inside

theorem start (accountable : Accountable ledger)
    (unused : ∀ id, ledger.manager.currentTransactionId ≤ id → ledger.undo id = [])
    {manager : TransactionManager}
    (started : ledger.manager.startTransaction = .ok (manager, transaction)) :
    Accountable { ledger with manager } := by
  obtain ⟨_, _, idEq, nextStart, _, nextActive, _, _⟩ := startTransaction_eq started
  constructor
  · intro other active row hit
    rw [nextActive, mem_append, mem_singleton] at active
    rcases active with old | new
    · exact accountable.marks other old row hit
    · subst other
      have none := unused transaction.transactionId (by omega)
      rw [none] at hit
      exact absurd hit (not_hit_nil row)
  · intro row inside
    change _ ∨ (ledger.recorded row).deleted < manager.currentStartTimestamp ∨ ∃ other ∈ manager.activeTransactions, _
    rw [nextStart, nextActive]
    rcases accountable.deleted row inside with kept | committed | ⟨other, active, hit⟩
    · exact .inl kept
    · exact .inr (.inl (by omega))
    · exact .inr (.inr ⟨other, mem_append_left _ active, hit⟩)
  · intro row inside
    change (ledger.recorded row).inserted < max 1 manager.currentStartTimestamp ∨ _
    rcases accountable.inserted row inside with committed | pending
    · exact .inl (by omega)
    · exact .inr pending

theorem leave (accountable : Accountable ledger) (valid : ledger.manager.Valid)
    (member : transaction ∈ ledger.manager.activeTransactions) {next : VersionLedger}
    (active : next.manager.activeTransactions = ledger.manager.others transaction)
    (later : ledger.manager.currentStartTimestamp ≤ next.manager.currentStartTimestamp)
    (undo : next.undo = ledger.undo) (total : next.totalRows ≤ ledger.totalRows)
    (foreign : ∀ row, ¬Hit (ledger.undo transaction.transactionId) row →
      (next.recorded row).deleted = (ledger.recorded row).deleted)
    (own : ∀ row, Hit (ledger.undo transaction.transactionId) row → (next.recorded row).deleted = notDeletedId ∨
        (next.recorded row).deleted < next.manager.currentStartTimestamp)
    (inserted : ∀ row, (next.recorded row).inserted = (ledger.recorded row).inserted ∨
      (next.recorded row).inserted < next.manager.currentStartTimestamp) :
    Accountable next where
  marks := by
    intro other stays row hit
    rw [active] at stays
    obtain ⟨otherActive, apart⟩ := mem_others.mp stays
    rw [undo] at hit
    have mark := accountable.marks other otherActive row hit
    rw [foreign row, mark]
    intro ownHit
    exact apart (mark.symm.trans (accountable.marks transaction member row ownHit))
  deleted := by
    intro row inside
    by_cases hit : Hit (ledger.undo transaction.transactionId) row
    · rcases own row hit with kept | committed
      · exact .inl kept
      · exact .inr (.inl committed)
    rw [foreign row hit, active, undo]
    rcases accountable.deleted row (by omega) with kept | committed | ⟨other, otherActive, marked⟩
    · exact .inl kept
    · exact .inr (.inl (by omega))
    · refine .inr (.inr ⟨other, mem_others.mpr ⟨otherActive, ?_⟩, marked⟩)
      intro same
      rw [valid.eq_of_active otherActive member same] at marked
      exact hit marked
  inserted := by
    intro row inside
    rcases inserted row with same | committed
    · rw [same]
      rcases accountable.inserted row (by omega) with committed | pending
      · exact .inl (by omega)
      · exact .inr pending
    · exact .inl (lt_of_lt_of_le committed (le_max_right _ _))

theorem foldl_revertTotal_le (entries : List VersionEntry) (totalRows : Nat) :
    entries.foldl VersionEntry.revertTotal totalRows ≤ totalRows := by
  induction entries generalizing totalRows with
  | nil => exact le_refl _
  | cons entry rest ih =>
    refine le_trans (ih _) ?_
    cases entry with
    | append start count =>
      simp only [VersionEntry.revertTotal]
      split_ifs <;> omega
    | delete _ _ => exact le_refl _

theorem rollback (accountable : Accountable ledger) (valid : ledger.manager.Valid)
    (member : transaction ∈ ledger.manager.activeTransactions) :
    Accountable (ledger.rollback transaction) := by
  obtain ⟨sameStart, _⟩ := ledger.manager.removeTransaction_timestamps transaction
  have marks (row : Nat) := foldl_revertEntry_deleted
    (ledger.undo transaction.transactionId).reverse notDeletedId ledger.recorded row
  refine accountable.leave valid member (ledger.manager.removeTransaction_active transaction)
    (le_of_eq sameStart.symm) rfl (foldl_revertTotal_le _ _) ?_ ?_ ?_
  · intro row missed
    exact (marks row).2 fun hit => missed (hit_reverse.mp hit)
  · intro row hit
    exact .inl ((marks row).1 (hit_reverse.mpr hit))
  · exact fun row => .inl (foldl_revertEntry_inserted ..)

theorem commit (accountable : Accountable ledger) (valid : ledger.manager.Valid)
    (member : transaction ∈ ledger.manager.activeTransactions) (failure : Option (Nat × Nat)) :
    Accountable (ledger.commit transaction failure) := by
  have now (leaving : Transaction) : (ledger.manager.drawCommitId.1.removeTransaction leaving).1.currentStartTimestamp =
        ledger.manager.currentStartTimestamp + 1 :=
    (ledger.manager.drawCommitId.1.removeTransaction_timestamps leaving).1
  have fresh (leaving : Transaction) : ledger.manager.currentStartTimestamp <
      (ledger.manager.drawCommitId.1.removeTransaction leaving).1.currentStartTimestamp := by
    rw [now]
    exact Nat.lt_succ_self _
  have rows (list : List VersionEntry) (row : Nat) := Departing.foldl_commitEntry_inserted
    list ledger.manager.currentStartTimestamp row ledger.recorded
  have marks (list : List VersionEntry) (row : Nat) := foldl_commitEntry_deleted
    list ledger.manager.currentStartTimestamp ledger.recorded row
  cases failure with
  | none =>
    refine accountable.leave valid member
      (ledger.manager.drawCommitId.1.removeTransaction_active _) (le_of_lt (fresh _)) rfl
      (le_refl _) (fun row missed => (marks _ row).2 missed) ?_ ?_
    · intro row hit
      exact .inr (lt_of_eq_of_lt ((marks _ row).1 hit) (fresh _))
    · intro row
      by_cases mine : Mine (ledger.undo transaction.transactionId) row
      · exact .inr (lt_of_eq_of_lt ((rows _ row).1 mine) (fresh _))
      · exact .inl ((rows _ row).2 mine)
  | some outcome =>
    obtain ⟨committed, reverted⟩ := outcome
    generalize entriesEq : ledger.undo transaction.transactionId = entries
    have unmarks (deleteId : Nat) (list : List VersionEntry) (recorded : RowVersions)
        (row : Nat) := foldl_revertEntry_deleted list deleteId recorded row
    have recordedEq : (ledger.commit transaction (some (committed, reverted))).recorded =
        entries.reverse.foldl (revertEntry notDeletedId)
          ((entries.take reverted).foldl (revertEntry transaction.transactionId)
            ((entries.take committed).foldl (commitEntry ledger.manager.currentStartTimestamp) ledger.recorded)) := by
      rw [← entriesEq]
      rfl
    refine accountable.leave valid member
      (ledger.manager.drawCommitId.1.removeTransaction_active _) (le_of_lt (fresh _)) rfl
      (le_trans (foldl_revertTotal_le _ _) (foldl_revertTotal_le _ _)) ?_ ?_ ?_
    · intro row missed
      rw [entriesEq] at missed
      rw [recordedEq, (unmarks _ _ _ row).2 fun hit => missed (hit_reverse.mp hit),
        (unmarks _ _ _ row).2 fun hit => missed (Hit.of_subset (fun _ => mem_of_mem_take) hit),
        (marks _ row).2 fun hit => missed (Hit.of_subset (fun _ => mem_of_mem_take) hit)]
    · intro row hit
      rw [entriesEq] at hit
      rw [recordedEq]
      exact .inl ((unmarks _ _ _ row).1 (hit_reverse.mpr hit))
    · intro row
      rw [recordedEq, foldl_revertEntry_inserted, foldl_revertEntry_inserted]
      by_cases mine : Mine (entries.take committed) row
      · exact .inr (lt_of_eq_of_lt ((rows _ row).1 mine) (fresh _))
      · exact .inl ((rows _ row).2 mine)

theorem hit_push {undo : Nat → List VersionEntry} {id other : Nat} {entries : List VersionEntry} :
    Hit (update undo id (undo id ++ entries) other) row ↔ Hit (undo other) row ∨ other = id ∧ Hit entries row := by
  by_cases same : other = id
  · subst other
    rw [update_self, hit_append]
    simp
  · rw [update_of_ne same]
    simp [same]

section

variable (accountable : Accountable state.ledger) (invariant : VersionInvariant whole state)
include accountable invariant

theorem append (member : transaction ∈ state.manager.activeTransactions) (count : Nat) (constraintViolated : Bool) :
    Accountable (state.ledger.append transaction.transactionId count constraintViolated) := by
  have above := (invariant.valid.active transaction member).idAbove
  unfold VersionLedger.append
  split
  · exact accountable
  have old (row : Nat) (inside : row < state.ledger.totalRows) :
      state.ledger.recorded.insert state.ledger.totalRows count transaction.transactionId row =
        state.ledger.recorded row := if_neg (by omega)
  have inserted := accountable.congr_recorded (fun other active row => hit_lt invariant active) old
  cases constraintViolated with
  | true => exact inserted
  | false =>
    have pushed (other row : Nat) : Hit (update state.undo transaction.transactionId
            (state.undo transaction.transactionId ++ [.append state.ledger.totalRows count])
            other) row ↔ Hit (state.undo other) row := by
      rw [hit_push, hit_cons_append]
      simp [not_hit_nil]
    refine ⟨?_, ?_, ?_⟩
    · intro other active row hit
      exact inserted.marks other active row ((pushed _ _).mp hit)
    · intro row inside
      by_cases before : row < state.ledger.totalRows
      · rcases inserted.deleted row before with kept | committed | ⟨other, active, hit⟩
        · exact .inl kept
        · exact .inr (.inl committed)
        · exact .inr (.inr ⟨other, active, (pushed _ _).mpr hit⟩)
      · change row < state.ledger.totalRows + count at inside
        left
        change (state.ledger.recorded.insert _ _ _ row).deleted = _
        rw [RowVersions.insert, if_pos (by omega)]
    · intro row inside
      by_cases before : row < state.ledger.totalRows
      · exact inserted.inserted row before
      change row < state.ledger.totalRows + count at inside
      right
      change _ ≤ (state.ledger.recorded.insert _ _ _ row).inserted
      rw [RowVersions.insert, if_pos (by omega)]
      exact above

theorem delete (member : transaction ∈ state.manager.activeTransactions) (segment : Nat) (rowIds : List Nat) :
    Accountable (state.ledger.delete transaction.transactionId segment rowIds) := by
  unfold VersionLedger.delete
  dsimp only
  generalize groupsEq : state.ledger.recorded.deleteGroups transaction.transactionId
    (inTable segment (groupsOf rowIds)) = groups
  generalize entriesEq : (groups.map fun group => VersionEntry.delete group.1 group.2) = entries
  rw [markGroups_eq, entriesEq]
  have marked (row : Nat) := foldl_revertEntry_deleted entries transaction.transactionId state.ledger.recorded row
  have kept (row : Nat) := foldl_revertEntry_inserted entries transaction.transactionId state.ledger.recorded row
  refine ⟨?_, ?_, ?_⟩
  · intro other active row hit
    rcases hit_push.mp hit with before | ⟨same, now⟩
    · have mark := accountable.marks other active row before
      by_cases now : Hit entries row
      · -- a row that someone has marked cannot be marked again
        rw [← entriesEq, ← groupsEq] at now
        have free := (RowVersion.deletable_iff.mp (deletable_of_hit now)).1
        have below := (invariant.valid.active other active).idBelow
        have bounded := invariant.bounded
        have room := invariant.room
        simp only [TransactionManager.Room, transactionIdStart] at room bounded
        rw [mark, notDeletedId] at free
        omega
      · rw [(marked row).2 now, mark]
    · rw [(marked row).1 now, same]
  · intro row inside
    by_cases now : Hit entries row
    · exact .inr (.inr ⟨transaction, member, hit_push.mpr (.inr ⟨rfl, now⟩)⟩)
    rw [(marked row).2 now]
    rcases accountable.deleted row inside with kept | committed | ⟨other, active, hit⟩
    · exact .inl kept
    · exact .inr (.inl committed)
    · exact .inr (.inr ⟨other, active, hit_push.mpr (.inl hit)⟩)
  · intro row inside
    rw [kept]
    exact accountable.inserted row inside

theorem step (action : VersionAction) : Accountable (state.ledger.step action) := by
  cases action with
  | start =>
    simp only [VersionLedger.step]
    split
    next manager transaction started =>
      exact accountable.start invariant.unused started
    · exact accountable
  | append transactionId count constraintViolated =>
    simp only [VersionLedger.step]
    exact state.ledger.manager.find_cases transactionId accountable fun _ member _ =>
      accountable.append invariant member count constraintViolated
  | delete transactionId segment rowIds =>
    simp only [VersionLedger.step]
    exact state.ledger.manager.find_cases transactionId accountable fun _ member _ =>
      accountable.delete invariant member segment rowIds
  | commit transactionId failure =>
    simp only [VersionLedger.step]
    exact state.ledger.manager.find_cases transactionId accountable fun _ member _ =>
      accountable.commit invariant.valid member failure
  | rollback transactionId =>
    simp only [VersionLedger.step]
    exact state.ledger.manager.find_cases transactionId accountable fun _ member _ =>
      accountable.rollback invariant.valid member

end

theorem loaded (totalRows : Nat) : Accountable (VersionState.initial (.loaded totalRows) .loaded).ledger where
  marks := by simp [VersionState.initial, VersionState.ledger, initial]
  deleted := fun _ _ => .inl rfl
  inserted := fun _ _ => .inl Nat.one_pos

end Accountable

end GuinsooDB
