import Mathlib.Data.List.TakeWhile
import GuinsooDB.Library.SnapshotLedger

/-!
Transaction identifiers and the bookkeeping of `TransactionManager`: starting a
transaction, handing out commit ids, and `RemoveTransaction` with the garbage
collection it triggers.
-/

namespace GuinsooDB

open SnapshotLedger List

def transactionIdStart : Nat := 4611686018427388000
def notDeletedId : Nat := 18446744073709551614
def maximumQueryId : Nat := 18446744073709551615

def standardVectorSize : Nat := 1024
def morselVectorCount : Nat := 100
def morselSize : Nat := standardVectorSize * morselVectorCount

def maxRowId : Nat := 4611686018427388000

theorem morselSize_pos : 0 < morselSize := by decide

structure Transaction where
  startTime : Nat
  transactionId : Nat
  commitId : Nat
  highestActiveQuery : Nat
  activeQuery : Nat
  deriving Repr, DecidableEq

def Transaction.reader (transaction : Transaction) : Reader :=
  { startTime := transaction.startTime, transaction := transaction.transactionId }

structure TransactionManager where
  currentQueryNumber : Nat
  currentStartTimestamp : Nat
  currentTransactionId : Nat
  activeTransactions : List Transaction
  recentlyCommittedTransactions : List Transaction
  oldTransactions : List Transaction
  deriving Repr, DecidableEq

namespace TransactionManager

def initial : TransactionManager := {
  currentQueryNumber := 1
  currentStartTimestamp := 0
  currentTransactionId := transactionIdStart
  activeTransactions := []
  recentlyCommittedTransactions := []
  oldTransactions := []
}

def startTransaction (manager : TransactionManager) :
    Except String (TransactionManager × Transaction) :=
  if manager.currentStartTimestamp ≥ transactionIdStart then
    .error "Cannot start more transactions, ran out of transaction identifiers!"
  else
    let transaction : Transaction := {
      startTime := manager.currentStartTimestamp
      transactionId := manager.currentTransactionId
      commitId := 0
      highestActiveQuery := 0
      activeQuery := maximumQueryId
    }
    .ok ({ manager with
      currentStartTimestamp := manager.currentStartTimestamp + 1
      currentTransactionId := manager.currentTransactionId + 1
      activeTransactions := manager.activeTransactions ++ [transaction] }, transaction)

def find (manager : TransactionManager) (transactionId : Nat) : Option Transaction :=
  manager.activeTransactions.find? fun transaction => transaction.transactionId = transactionId

def drawCommitId (manager : TransactionManager) : TransactionManager × Nat :=
  ({ manager with currentStartTimestamp := manager.currentStartTimestamp + 1 },
    manager.currentStartTimestamp)

def others (manager : TransactionManager) (transaction : Transaction) : List Transaction :=
  manager.activeTransactions.filter fun other => other.transactionId ≠ transaction.transactionId

def lowestStartTime (transactions : List Transaction) : Nat :=
  transactions.foldl (fun lowest transaction => min lowest transaction.startTime) transactionIdStart

def lowestActiveQuery (transactions : List Transaction) : Nat :=
  transactions.foldl (fun lowest transaction => min lowest transaction.activeQuery) maximumQueryId

/-- The first half of `RemoveTransaction`: move the transaction out of the active list. -/
def retire (manager : TransactionManager) (transaction : Transaction) : TransactionManager :=
  if transaction.commitId ≠ 0 then
    { manager with
      activeTransactions := manager.others transaction
      recentlyCommittedTransactions := manager.recentlyCommittedTransactions ++ [transaction] }
  else
    { manager with
      activeTransactions := manager.others transaction
      oldTransactions := manager.oldTransactions ++
        [{ transaction with highestActiveQuery := manager.currentQueryNumber }] }

/-- The committed transactions that no active transaction can still look behind. They form
a front part of the list, which is ordered by commit id. -/
def cleaned (manager : TransactionManager) : List Transaction :=
  manager.recentlyCommittedTransactions.takeWhile fun old =>
    decide (old.commitId < lowestStartTime manager.activeTransactions)

/-- The second half of `RemoveTransaction`: forget the cleaned transactions and free the
memory of the old ones that no running query can still use. -/
def collect (manager : TransactionManager) : TransactionManager :=
  let awaiting := manager.oldTransactions ++ manager.cleaned.map fun old =>
    { old with highestActiveQuery := manager.currentQueryNumber }
  { manager with
    recentlyCommittedTransactions := manager.recentlyCommittedTransactions.dropWhile fun old =>
      decide (old.commitId < lowestStartTime manager.activeTransactions)
    oldTransactions := if manager.activeTransactions.isEmpty then []
      else awaiting.dropWhile fun old =>
        decide (old.highestActiveQuery < lowestActiveQuery manager.activeTransactions) }

def removeTransaction (manager : TransactionManager) (transaction : Transaction) :
    TransactionManager × List Transaction :=
  let retired := manager.retire transaction
  (retired.collect, retired.cleaned)

structure Identified (manager : TransactionManager) (transaction : Transaction) : Prop where
  startBelow : transaction.startTime < manager.currentStartTimestamp
  startBounded : transaction.startTime < transactionIdStart
  idAbove : transactionIdStart ≤ transaction.transactionId
  idBelow : transaction.transactionId < manager.currentTransactionId
  uncommitted : transaction.commitId = 0

structure Valid (manager : TransactionManager) : Prop where
  active : ∀ transaction ∈ manager.activeTransactions, manager.Identified transaction
  recentBelow : ∀ transaction ∈ manager.recentlyCommittedTransactions,
    transaction.commitId < manager.currentStartTimestamp
  recentIdBelow : ∀ transaction ∈ manager.recentlyCommittedTransactions,
    transaction.transactionId < manager.currentTransactionId
  idStart : transactionIdStart ≤ manager.currentTransactionId
  distinct : ((manager.activeTransactions ++ manager.recentlyCommittedTransactions).map
    Transaction.transactionId).Nodup

def Room (manager : TransactionManager) : Prop :=
  manager.currentStartTimestamp < transactionIdStart

theorem initial_valid : initial.Valid := by
  constructor <;> simp [initial]

variable {manager : TransactionManager} {transaction : Transaction}

theorem find_eq_some {transactionId : Nat} (found : manager.find transactionId = some transaction) :
    transaction ∈ manager.activeTransactions ∧ transaction.transactionId = transactionId := by
  have matched := find?_some found
  exact ⟨mem_of_find?_eq_some found, by simpa using matched⟩

theorem mem_others {other : Transaction} : other ∈ manager.others transaction ↔
      other ∈ manager.activeTransactions ∧ other.transactionId ≠ transaction.transactionId := by
  simp [others, mem_filter]

theorem lowestStartTime_le {transactions : List Transaction} :
    ∀ transaction ∈ transactions, lowestStartTime transactions ≤ transaction.startTime := by
  have bounded (lowest : Nat) : ∀ transactions : List Transaction,
      transactions.foldl (fun lowest transaction => min lowest transaction.startTime) lowest ≤ lowest ∧
      ∀ transaction ∈ transactions,
        transactions.foldl (fun lowest transaction => min lowest transaction.startTime) lowest ≤
          transaction.startTime := by
    intro transactions
    induction transactions generalizing lowest with
    | nil => simp
    | cons first rest ih =>
      obtain ⟨accumulated, each⟩ := ih (min lowest first.startTime)
      simp only [foldl_cons]
      refine ⟨by omega, ?_⟩
      intro transaction member
      rcases mem_cons.mp member with same | later
      · subst transaction
        omega
      · exact each transaction later
  exact (bounded transactionIdStart transactions).2

theorem cleaned_spec {old : Transaction} (member : old ∈ manager.cleaned) :
    old ∈ manager.recentlyCommittedTransactions ∧
      ∀ other ∈ manager.activeTransactions, old.commitId < other.startTime := by
  refine ⟨takeWhile_subset _ member, ?_⟩
  intro other otherMember
  have small : old.commitId < lowestStartTime manager.activeTransactions := by
    simpa using mem_takeWhile_imp member
  exact lt_of_lt_of_le small (lowestStartTime_le other otherMember)

theorem recent_split (manager : TransactionManager) :
    manager.cleaned ++ manager.collect.recentlyCommittedTransactions = manager.recentlyCommittedTransactions :=
  takeWhile_append_dropWhile

section Valid

variable {manager next : TransactionManager} {transaction other : Transaction}

section

variable (valid : manager.Valid)
include valid

theorem Valid.activeDistinct : (manager.activeTransactions.map Transaction.transactionId).Nodup := by
  have distinct := valid.distinct
  rw [map_append] at distinct
  exact (nodup_append.mp distinct).1

theorem Valid.eq_of_active (member : transaction ∈ manager.activeTransactions)
    (otherMember : other ∈ manager.activeTransactions)
    (same : transaction.transactionId = other.transactionId) : transaction = other :=
  inj_on_of_nodup_map valid.activeDistinct member otherMember same

theorem Valid.eq_of_recent (member : transaction ∈ manager.recentlyCommittedTransactions)
    (otherMember : other ∈ manager.recentlyCommittedTransactions)
    (same : transaction.transactionId = other.transactionId) : transaction = other :=
  inj_on_of_nodup_map valid.distinct (mem_append_right _ member) (mem_append_right _ otherMember) same

theorem Valid.recent_ne_active (member : transaction ∈ manager.recentlyCommittedTransactions)
    (otherMember : other ∈ manager.activeTransactions) :
    transaction.transactionId ≠ other.transactionId := by
  have distinct := valid.distinct
  rw [map_append] at distinct
  exact fun same => (nodup_append.mp distinct).2.2 _ (mem_map_of_mem otherMember) _ (mem_map_of_mem member) same.symm

theorem Valid.find_of_mem (member : transaction ∈ manager.activeTransactions) :
    manager.find transaction.transactionId = some transaction := by
  cases found : manager.find transaction.transactionId with
  | none =>
    have absent := find?_eq_none.mp found transaction member
    simp at absent
  | some other =>
    obtain ⟨otherMember, same⟩ := find_eq_some found
    rw [valid.eq_of_active otherMember member same]

end

/-- A request of an unknown transaction, or one of an open transaction. -/
@[elab_as_elim]
theorem find_cases {motive : Option Transaction → Prop} (manager : TransactionManager)
    (id : Nat) (unknown : motive none)
    (known : ∀ transaction ∈ manager.activeTransactions, transaction.transactionId = id →
      motive (some transaction)) : motive (manager.find id) := by
  cases found : manager.find id with
  | none => exact unknown
  | some transaction =>
    obtain ⟨member, same⟩ := find_eq_some found
    exact known transaction member same

theorem startTransaction_eq (started : manager.startTransaction = .ok (next, transaction)) :
    manager.currentStartTimestamp < transactionIdStart ∧ transaction.startTime = manager.currentStartTimestamp ∧
      transaction.transactionId = manager.currentTransactionId ∧
      next.currentStartTimestamp = manager.currentStartTimestamp + 1 ∧
      next.currentTransactionId = manager.currentTransactionId + 1 ∧
      next.activeTransactions = manager.activeTransactions ++ [transaction] ∧
      transaction.commitId = 0 ∧
      next.recentlyCommittedTransactions = manager.recentlyCommittedTransactions := by
  simp only [startTransaction] at started
  split at started
  · simp at started
  rename_i room
  simp only [Except.ok.injEq, Prod.mk.injEq] at started
  obtain ⟨nextEq, transactionEq⟩ := started
  subst next transaction
  exact ⟨by omega, rfl, rfl, rfl, rfl, rfl, rfl, rfl⟩

theorem startTransaction_valid (valid : manager.Valid)
    (started : manager.startTransaction = .ok (next, transaction)) : next.Valid := by
  obtain ⟨room, startEq, idEq, nextStart, nextId, nextActive, uncommitted, nextRecent⟩ := startTransaction_eq started
  have idStart := valid.idStart
  constructor
  · intro other member
    rw [nextActive, mem_append, mem_singleton] at member
    rcases member with old | same
    · obtain ⟨startBelow, startBounded, idAbove, idBelow, fresh⟩ := valid.active other old
      constructor <;> omega
    · subst other
      constructor <;> omega
  · intro other member
    rw [nextRecent] at member
    have := valid.recentBelow other member
    omega
  · intro other member
    rw [nextRecent] at member
    have := valid.recentIdBelow other member
    omega
  · omega
  · have moved : (next.activeTransactions ++ next.recentlyCommittedTransactions).Perm
        (transaction :: (manager.activeTransactions ++ manager.recentlyCommittedTransactions)) := by
      rw [nextActive, nextRecent, append_assoc]
      exact perm_middle
    refine ((moved.map _).nodup_iff).mpr (nodup_cons.mpr ⟨?_, valid.distinct⟩)
    intro taken
    obtain ⟨other, member, same⟩ := mem_map.mp taken
    rcases mem_append.mp member with inActive | inRecent
    · have := (valid.active other inActive).idBelow
      omega
    · have := valid.recentIdBelow other inRecent
      omega

theorem drawCommitId_valid (valid : manager.Valid) : manager.drawCommitId.1.Valid := by
  constructor
  · intro transaction member
    obtain ⟨startBelow, startBounded, idAbove, idBelow, fresh⟩ := valid.active transaction member
    exact ⟨Nat.lt_succ_of_lt startBelow, startBounded, idAbove, idBelow, fresh⟩
  · exact fun transaction member => Nat.lt_succ_of_lt (valid.recentBelow transaction member)
  · exact valid.recentIdBelow
  · exact valid.idStart
  · exact valid.distinct

theorem retire_active (manager : TransactionManager) (transaction : Transaction) :
    (manager.retire transaction).activeTransactions = manager.others transaction := by
  rw [retire]
  split <;> rfl

theorem retire_timestamps (manager : TransactionManager) (transaction : Transaction) :
    (manager.retire transaction).currentStartTimestamp = manager.currentStartTimestamp ∧
      (manager.retire transaction).currentTransactionId = manager.currentTransactionId := by
  rw [retire]
  split <;> exact ⟨rfl, rfl⟩

theorem retire_recent (manager : TransactionManager) (transaction : Transaction) :
    (manager.retire transaction).recentlyCommittedTransactions = manager.recentlyCommittedTransactions ++
        if transaction.commitId ≠ 0 then [transaction] else [] := by
  rw [retire]
  split <;> simp_all

theorem retire_valid (valid : manager.Valid) (member : other ∈ manager.activeTransactions)
    (same : transaction.transactionId = other.transactionId)
    (commitBelow : transaction.commitId < manager.currentStartTimestamp) :
    (manager.retire transaction).Valid := by
  obtain ⟨sameStart, sameId⟩ := manager.retire_timestamps transaction
  have idBelow := (valid.active other member).idBelow
  constructor
  · intro remaining inside
    rw [retire_active] at inside
    obtain ⟨startBelow, startBounded, idAbove, below, fresh⟩ := valid.active remaining (mem_others.mp inside).1
    exact ⟨by omega, startBounded, idAbove, by omega, fresh⟩
  · intro recent inside
    rw [retire_recent, mem_append] at inside
    rcases inside with old | new
    · have := valid.recentBelow recent old
      omega
    split at new
    · rw [mem_singleton] at new
      subst recent
      omega
    · simp at new
  · intro recent inside
    rw [retire_recent, mem_append] at inside
    rcases inside with old | new
    · have := valid.recentIdBelow recent old
      omega
    split at new
    · rw [mem_singleton] at new
      subst recent
      omega
    · simp at new
  · have := valid.idStart
    omega
  · rw [retire_active, retire_recent, ← append_assoc, map_append, nodup_append]
    have kept : ((manager.others transaction ++ manager.recentlyCommittedTransactions).map
        Transaction.transactionId).Nodup :=
      valid.distinct.sublist ((filter_sublist.append_right _).map _)
    refine ⟨kept, by split <;> simp, ?_⟩
    intro first firstMember second secondMember
    split at secondMember
    · simp only [map_cons, map_nil, mem_singleton] at secondMember
      obtain ⟨earlier, earlierMember, earlierEq⟩ := mem_map.mp firstMember
      subst second first
      rcases mem_append.mp earlierMember with inActive | inRecent
      · exact (mem_others.mp inActive).2
      · rw [same]
        exact valid.recent_ne_active inRecent member
    · simp at secondMember

theorem collect_valid (valid : manager.Valid) : manager.collect.Valid := by
  have stays : ∀ recent ∈ manager.collect.recentlyCommittedTransactions,
      recent ∈ manager.recentlyCommittedTransactions :=
    fun recent member => dropWhile_subset _ member
  constructor
  · intro active member
    obtain ⟨startBelow, startBounded, idAbove, idBelow, fresh⟩ := valid.active active member
    exact ⟨startBelow, startBounded, idAbove, idBelow, fresh⟩
  · exact fun recent member => valid.recentBelow recent (stays recent member)
  · exact fun recent member => valid.recentIdBelow recent (stays recent member)
  · exact valid.idStart
  · exact valid.distinct.sublist (((dropWhile_sublist _).append_left _).map _)

theorem removeTransaction_active (manager : TransactionManager) (transaction : Transaction) :
    (manager.removeTransaction transaction).1.activeTransactions = manager.others transaction :=
  manager.retire_active transaction

theorem removeTransaction_timestamps (manager : TransactionManager) (transaction : Transaction) :
    (manager.removeTransaction transaction).1.currentStartTimestamp = manager.currentStartTimestamp ∧
      (manager.removeTransaction transaction).1.currentTransactionId = manager.currentTransactionId :=
  manager.retire_timestamps transaction

theorem removeTransaction_valid (valid : manager.Valid) (member : other ∈ manager.activeTransactions)
    (same : transaction.transactionId = other.transactionId)
    (commitBelow : transaction.commitId < manager.currentStartTimestamp) :
    (manager.removeTransaction transaction).1.Valid :=
  collect_valid (retire_valid valid member same commitBelow)

end Valid

end TransactionManager

end GuinsooDB
