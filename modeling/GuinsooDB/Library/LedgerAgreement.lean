import GuinsooDB.Library.SnapshotLedger

/-!
A ledger may leave out writes of the base value, as long as the key has no other write
in it. Such a ledger reads the same as the full one.
-/

namespace SnapshotLedger

open Option List

variable {K : Type*} {V : K → Type*}

/-- The logs list the same commits. A write left out wrote the base value, and nothing
older is recorded for its key. -/
inductive LogsAgree (base : (key : K) → V key) : List (Commit V) → List (Commit V) → Prop
  | nil : LogsAgree base [] []
  | cons {full record : Commit V} {log records : List (Commit V)} :
      full.commitId = record.commitId →
      (∀ key value, record.writes key = some value → full.writes key = some value) →
      (∀ key value, full.writes key = some value → record.writes key = none →
        value = base key ∧ ∀ entry ∈ records, entry.writes key = none) →
      LogsAgree base log records → LogsAgree base (full :: log) (record :: records)

structure Agrees (base : (key : K) → V key) (active : List Reader)
    (ledger recorded : Ledger V) : Prop where
  opened : ∀ transaction key, (ledger.pending transaction key).isSome →
    ∃ reader ∈ active, reader.transaction = transaction
  covers : ∀ transaction key value, recorded.pending transaction key = some value →
    ledger.pending transaction key = some value
  leftOut : ∀ transaction key value, ledger.pending transaction key = some value →
    recorded.pending transaction key = none → value = base key ∧
      (∀ other, recorded.pending other key = none) ∧
      ∀ entry ∈ recorded.log, entry.writes key = none
  logs : LogsAgree base ledger.log recorded.log

variable {log : List (Commit V)}

theorem findSome_none_of_unwritten {key : K} {startTime : Nat} (unwritten : ∀ entry ∈ log, entry.writes key = none) :
    (log.findSome? fun entry => if entry.commitId < startTime then entry.writes key else none) =
      none := by
  apply findSome?_eq_none_iff.mpr
  intro entry inside
  rw [unwritten entry inside, ite_self]

theorem LogsAgree.lastCommitted {base : (key : K) → V key} {records : List (Commit V)}
    (agree : LogsAgree base log records) (startTime : Nat) (key : K) : (log.findSome? fun entry =>
        if entry.commitId < startTime then entry.writes key else none).getD (base key) =
      (records.findSome? fun entry =>
        if entry.commitId < startTime then entry.writes key else none).getD (base key) := by
  induction agree with
  | nil => rfl
  | @cons full record log records sameId covered leftOut tail ih =>
    rw [findSome?_cons, findSome?_cons, sameId]
    by_cases early : record.commitId < startTime
    · simp only [early, if_true]
      cases recordWrote : record.writes key with
      | some value => rw [covered key value recordWrote]
      | none =>
        cases fullWrote : full.writes key with
        | none => exact ih
        | some value =>
          obtain ⟨isBase, unwritten⟩ := leftOut key value fullWrote recordWrote
          simp only [findSome_none_of_unwritten unwritten, isBase, getD_some, getD_none]
    · simp only [early, if_false]
      exact ih

namespace Agrees

variable {base : (key : K) → V key} {active : List Reader} {ledger recorded : Ledger V}

theorem empty (base : (key : K) → V key) (active : List Reader) :
    Agrees base active (Ledger.empty : Ledger V) Ledger.empty := by
  constructor
  · simp [Ledger.empty]
  · simp [Ledger.empty]
  · simp [Ledger.empty]
  · exact .nil

theorem read (agrees : Agrees base active ledger recorded) (reader : Reader) (key : K) :
    ledger.read base reader key = recorded.read base reader key := by
  cases recordWrote : recorded.pending reader.transaction key with
  | some value =>
    rw [Ledger.read, Ledger.read, recordWrote, agrees.covers _ key value recordWrote]
    rfl
  | none =>
    cases wrote : ledger.pending reader.transaction key with
    | none =>
      rw [Ledger.read, Ledger.read, recordWrote, wrote, none_or, none_or]
      exact agrees.logs.lastCommitted reader.startTime key
    | some value =>
      obtain ⟨isBase, _, unwritten⟩ := agrees.leftOut _ key value wrote recordWrote
      have nothing : recorded.lastCommitted reader.startTime key = none := findSome_none_of_unwritten unwritten
      rw [Ledger.read, Ledger.read, recordWrote, wrote, nothing, isBase]
      rfl

theorem begin (agrees : Agrees base active ledger recorded) (readers : List Reader) :
    Agrees base (active ++ readers) ledger recorded := by
  refine ⟨?_, agrees.covers, agrees.leftOut, agrees.logs⟩
  intro transaction key wrote
  obtain ⟨reader, member, same⟩ := agrees.opened transaction key wrote
  exact ⟨reader, mem_append_left _ member, same⟩

variable {reader : Reader} {values : (key : K) → Option (V key)}

variable (agrees : Agrees base active ledger recorded)
include agrees

theorem opened_write (member : reader ∈ active) :
    ∀ transaction key, ((ledger.write reader.transaction values).pending transaction key).isSome →
      ∃ other ∈ active, other.transaction = transaction := by
  intro transaction key wrote
  by_cases same : transaction = reader.transaction
  · exact ⟨reader, member, same.symm⟩
  · rw [Ledger.Coherent.pending_write, if_neg same] at wrote
    exact agrees.opened transaction key wrote

theorem skip (member : reader ∈ active) (harmless : ∀ key value, values key = some value → value = base key ∧
      (∀ other, recorded.pending other key = none) ∧
      ∀ entry ∈ recorded.log, entry.writes key = none) :
    Agrees base active (ledger.write reader.transaction values) recorded := by
  refine ⟨agrees.opened_write member, ?_, ?_, agrees.logs⟩
  · intro transaction key value recordWrote
    rw [Ledger.Coherent.pending_write]
    have wrote := agrees.covers transaction key value recordWrote
    cases new : values key with
    | none =>
      split <;> simp_all
    | some written =>
      rw [(harmless key written new).2.1 transaction] at recordWrote
      simp at recordWrote
  · intro transaction key value wrote unrecorded
    rw [Ledger.Coherent.pending_write] at wrote
    split at wrote
    next same =>
      cases new : values key with
      | none =>
        rw [new, none_or, ← same] at wrote
        exact agrees.leftOut transaction key value wrote unrecorded
      | some written =>
        rw [new, some_or, Option.some.injEq] at wrote
        exact wrote ▸ harmless key written new
    · exact agrees.leftOut transaction key value wrote unrecorded

theorem write (member : reader ∈ active) (clear : ∀ key, (values key).isSome → ∀ other ∈ active,
      other.transaction ≠ reader.transaction → (ledger.pending other.transaction key).isSome →
      (recorded.pending other.transaction key).isSome) :
    Agrees base active (ledger.write reader.transaction values) (recorded.write reader.transaction values) := by
  refine ⟨agrees.opened_write member, ?_, ?_, agrees.logs⟩
  · intro transaction key value recordWrote
    rw [Ledger.Coherent.pending_write] at recordWrote ⊢
    split at recordWrote
    · cases new : values key with
      | none =>
        rw [new, none_or] at recordWrote
        rw [if_pos ‹_›, none_or]
        exact agrees.covers _ key value recordWrote
      | some written =>
        rw [new, some_or] at recordWrote
        rw [if_pos ‹_›, some_or]
        exact recordWrote
    · rw [if_neg ‹_›]
      exact agrees.covers transaction key value recordWrote
  · intro transaction key value wrote unrecorded
    rw [Ledger.Coherent.pending_write] at wrote unrecorded
    cases new : values key with
    | some written =>
      by_cases same : transaction = reader.transaction
      · rw [if_pos same, new, some_or] at unrecorded
        simp at unrecorded
      rw [if_neg same] at wrote unrecorded
      obtain ⟨other, otherMember, otherSame⟩ := agrees.opened transaction key (by simp [wrote])
      subst transaction
      have present := clear key (by simp [new]) other otherMember same (by simp [wrote])
      rw [unrecorded] at present
      simp at present
    | none =>
      rw [new, none_or] at wrote unrecorded
      have before : value = base key ∧ (∀ other, recorded.pending other key = none) ∧
          ∀ entry ∈ recorded.log, entry.writes key = none := by
        by_cases same : transaction = reader.transaction
        · rw [if_pos same] at wrote unrecorded
          exact agrees.leftOut _ key value wrote unrecorded
        · rw [if_neg same] at wrote unrecorded
          exact agrees.leftOut _ key value wrote unrecorded
      refine ⟨before.1, ?_, before.2.2⟩
      intro other
      rw [Ledger.Coherent.pending_write, new, none_or]
      split
      · exact before.2.1 reader.transaction
      · exact before.2.1 other

theorem forget (transaction : Nat) : Agrees base (Ledger.without active transaction) (ledger.forget transaction)
      (recorded.forget transaction) := by
  refine ⟨?_, ?_, ?_, agrees.logs⟩
  · intro writer key wrote
    rw [Ledger.Coherent.pending_forget] at wrote
    split at wrote
    · simp at wrote
    next different =>
      obtain ⟨reader, member, same⟩ := agrees.opened writer key wrote
      exact ⟨reader, Ledger.mem_without.mpr ⟨member, same ▸ different⟩, same⟩
  · intro writer key value recordWrote
    rw [Ledger.Coherent.pending_forget] at recordWrote ⊢
    split at recordWrote
    · simp at recordWrote
    · rw [if_neg ‹_›]
      exact agrees.covers writer key value recordWrote
  · intro writer key value wrote unrecorded
    rw [Ledger.Coherent.pending_forget] at wrote unrecorded
    split at wrote
    · simp at wrote
    rw [if_neg ‹_›] at unrecorded
    obtain ⟨isBase, noPending, noLogged⟩ := agrees.leftOut writer key value wrote unrecorded
    refine ⟨isBase, ?_, noLogged⟩
    intro other
    rw [Ledger.Coherent.pending_forget]
    split
    · rfl
    · exact noPending other

theorem commit (transaction commitId : Nat) :
    Agrees base (Ledger.without active transaction) (ledger.commit transaction commitId)
      (recorded.commit transaction commitId) := by
  have forgotten := agrees.forget transaction
  refine ⟨forgotten.opened, forgotten.covers, ?_, ?_⟩
  · intro writer key value wrote unrecorded
    obtain ⟨isBase, noPending, noLogged⟩ := forgotten.leftOut writer key value wrote unrecorded
    refine ⟨isBase, noPending, ?_⟩
    have wroteBefore := Ledger.Coherent.pending_forget ledger transaction writer key
    have unrecordedBefore := Ledger.Coherent.pending_forget recorded transaction writer key
    rw [show (ledger.forget transaction).pending writer key = some value from wrote] at wroteBefore
    rw [show (recorded.forget transaction).pending writer key = none from unrecorded] at unrecordedBefore
    intro entry inside
    rcases mem_cons.mp inside with new | old
    · subst entry
      split at wroteBefore
      · simp at wroteBefore
      · rw [if_neg ‹_›] at unrecordedBefore
        exact (agrees.leftOut writer key value wroteBefore.symm unrecordedBefore.symm).2.1 transaction
    · exact noLogged entry old
  · exact .cons rfl (agrees.covers transaction) (fun key value wrote unrecorded =>
        ⟨(agrees.leftOut transaction key value wrote unrecorded).1,
          (agrees.leftOut transaction key value wrote unrecorded).2.2⟩) agrees.logs

end Agrees

end SnapshotLedger
