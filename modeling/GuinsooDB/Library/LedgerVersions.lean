import GuinsooDB.Library.SnapshotLedger

/-! Which versions of a key a ledger holds, open or committed. -/

namespace SnapshotLedger

open Option

variable {K : Type*} {V : K → Type*}

namespace Ledger

def Writes (ledger : Ledger V) (version : Nat) (key : K) : Prop :=
  (ledger.pending version key).isSome ∨
    ∃ entry ∈ ledger.log, entry.commitId = version ∧ (entry.writes key).isSome

variable {ledger : Ledger V} {version transaction : Nat} {key : K}

theorem writes_write {values : (key : K) → Option (V key)} : (ledger.write transaction values).Writes version key ↔
      ledger.Writes version key ∨ (version = transaction ∧ (values key).isSome) := by
  rw [Writes, Coherent.pending_write, Writes]
  change _ ∨ (∃ entry ∈ ledger.log, _) ↔ _
  by_cases same : version = transaction
  · subst version
    grind
  · rw [if_neg same]
    grind

variable (apart : ∀ entry ∈ ledger.log, entry.commitId ≠ transaction)

include apart in
theorem writes_forget :
    (ledger.forget transaction).Writes version key ↔ version ≠ transaction ∧ ledger.Writes version key := by
  rw [Writes, Coherent.pending_forget, Writes]
  change _ ∨ (∃ entry ∈ ledger.log, _) ↔ _
  by_cases same : version = transaction
  · subst version
    simp only [if_true, isSome_none, Bool.false_eq_true, false_or, ne_eq, not_true_eq_false, false_and, iff_false]
    rintro ⟨entry, inside, committed, _⟩
    exact apart entry inside committed
  · simp [same]

include apart in
theorem writes_commit
    (commitId : Nat) : (ledger.commit transaction commitId).Writes version key ↔
      (version ≠ transaction ∧ ledger.Writes version key) ∨ (version = commitId ∧ ledger.Writes transaction key) := by
  have opened : ledger.Writes transaction key ↔ (ledger.pending transaction key).isSome := by
    refine ⟨?_, .inl⟩
    rintro (wrote | ⟨entry, inside, committed, _⟩)
    · exact wrote
    · exact absurd committed (apart entry inside)
  have unfolded : (ledger.commit transaction commitId).Writes version key ↔
      (ledger.forget transaction).Writes version key ∨
        (commitId = version ∧ (ledger.pending transaction key).isSome) := by
    simp only [Writes, commit, List.mem_cons, exists_eq_or_imp]
    change _ ∨ _ ∨ (∃ entry ∈ ledger.log, _) ↔ (_ ∨ (∃ entry ∈ ledger.log, _)) ∨ _
    grind
  rw [unfolded, writes_forget apart, opened, eq_comm (a := commitId)]

theorem Coherent.writes_iff {active : List Reader} {now : Nat} (coherent : Coherent ledger active now) :
    ledger.Writes version key ↔ ∃ value, (version, value) ∈ ledger.writesOf active key := by
  constructor
  · rintro (wrote | ⟨entry, inside, committed, wrote⟩)
    · obtain ⟨value, written⟩ := isSome_iff_exists.mp wrote
      exact ⟨value, coherent.mem_writesOf_pending written⟩
    · obtain ⟨value, written⟩ := isSome_iff_exists.mp wrote
      exact ⟨value, committed ▸ Coherent.mem_writesOf_logged inside written⟩
  rintro ⟨value, member⟩
  rcases coherent.mem_writesOf member with ⟨reader, _, same, wrote⟩ | ⟨_, entry, inside, same, wrote⟩
  · simp only at same wrote
    exact .inl (by rw [← same, wrote]; rfl)
  · exact .inr ⟨entry, inside, same, by rw [wrote]; rfl⟩

end Ledger

end SnapshotLedger
