import Mathlib.Data.List.Nodup
import Mathlib.Logic.Function.Basic
import GuinsooDB.Library.UndoChain

/-!
What snapshot isolation promises: a log of committed write sets, newest first, and
the pending write sets of the open transactions. A reader sees its own writes, then
the newest write committed before it started, then the base value.
-/

namespace SnapshotLedger

open UndoChain List Option Function Or

variable {K : Type*} {V : K → Type*}

structure Reader where
  startTime : Nat
  transaction : Nat
  deriving Repr, DecidableEq

structure Commit (V : K → Type*) where
  commitId : Nat
  writes : (key : K) → Option (V key)

structure Ledger (V : K → Type*) where
  log : List (Commit V)
  pending : Nat → (key : K) → Option (V key)

namespace Ledger

def empty : Ledger V := { log := [], pending := fun _ _ => none }

def write (ledger : Ledger V) (transaction : Nat) (values : (key : K) → Option (V key)) :
    Ledger V :=
  { ledger with
    pending := update ledger.pending transaction fun key =>
      (values key).or (ledger.pending transaction key) }

def forget (ledger : Ledger V) (transaction : Nat) : Ledger V :=
  { ledger with pending := update ledger.pending transaction fun _ => none }

def commit (ledger : Ledger V) (transaction commitId : Nat) : Ledger V :=
  let closed := ledger.forget transaction
  { closed with log := { commitId, writes := ledger.pending transaction } :: ledger.log }

def lastCommitted (ledger : Ledger V) (startTime : Nat) (key : K) : Option (V key) :=
  ledger.log.findSome? fun entry => if entry.commitId < startTime then entry.writes key else none

def read (ledger : Ledger V) (base : (key : K) → V key) (reader : Reader) (key : K) : V key :=
  ((ledger.pending reader.transaction key).or (ledger.lastCommitted reader.startTime key)).getD
    (base key)

variable {ledger : Ledger V}

theorem write_of_none {values : (key : K) → Option (V key)} (nothing : ∀ key, values key = none)
    (transaction : Nat) : ledger.write transaction values = ledger := by
  have same : (fun key => (values key).or (ledger.pending transaction key)) = ledger.pending transaction := by
    funext key
    rw [nothing key, none_or]
  rw [write, same, update_eq_self]

/-! The writes to one key, newest first: those of open transactions, then the log. -/

def pendingWrites (ledger : Ledger V) (active : List Reader) (key : K) : List (Nat × V key) :=
  active.filterMap fun reader =>
    (ledger.pending reader.transaction key).map fun value => (reader.transaction, value)

def loggedWrites (ledger : Ledger V) (key : K) : List (Nat × V key) :=
  ledger.log.filterMap fun entry => (entry.writes key).map fun value => (entry.commitId, value)

def writesOf (ledger : Ledger V) (active : List Reader) (key : K) : List (Nat × V key) :=
  ledger.pendingWrites active key ++ ledger.loggedWrites key

def hidden (reader : Reader) (version : Nat) : Bool :=
  decide (reader.startTime < version) && decide (version ≠ reader.transaction)

variable {key : K} {active : List Reader}

theorem pendingWrites_nil (idle : ∀ reader ∈ active, ledger.pending reader.transaction key = none) :
    ledger.pendingWrites active key = [] := by
  apply filterMap_eq_nil_iff.mpr
  intro reader member
  simp [idle reader member]

variable {reader : Reader}

theorem pendingWrites_single {value : V key} (distinct : (active.map Reader.transaction).Nodup)
    (member : reader ∈ active) (wrote : ledger.pending reader.transaction key = some value)
    (others : ∀ other ∈ active, other.transaction ≠ reader.transaction → ledger.pending other.transaction key = none) :
    ledger.pendingWrites active key = [(reader.transaction, value)] := by
  induction active with
  | nil => simp at member
  | cons first rest ih =>
    obtain ⟨fresh, restDistinct⟩ := nodup_cons.mp distinct
    by_cases same : first.transaction = reader.transaction
    · have restIdle : ledger.pendingWrites rest key = [] := by
        apply pendingWrites_nil
        intro other inside
        apply others other (mem_cons_of_mem _ inside)
        intro equal
        exact fresh (mem_map.mpr ⟨other, inside, equal.trans same.symm⟩)
      have unfolded : ledger.pendingWrites (first :: rest) key =
          (reader.transaction, value) :: ledger.pendingWrites rest key := by
        simp [pendingWrites, same, wrote]
      rw [unfolded, restIdle]
    · have inRest : reader ∈ rest := by
        rcases mem_cons.mp member with equal | later
        · exact absurd (congrArg Reader.transaction equal.symm) same
        · exact later
      have idle := others first mem_cons_self same
      have unfolded : ledger.pendingWrites (first :: rest) key = ledger.pendingWrites rest key := by
        simp [pendingWrites, idle]
      rw [unfolded]
      exact ih restDistinct inRest fun other inside => others other (mem_cons_of_mem _ inside)

theorem mem_pendingWrites {write : Nat × V key} : write ∈ ledger.pendingWrites active key ↔
      ∃ reader ∈ active, reader.transaction = write.1 ∧
        ledger.pending reader.transaction key = some write.2 := mem_stamped

theorem mem_loggedWrites {write : Nat × V key} : write ∈ ledger.loggedWrites key ↔
      ∃ entry ∈ ledger.log, entry.commitId = write.1 ∧ entry.writes key = some write.2 := mem_stamped

def Old (active : List Reader) (now version : Nat) : Prop :=
  version < now ∧ ∀ reader ∈ active, version < reader.startTime

/-- Commit ids grow and lie in the past, a key has one open writer at most, and an open
writer has seen every committed write to its keys. -/
structure Coherent (ledger : Ledger V) (active : List Reader) (now : Nat) : Prop where
  distinct : (active.map Reader.transaction).Nodup
  identified : ∀ reader ∈ active, reader.startTime < now ∧ now ≤ reader.transaction
  ordered : ledger.log.Pairwise fun newer earlier => earlier.commitId < newer.commitId
  past : ∀ entry ∈ ledger.log, entry.commitId < now
  apart : ∀ reader ∈ active, ∀ entry ∈ ledger.log, entry.commitId ≠ reader.startTime
  opened : ∀ transaction key, (ledger.pending transaction key).isSome →
    ∃ reader ∈ active, reader.transaction = transaction
  exclusive : ∀ key first second, (ledger.pending first key).isSome →
    (ledger.pending second key).isSome → first = second
  seen : ∀ reader ∈ active, ∀ key, (ledger.pending reader.transaction key).isSome →
    ∀ entry ∈ ledger.log, (entry.writes key).isSome → entry.commitId < reader.startTime

theorem lastCommitted_eq {log : List (Commit V)} {base : V key}
    (distinct : ∀ entry ∈ log, entry.commitId ≠ reader.startTime ∧
      entry.commitId ≠ reader.transaction) : (log.findSome? fun entry =>
        if entry.commitId < reader.startTime then entry.writes key else none).getD base =
      firstShown (hidden reader) base
        (log.filterMap fun entry => (entry.writes key).map fun value => (entry.commitId, value)) := by
  induction log with
  | nil => rfl
  | cons entry rest ih =>
    have tail := ih fun other member => distinct other (mem_cons_of_mem _ member)
    obtain ⟨notStart, notOwn⟩ := distinct entry mem_cons_self
    cases wrote : entry.writes key with
    | none => simpa [wrote] using tail
    | some value =>
      by_cases earlier : entry.commitId < reader.startTime
      · have shown : hidden reader entry.commitId = false := by
          simp only [hidden, Bool.and_eq_false_iff, decide_eq_false_iff_not]
          omega
        simp [wrote, earlier, firstShown, shown]
      · have later : hidden reader entry.commitId = true := by
          simp only [hidden, Bool.and_eq_true, decide_eq_true_eq]
          omega
        simpa [wrote, earlier, firstShown, later] using tail

theorem firstShown_append_hidden {W : Type*} {conceal : Nat → Bool} {base : W}
    {early late : List (Nat × W)} (covered : ∀ write ∈ early, conceal write.1 = true) :
    firstShown conceal base (early ++ late) = firstShown conceal base late := by
  induction early with
  | nil => rfl
  | cons first rest ih =>
    rw [cons_append, firstShown, if_pos (covered first mem_cons_self)]
    exact ih fun write member => covered write (mem_cons_of_mem _ member)

namespace Coherent

variable {ledger : Ledger V} {active : List Reader} {now : Nat} {reader : Reader} {key : K}

variable (coherent : Coherent ledger active now)
include coherent

theorem mem_writesOf {write : Nat × V key} (member : write ∈ ledger.writesOf active key) :
    (∃ other ∈ active, other.transaction = write.1 ∧ ledger.pending other.transaction key = some write.2) ∨
      (write.1 < now ∧ ∃ entry ∈ ledger.log, entry.commitId = write.1 ∧ entry.writes key = some write.2) := by
  rcases mem_append.mp member with isPending | logged
  · exact inl (mem_pendingWrites.mp isPending)
  · obtain ⟨entry, inside, same, wrote⟩ := mem_loggedWrites.mp logged
    exact inr ⟨same ▸ coherent.past entry inside, entry, inside, same, wrote⟩

theorem loggedWrites_lt {write : Nat × V key} (member : write ∈ ledger.loggedWrites key) : write.1 < now := by
  obtain ⟨entry, inside, same, _⟩ := mem_loggedWrites.mp member
  exact same ▸ coherent.past entry inside

theorem peels_logged (member : reader ∈ active)
    (free : ∀ transaction, transaction ≠ reader.transaction → ledger.pending transaction key = none) :
    Peels reader.transaction (ledger.writesOf active key) (ledger.loggedWrites key) := by
  constructor
  · intro write inside
    have := coherent.loggedWrites_lt inside
    have := (coherent.identified reader member).2
    omega
  cases wrote : ledger.pending reader.transaction key with
  | none =>
    have idle : ledger.pendingWrites active key = [] := by
      apply pendingWrites_nil
      intro other _
      by_cases same : other.transaction = reader.transaction
      · rw [same, wrote]
      · exact free other.transaction same
    exact inl (by rw [writesOf, idle, nil_append])
  | some value =>
    have single := pendingWrites_single coherent.distinct member wrote
      fun other _ different => free other.transaction different
    exact inr ⟨value, by rw [writesOf, single, singleton_append]⟩

theorem loggedWrites_ordered (key : K) :
    (ledger.loggedWrites key).Pairwise fun newer earlier => earlier.1 < newer.1 := by
  refine List.Pairwise.filterMap _ ?_ coherent.ordered
  intro newer earlier less newerWrite newerMember earlierWrite earlierMember
  obtain ⟨_, _, newerEq⟩ := map_eq_some_iff.mp newerMember
  obtain ⟨_, _, earlierEq⟩ := map_eq_some_iff.mp earlierMember
  subst newerWrite earlierWrite
  exact less

theorem writesOf_pairwise (related : Nat → Nat → Prop) (self : ∀ version, related version version)
    (above : ∀ writer ∈ active, (ledger.pending writer.transaction key).isSome →
      ∀ write ∈ ledger.loggedWrites key, related writer.transaction write.1)
    (down : ∀ newer earlier, earlier < newer → newer < now → related newer earlier) :
    (ledger.writesOf active key).Pairwise fun newer earlier => related newer.1 earlier.1 := by
  refine pairwise_append.mpr ⟨?_, ?_, ?_⟩
  · refine pairwise_of_forall_mem_list ?_
    intro newer newerMember earlier earlierMember
    obtain ⟨first, _, firstEq, firstWrote⟩ := mem_pendingWrites.mp newerMember
    obtain ⟨second, _, secondEq, secondWrote⟩ := mem_pendingWrites.mp earlierMember
    have same := coherent.exclusive key first.transaction second.transaction
      (by simp [firstWrote]) (by simp [secondWrote])
    rw [← firstEq, ← secondEq, same]
    exact self second.transaction
  · refine (List.Pairwise.and_mem.mp (coherent.loggedWrites_ordered key)).imp ?_
    intro newer earlier ordered
    exact down newer.1 earlier.1 ordered.2.2 (coherent.loggedWrites_lt ordered.1)
  · intro newer newerMember earlier earlierMember
    obtain ⟨writer, member, same, wrote⟩ := mem_pendingWrites.mp newerMember
    rw [← same]
    exact above writer member (by simp [wrote]) earlier earlierMember

theorem hidden_closed (member : reader ∈ active) (key : K) : (ledger.writesOf active key).Pairwise fun newer earlier =>
      hidden reader newer.1 = false → hidden reader earlier.1 = false := by
  have bounds := coherent.identified reader member
  refine coherent.writesOf_pairwise (fun newer earlier => hidden reader newer = false → hidden reader earlier = false)
    (fun _ shown => shown) ?_ ?_
  · intro writer writerMember wrote write inside shown
    have writerBounds := coherent.identified writer writerMember
    obtain ⟨entry, entryMember, same, entryWrote⟩ := mem_loggedWrites.mp inside
    simp only [hidden, Bool.and_eq_false_iff, decide_eq_false_iff_not, not_not] at shown ⊢
    have own : writer.transaction = reader.transaction := by omega
    rw [own] at wrote
    have := coherent.seen reader member key wrote entry entryMember (by simp [entryWrote])
    omega
  · intro newer earlier less below shown
    simp only [hidden, Bool.and_eq_false_iff, decide_eq_false_iff_not, not_not] at shown ⊢
    omega

theorem old_closed (key : K) : (ledger.writesOf active key).Pairwise fun newer earlier =>
      Old active now newer.1 → Old active now earlier.1 := by
  refine coherent.writesOf_pairwise (fun newer earlier => Old active now newer → Old active now earlier)
    (fun _ old => old) ?_ ?_
  · intro writer member _ write _ old
    have identified := (coherent.identified writer member).2
    have before := old.1
    omega
  · intro newer earlier less _ old
    refine ⟨Nat.lt_trans less old.1, ?_⟩
    intro reader member
    exact Nat.lt_trans less (old.2 reader member)

end Coherent

/-! The operations keep the ledger coherent, and change the writes to a key as follows. -/

def without (active : List Reader) (transaction : Nat) : List Reader :=
  active.filter fun reader => reader.transaction ≠ transaction

variable {transaction : Nat}

theorem mem_without : reader ∈ without active transaction ↔ reader ∈ active ∧ reader.transaction ≠ transaction := by
  simp [without, mem_filter]

theorem pendingWrites_congr {other : Ledger V}
    (same : ∀ reader ∈ active, ledger.pending reader.transaction key = other.pending reader.transaction key) :
    ledger.pendingWrites active key = other.pendingWrites active key := by
  apply filterMap_congr
  intro reader member
  rw [same reader member]

theorem pendingWrites_without (idle : ledger.pending transaction key = none) :
    ledger.pendingWrites (without active transaction) key = ledger.pendingWrites active key := by
  induction active with
  | nil => rfl
  | cons first rest ih =>
    simp only [pendingWrites, without] at ih ⊢
    by_cases same : first.transaction = transaction
    · rw [filter_cons_of_neg (by simp [same]), ih, filterMap_cons_none]
      rw [same, idle, map_none]
    · rw [filter_cons_of_pos (by simp [same]), filterMap_cons, filterMap_cons, ih]

namespace Coherent

variable {ledger : Ledger V} {active : List Reader} {now : Nat} {reader : Reader} {key : K}

theorem advance (coherent : Coherent ledger active now) {later : Nat} (forward : now ≤ later)
    (room : ∀ reader ∈ active, later ≤ reader.transaction) : Coherent ledger active later :=
  { coherent with
    identified := fun reader member =>
      ⟨Nat.lt_of_lt_of_le (coherent.identified reader member).1 forward, room reader member⟩
    past := fun entry member => Nat.lt_of_lt_of_le (coherent.past entry member) forward }

variable {transaction : Nat}

section

variable (coherent : Coherent ledger active now)
  (fresh : ∀ reader ∈ active, reader.transaction ≠ transaction)
include coherent fresh

theorem pending_fresh : ledger.pending transaction key = none := by
  rw [← not_isSome_iff_eq_none]
  intro wrote
  obtain ⟨reader, member, same⟩ := coherent.opened transaction key wrote
  exact fresh reader member same

theorem begin (room : ∀ reader ∈ active, now < reader.transaction) (above : now < transaction) :
    Coherent ledger (active ++ [{ startTime := now, transaction }]) (now + 1) := by
  have advanced := coherent.advance (Nat.le_succ now) room
  refine { advanced with distinct := ?_, identified := ?_, apart := ?_, opened := ?_, seen := ?_ }
  · simpa [nodup_append, coherent.distinct] using fresh
  · exact forall_mem_append.mpr ⟨advanced.identified, forall_mem_singleton.mpr ⟨Nat.lt_succ_self now, above⟩⟩
  · intro reader member entry inside
    rcases mem_append.mp member with old | new
    · exact coherent.apart reader old entry inside
    · rw [mem_singleton.mp new]
      exact Nat.ne_of_lt (coherent.past entry inside)
  · intro writer key wrote
    obtain ⟨reader, member, same⟩ := coherent.opened writer key wrote
    exact ⟨reader, mem_append_left _ member, same⟩
  · intro reader member key wrote
    rcases mem_append.mp member with old | new
    · exact coherent.seen reader old key wrote
    · rw [mem_singleton.mp new, coherent.pending_fresh fresh] at wrote
      simp at wrote

theorem writesOf_begin {startTime : Nat} (key : K) :
    ledger.writesOf (active ++ [Reader.mk startTime transaction]) key = ledger.writesOf active key := by
  have idle : ledger.pending transaction key = none := coherent.pending_fresh fresh
  simp [writesOf, pendingWrites, filterMap_append, idle]

end

/-- The values may be written if no other transaction has the key open and every
committed write to it happened before the reader started. -/
def Free (ledger : Ledger V) (reader : Reader) (key : K) : Prop :=
  (∀ transaction, transaction ≠ reader.transaction → ledger.pending transaction key = none) ∧
    ∀ entry ∈ ledger.log, (entry.writes key).isSome → entry.commitId < reader.startTime

variable {value : V key}

theorem mem_writesOf_pending (coherent : Coherent ledger active now)
    (wrote : ledger.pending transaction key = some value) :
    (transaction, value) ∈ ledger.writesOf active key := by
  obtain ⟨reader, member, same⟩ := coherent.opened transaction key (by simp [wrote])
  exact mem_append_left _ (mem_pendingWrites.mpr ⟨reader, member, same, same ▸ wrote⟩)

theorem mem_writesOf_logged {entry : Commit V} (inside : entry ∈ ledger.log) (wrote : entry.writes key = some value) :
    (entry.commitId, value) ∈ ledger.writesOf active key :=
  mem_append_right _ (mem_loggedWrites.mpr ⟨entry, inside, rfl, wrote⟩)

theorem free_of_writes (coherent : Coherent ledger active now) (member : reader ∈ active)
    (preceding : ∀ write ∈ ledger.writesOf active key,
      write.1 = reader.transaction ∨ write.1 ≤ reader.startTime) : Free ledger reader key := by
  have bounds := coherent.identified reader member
  constructor
  · intro transaction different
    rw [← not_isSome_iff_eq_none, isSome_iff_exists]
    rintro ⟨value, wrote⟩
    obtain ⟨other, otherMember, same⟩ := coherent.opened transaction key (by simp [wrote])
    have otherBounds := coherent.identified other otherMember
    rcases preceding _ (coherent.mem_writesOf_pending wrote) with own | early
    · exact different own
    · simp only at early
      omega
  · intro entry inside wrote
    obtain ⟨value, written⟩ := isSome_iff_exists.mp wrote
    have apart := coherent.apart reader member entry inside
    have past := coherent.past entry inside
    rcases preceding _ (mem_writesOf_logged inside written) with own | early
    · simp only at own
      omega
    · simp only at early
      omega

theorem pending_write (ledger : Ledger V) (transaction : Nat)
    (values : (key : K) → Option (V key)) (writer : Nat) (key : K) :
    (ledger.write transaction values).pending writer key =
      if writer = transaction then (values key).or (ledger.pending transaction key)
      else ledger.pending writer key := by
  by_cases same : writer = transaction
  · subst writer
    simp [write]
  · simp [write, same]

variable {values : (key : K) → Option (V key)}

theorem write (coherent : Coherent ledger active now) (member : reader ∈ active)
    (free : ∀ key, (values key).isSome → Free ledger reader key) :
    Coherent (ledger.write reader.transaction values) active now := by
  have wrote : ∀ writer key, ((ledger.write reader.transaction values).pending writer key).isSome →
      (ledger.pending writer key).isSome ∨ (writer = reader.transaction ∧ (values key).isSome) := by
    intro writer key written
    rw [pending_write] at written
    split at written
    next same =>
      rw [isSome_or, Bool.or_eq_true] at written
      rcases written with new | old
      · exact inr ⟨same, new⟩
      · exact inl (same ▸ old)
    · exact inl written
  have alone : ∀ writer key, (values key).isSome → (ledger.pending writer key).isSome →
      writer = reader.transaction := by
    intro writer key new old
    by_contra different
    rw [(free key new).1 writer different] at old
    simp at old
  refine { coherent with opened := ?_, exclusive := ?_, seen := ?_ }
  · intro writer key written
    rcases wrote writer key written with old | ⟨same, _⟩
    · exact coherent.opened writer key old
    · exact ⟨reader, member, same.symm⟩
  · intro key first second firstWritten secondWritten
    rcases wrote first key firstWritten with firstOld | ⟨firstSame, firstNew⟩ <;>
    rcases wrote second key secondWritten with secondOld | ⟨secondSame, secondNew⟩
    · exact coherent.exclusive key first second firstOld secondOld
    · rw [alone first key secondNew firstOld, secondSame]
    · rw [alone second key firstNew secondOld, firstSame]
    · rw [firstSame, secondSame]
  · intro writer writerMember key written entry inside entryWrote
    rcases wrote writer.transaction key written with old | ⟨same, new⟩
    · exact coherent.seen writer writerMember key old entry inside entryWrote
    · have equal : writer = reader := inj_on_of_nodup_map coherent.distinct writerMember member same
      rw [equal]
      exact (free key new).2 entry inside entryWrote

variable {active : List Reader} {transaction : Nat} {ledger : Ledger V}

theorem writesOf_write_of_none (kept : values key = none) :
    (ledger.write transaction values).writesOf active key = ledger.writesOf active key := by
  have same : ∀ other ∈ active, (ledger.write transaction values).pending other.transaction key =
      ledger.pending other.transaction key := by
    intro other _
    rw [pending_write, kept, none_or]
    split <;> simp_all
  rw [writesOf, writesOf, pendingWrites_congr same]
  rfl

theorem writesOf_write_of_some (coherent : Coherent ledger active now) (member : reader ∈ active)
    (new : values key = some value) (free : Free ledger reader key) :
    (ledger.write reader.transaction values).writesOf active key =
      (reader.transaction, value) :: ledger.loggedWrites key := by
  have own : (ledger.write reader.transaction values).pending reader.transaction key = some value := by
    rw [pending_write, if_pos rfl, new, some_or]
  have others : ∀ other ∈ active, other.transaction ≠ reader.transaction →
      (ledger.write reader.transaction values).pending other.transaction key = none := by
    intro other _ different
    rw [pending_write, if_neg different]
    exact free.1 other.transaction different
  rw [writesOf, pendingWrites_single coherent.distinct member own others]
  rfl

theorem pending_forget (ledger : Ledger V) (transaction writer : Nat) (key : K) :
    (ledger.forget transaction).pending writer key =
      if writer = transaction then none else ledger.pending writer key := by
  by_cases same : writer = transaction
  · subst writer
    simp [Ledger.forget]
  · simp [Ledger.forget, same]

theorem forget (coherent : Coherent ledger active now) (transaction : Nat) :
    Coherent (ledger.forget transaction) (without active transaction) now := by
  have kept : ∀ writer key, ((ledger.forget transaction).pending writer key).isSome →
      writer ≠ transaction ∧ (ledger.pending writer key).isSome := by
    intro writer key written
    rw [pending_forget] at written
    split at written
    · simp at written
    next different =>
      exact ⟨different, written⟩
  refine { coherent with distinct := ?_, identified := ?_, apart := ?_, opened := ?_,
                         exclusive := ?_, seen := ?_ }
  · exact coherent.distinct.sublist (filter_sublist.map _)
  · exact fun reader member => coherent.identified reader (mem_without.mp member).1
  · exact fun reader member => coherent.apart reader (mem_without.mp member).1
  · intro writer key written
    obtain ⟨different, wrote⟩ := kept writer key written
    obtain ⟨reader, member, same⟩ := coherent.opened writer key wrote
    exact ⟨reader, mem_without.mpr ⟨member, same ▸ different⟩, same⟩
  · intro key first second firstWritten secondWritten
    exact coherent.exclusive key first second (kept first key firstWritten).2 (kept second key secondWritten).2
  · intro reader member key written
    exact coherent.seen reader (mem_without.mp member).1 key (kept _ key written).2

theorem pendingWrites_forget {key : K} : (ledger.forget transaction).pendingWrites (without active transaction) key =
      ledger.pendingWrites (without active transaction) key := by
  apply pendingWrites_congr
  intro reader member
  rw [pending_forget, if_neg (mem_without.mp member).2]

variable (coherent : Coherent ledger active now)
include coherent

theorem pending_none_of_writer (wrote : (ledger.pending transaction key).isSome) {other : Nat}
    (different : other ≠ transaction) : ledger.pending other key = none := by
  rw [← not_isSome_iff_eq_none]
  exact fun also => different (coherent.exclusive key other transaction also wrote)

theorem pendingWrites_writer (member : reader ∈ active) (wrote : ledger.pending reader.transaction key = some value) :
    ledger.pendingWrites active key = [(reader.transaction, value)] ∧
      ledger.pendingWrites (without active reader.transaction) key = [] := by
  have free : ∀ other, other ≠ reader.transaction → ledger.pending other key = none :=
    fun _ different => coherent.pending_none_of_writer (by simp [wrote]) different
  exact ⟨pendingWrites_single coherent.distinct member wrote fun other _ => free other.transaction,
    pendingWrites_nil fun other inside => free other.transaction (mem_without.mp inside).2⟩

theorem peels_forget (member : reader ∈ active) (key : K) : Peels reader.transaction (ledger.writesOf active key)
      ((ledger.forget reader.transaction).writesOf (without active reader.transaction) key) := by
  have bounds := coherent.identified reader member
  constructor
  · intro write inside
    rcases (coherent.forget reader.transaction).mem_writesOf inside with
      ⟨other, otherMember, same, _⟩ | ⟨past, _⟩
    · rw [← same]
      exact (mem_without.mp otherMember).2
    · omega
  · rw [writesOf, writesOf, pendingWrites_forget]
    cases wrote : ledger.pending reader.transaction key with
    | none => exact inl (by rw [pendingWrites_without wrote]; rfl)
    | some value =>
      obtain ⟨single, idle⟩ := coherent.pendingWrites_writer member wrote
      exact inr ⟨value, by rw [single, idle]; rfl⟩

theorem writesOf_commit (member : reader ∈ active) (commitId : Nat) (key : K) :
    (ledger.commit reader.transaction commitId).writesOf (without active reader.transaction) key =
      (ledger.writesOf active key).map fun write =>
        (if write.1 = reader.transaction then commitId else write.1, write.2) := by
  have peels := coherent.peels_forget member key
  have unchanged : ((ledger.forget reader.transaction).writesOf
      (without active reader.transaction) key).map (fun write =>
        (if write.1 = reader.transaction then commitId else write.1, write.2)) =
      (ledger.forget reader.transaction).writesOf (without active reader.transaction) key := by
    conv_rhs => rw [← map_id ((ledger.forget reader.transaction).writesOf _ key)]
    apply map_congr_left
    intro write inside
    simp [peels.absent write inside]
  cases wrote : ledger.pending reader.transaction key with
  | none =>
    have kept : ledger.writesOf active key =
        (ledger.forget reader.transaction).writesOf (without active reader.transaction) key := by
      rw [writesOf, writesOf, pendingWrites_forget, pendingWrites_without wrote]
      rfl
    rw [kept, unchanged]
    simp only [writesOf, loggedWrites, Ledger.commit, filterMap_cons, wrote, map_none]
    rfl
  | some value =>
    obtain ⟨single, idle⟩ := coherent.pendingWrites_writer member wrote
    rw [writesOf, pendingWrites_forget, idle, nil_append] at unchanged
    have committed : (ledger.commit reader.transaction commitId).pendingWrites
        (without active reader.transaction) key = [] :=
      (pendingWrites_forget).trans idle
    have logged : (ledger.commit reader.transaction commitId).loggedWrites key =
        (commitId, value) :: ledger.loggedWrites key := by
      simp [loggedWrites, Ledger.commit, wrote, Ledger.forget]
    rw [writesOf, committed, logged, writesOf, single, singleton_append, map_cons, nil_append, if_pos rfl]
    exact congrArg _ unchanged.symm

theorem commit (room : ∀ reader ∈ active, now < reader.transaction) :
    Coherent (ledger.commit reader.transaction now) (without active reader.transaction) (now + 1) := by
  have closed := (coherent.forget reader.transaction).advance (Nat.le_succ now)
    fun other inside => room other (mem_without.mp inside).1
  refine { closed with ordered := ?_, past := ?_, apart := ?_, seen := ?_ }
  · exact pairwise_cons.mpr ⟨coherent.past, coherent.ordered⟩
  · intro entry inside
    rcases mem_cons.mp inside with new | old
    · subst entry
      exact Nat.lt_succ_self now
    · exact closed.past entry old
  · intro other inside entry entryMember
    rcases mem_cons.mp entryMember with new | old
    · subst entry
      exact Nat.ne_of_gt (coherent.identified other (mem_without.mp inside).1).1
    · exact closed.apart other inside entry old
  · intro other inside key written entry entryMember entryWrote
    rcases mem_cons.mp entryMember with new | old
    · subst entry
      have pendingOther : (ledger.pending other.transaction key).isSome := by
        have unchanged := pending_forget ledger reader.transaction other.transaction key
        rw [if_neg (mem_without.mp inside).2] at unchanged
        rw [← unchanged]
        exact written
      exact absurd (coherent.exclusive key _ _ pendingOther entryWrote) (mem_without.mp inside).2
    · exact closed.seen other inside key written entry old entryWrote

end Coherent

theorem read_eq_firstShown {now : Nat} (coherent : Coherent ledger active now)
    (member : reader ∈ active) (base : (key : K) → V key) (key : K) : ledger.read base reader key =
      firstShown (hidden reader) (base key) (ledger.writesOf active key) := by
  have bounds := coherent.identified reader member
  cases wrote : ledger.pending reader.transaction key with
  | some value =>
    obtain ⟨single, _⟩ := coherent.pendingWrites_writer member wrote
    have shown : hidden reader reader.transaction = false := by simp [hidden]
    simp [read, wrote, writesOf, single, firstShown, shown]
  | none =>
    have covered : ∀ write ∈ ledger.pendingWrites active key, hidden reader write.1 = true := by
      intro write inside
      obtain ⟨other, otherActive, same, otherWrote⟩ := mem_pendingWrites.mp inside
      have notOwn : other.transaction ≠ reader.transaction := by
        intro equal
        rw [equal, wrote] at otherWrote
        simp at otherWrote
      have otherBounds := coherent.identified other otherActive
      simp only [hidden, ← same, Bool.and_eq_true, decide_eq_true_eq]
      omega
    rw [writesOf, firstShown_append_hidden covered, read, wrote, none_or]
    refine lastCommitted_eq fun entry inside =>
      ⟨coherent.apart reader member entry inside, ?_⟩
    have := coherent.past entry inside
    omega

end Ledger

end SnapshotLedger
