import Mathlib.Algebra.Order.BigOperators.Group.Finset
import Mathlib.Algebra.Order.Group.Multiset
import GuinsooDB.Join.Emission

/-!
One call of `GetChunk`: the rows it returns and those that the task and the final scan still have
to return add up to what they had before.
-/

namespace GuinsooDB

open Outcome HashJoinTask
open Finset (range sum_eq_zero_iff)
open Multiset (coe_eq_zero coe_add)
open List hiding range sum_eq_zero_iff

/-- The table as it was finalised, but for the flags and the counts. -/
def JoinHashTable.Keeps (base table : JoinHashTable) : Prop :=
  table = { base with found := table.found, correlatedCounts := table.correlatedCounts }

section Keeps

variable {Left : Type} {plan : HashJoin} {base table : JoinHashTable} {builds : List BuildRow}
  {probes probe : List (ProbeRow Left)} {scan : ScanStructure}

section

variable (keeps : base.Keeps table)
include keeps

theorem JoinHashTable.Keeps.indexed (indexed : plan.Indexed builds base) : plan.Indexed builds table := by
  rw [keeps]
  exact ⟨indexed.entries, indexed.hasNull, indexed.bitmask, indexed.chains⟩

theorem JoinHashTable.Keeps.entries : table.entries = base.entries := by
  rw [keeps]

theorem JoinHashTable.Keeps.hits (row : ProbeRow Left) : plan.hits table row = plan.hits base row := by
  rw [keeps]
  rfl

theorem JoinHashTable.Keeps.pending :
    ScanStructure.pending plan table probe scan = ScanStructure.pending plan base probe scan := by
  rw [keeps]
  rfl

theorem JoinHashTable.Keeps.opens (entry : Nat) : ScanStructure.Opens plan table probe scan entry ↔
      ScanStructure.Opens plan base probe scan entry := by
  rw [keeps]
  exact Iff.rfl

theorem JoinHashTable.Keeps.resting :
    ScanStructure.Resting plan table probe scan ↔ ScanStructure.Resting plan base probe scan := by
  rw [keeps]
  constructor <;> exact fun resting => resting.imp id fun given => ⟨given.1, ⟨given.2.1.distinct, given.2.1.selected,
      given.2.1.inside, given.2.1.valid, given.2.1.short⟩, given.2.2⟩

theorem JoinHashTable.Keeps.step {marked : JoinHashTable}
    (kept : marked = { table with found := marked.found, correlatedCounts := marked.correlatedCounts }) :
    base.Keeps marked := by
  rw [JoinHashTable.Keeps, kept, keeps]

end

end Keeps

namespace HashJoinTask

variable {Left : Type}

def scanPending (plan : HashJoin) (base : JoinHashTable) (task : HashJoinTask Left) :
    Multiset (JoinedRow Left) :=
  match task.scanStructure with
  | none => 0
  | some scan => if task.childChunk = [] then 0 else scan.pending plan base task.childChunk

def input (plan : HashJoin) (builds : List BuildRow) (base : JoinHashTable)
    (task : HashJoinTask Left) : Multiset (JoinedRow Left) :=
  task.scanPending plan base + plan.emittedAll builds task.child.flatten

def Opens (plan : HashJoin) (base : JoinHashTable) (task : HashJoinTask Left) (entry : Nat) : Prop :=
  (∃ scan, task.scanStructure = some scan ∧ task.childChunk ≠ [] ∧
    scan.Opens plan base task.childChunk entry) ∨
    ∃ row ∈ task.child.flatten, entry ∈ plan.hits base row

structure Ready (plan : HashJoin) (probes : List (ProbeRow Left)) (base : JoinHashTable)
    (task : HashJoinTask Left) : Prop where
  resting : ∀ scan, task.scanStructure = some scan → task.childChunk ≠ [] →
    scan.Resting plan base task.childChunk
  vacant : base.entries = [] → task.scanStructure = none
  chunks : ∀ chunk ∈ task.child, chunk ≠ [] ∧ chunk.length ≤ standardVectorSize ∧
    ∀ row ∈ chunk, row ∈ probes

end HashJoinTask

namespace HashJoin

variable {Left : Type} {plan : HashJoin} {builds : List BuildRow} {probes : List (ProbeRow Left)}
  {base : JoinHashTable} {fits : Prop}

structure Probed (plan : HashJoin) (builds : List BuildRow) (probes : List (ProbeRow Left))
    (base : JoinHashTable) (before : HashJoinGlobal) (task : HashJoinTask Left)
    (rows : List (JoinedRow Left)) (after : HashJoinGlobal) (next : HashJoinTask Left) : Prop where
  ready : next.Ready plan probes base
  keeps : base.Keeps after.hashTable
  counted : ScanStructure.Counted plan builds probes after.hashTable
  position : after.position = before.position
  cached : next.cachedChunk = task.cachedChunk
  balance : (rows : Multiset (JoinedRow Left)) + next.input plan builds base =
    task.input plan builds base
  exhausted : rows = [] → task.input plan builds base = 0
  flags : plan.joinType.isRightOuter = true → ∀ entry,
    (after.hashTable.found entry = true ∨ next.Opens plan base entry) ↔
      (before.hashTable.found entry = true ∨ task.Opens plan base entry)

/-! An empty table -/

section

variable (vacant : plan.keptRows builds = [])
include vacant

theorem partners_vacant (row : ProbeRow Left) : plan.partners builds row = [] := by
  rw [partners, reverse_eq_nil_iff, filter_eq_nil_iff]
  intro build listed joined
  have out := filter_eq_nil_iff.mp vacant build listed
  simp only [joins, Bool.and_eq_true] at joined
  exact out joined.1.1.2

theorem constructEmptyJoinResult_eq (rows : List (ProbeRow Left)) :
    plan.constructEmptyJoinResult (decide ((plan.keptRows builds).length < builds.length)) rows =
      rows.flatMap (plan.emitted builds) := by
  have none := fun row : ProbeRow Left => partners_vacant vacant row
  have each : ∀ f : ProbeRow Left → JoinedRow Left, rows.map f = rows.flatMap fun row => [f row] := by
    intro f
    induction rows with
    | nil => rfl
    | cons row rest ih => rw [map_cons, flatMap_cons, ih, singleton_append]
  unfold constructEmptyJoinResult
  cases type : plan.joinType with
  | inner | right | semi =>
    symm
    rw [flatMap_eq_nil_iff]
    intro row _
    simp [emitted, type, none row]
  | left | outer | anti | single =>
    refine (each _).trans (congrArg rows.flatMap (funext fun row => ?_))
    simp [emitted, type, none row, alone]
  | mark =>
    refine (each _).trans (congrArg rows.flatMap (funext fun row => ?_))
    simp [emitted, type, alone, markOf, vacant]

theorem emitted_vacant {rows : List (ProbeRow Left)} (some' : rows ≠ [])
    (nothing : rows.flatMap (plan.emitted builds) = []) (row : ProbeRow Left) :
    plan.emitted builds row = [] := by
  obtain ⟨first, listed⟩ := exists_mem_of_ne_nil rows some'
  have here := flatMap_eq_nil_iff.mp nothing first listed
  unfold emitted at here ⊢
  cases type : plan.joinType <;> rw [type] at here <;>
    simp_all [partners_vacant vacant]

end

structure Prepared (plan : HashJoin) (builds : List BuildRow) (probes : List (ProbeRow Left))
    (base : JoinHashTable) (fits : Prop) : Prop where
  indexed : plan.Indexed builds base
  clear : plan.ClearGroups (probes.map ProbeRow.keys)
  fit : fits → plan.CountsFit (builds.length + probes.length)

section

variable (prepared : Prepared plan builds probes base fits)
include prepared

theorem Prepared.clearChunk {chunk : List (ProbeRow Left)} (inside : ∀ row ∈ chunk, row ∈ probes) :
    plan.ClearGroups (chunk.map ProbeRow.keys) := by
  intro mark correlated key listed
  obtain ⟨row, there, rfl⟩ := mem_map.mp listed
  exact prepared.clear mark correlated _ (mem_map_of_mem (inside row there))

theorem Prepared.vacant (none : base.entries = []) : plan.keptRows builds = [] := by
  rw [prepared.indexed.entries, map_eq_nil_iff] at none
  exact none

theorem Prepared.hits_vacant (none : base.entries = []) (row : ProbeRow Left) : plan.hits base row = [] :=
  (hits_eq_nil prepared.indexed row).mpr (partners_vacant (prepared.vacant none) row)

end

variable {table : JoinHashTable} {scan : ScanStructure}

theorem opens_none {probe : List (ProbeRow Left)}
    (resting : scan.Resting plan table probe) (nothing : scan.pending plan table probe = 0)
    (entry : Nat) : ¬scan.Opens plan table probe entry := by
  rintro ⟨unfinished, index, listed⟩
  obtain finished | ⟨_, active, _⟩ := resting
  · rw [finished] at unfinished
    cases unfinished
  rw [ScanStructure.pending, unfinished, if_neg Bool.false_ne_true, add_eq_zero,
    ScanStructure.pairs, sum_eq_zero_iff] at nothing
  have more : scan.pointers index ≠ [] := fun none => by
    rw [ScanStructure.remaining, none] at listed
    cases listed
  have here := nothing.1 index (mem_range.mpr (active.inside index more))
  rw [coe_eq_zero, map_eq_nil_iff] at here
  rw [here] at listed
  cases listed

variable {task : HashJoinTask Left} {chunks : List (List (ProbeRow Left))} {global : HashJoinGlobal}

/-- A chunk has been probed once more: without a row the task goes on with the next chunk. -/
theorem Probed.step {child : List (List (ProbeRow Left))} {chunk : List (ProbeRow Left)}
    {before : Multiset (JoinedRow Left)} {opens : Nat → Prop} {rows : List (JoinedRow Left)}
    {marked : JoinHashTable} {later : Except String (Returned Left)}
    (keeps : base.Keeps global.hashTable) (full : base.entries ≠ [])
    (stepped : ScanStructure.Stepped plan builds probes global.hashTable chunk before opens rows scan
      marked) (some' : chunk ≠ [])
    (ready : { task with child, childChunk := chunk, scanStructure := none }.Ready plan probes base)
    (total : task.input plan builds base = before + plan.emittedAll builds child.flatten)
    (opened : ∀ entry, task.Opens plan base entry ↔ opens entry ∨ ∃ row ∈ child.flatten, entry ∈ plan.hits base row)
    (goesOn : Yields fits (fun out => Probed plan builds probes base { global with hashTable := marked }
        { task with child, childChunk := chunk, scanStructure := none } out.1 out.2.1 out.2.2) later) :
    Yields fits (fun out => Probed plan builds probes base global task out.1 out.2.1 out.2.2)
      (if rows.isEmpty = true then later else .ok (rows, { global with hashTable := marked },
        { task with child, childChunk := chunk, scanStructure := some scan })) := by
  have balance := stepped.balance
  rw [keeps.pending] at balance
  have resting := keeps.resting.mp stepped.resting
  have flags (rightOuter : plan.joinType.isRightOuter = true) (entry : Nat) :
      (marked.found entry = true ∨ scan.Opens plan base chunk entry) ↔
        (global.hashTable.found entry = true ∨ opens entry) := by
    simpa only [keeps.opens] using stepped.flags rightOuter entry
  split
  next empty =>
    rw [List.isEmpty_iff] at empty
    have nothing := stepped.exhausted empty
    have closed := opens_none resting (by simpa [nothing, empty] using balance)
    have same : { task with child, childChunk := chunk, scanStructure := none }.input plan builds base =
        task.input plan builds base := by
      rw [total, nothing, input, scanPending]
    refine goesOn.mono fun out probed => ⟨probed.ready, probed.keeps, probed.counted, probed.position,
      probed.cached, probed.balance.trans same,
      fun none => same.symm.trans (probed.exhausted none), fun rightOuter entry => ?_⟩
    have now := flags rightOuter entry
    rw [or_iff_left (closed entry)] at now
    rw [probed.flags rightOuter entry, opened, ← or_assoc, ← now]
    simp [HashJoinTask.Opens]
  next more =>
    refine ⟨⟨fun other there _ => ?_, fun none => absurd none full, ready.chunks⟩,
      keeps.step stepped.kept, stepped.counted, rfl, rfl, ?_,
      fun none => absurd (List.isEmpty_iff.mpr none) more, fun rightOuter entry => ?_⟩
    · cases there
      exact resting
    · rw [total, ← balance, add_assoc, input, scanPending]
      dsimp only
      rw [if_neg some']
    · rw [opened, ← or_assoc, ← flags rightOuter entry]
      simp [HashJoinTask.Opens, some', or_assoc]

variable (prepared : Prepared plan builds probes base fits)

include prepared in
theorem probeChunks_probed
    (ready : { task with child := chunks, scanStructure := none }.Ready plan probes base)
    (vacant : base.entries = [] → task.scanStructure = none)
    (keeps : base.Keeps global.hashTable)
    (counted : ScanStructure.Counted plan builds probes global.hashTable) :
    Yields fits (fun out => Probed plan builds probes base global
        { task with child := chunks, scanStructure := none } out.1 out.2.1 out.2.2)
      (plan.probeChunks global task chunks) := by
  induction chunks generalizing global task with
  | nil =>
    refine ⟨⟨fun scan _ more => absurd rfl more, vacant, ready.chunks⟩, keeps, counted, rfl, rfl,
      ?_, fun _ => rfl, fun _ entry => or_congr_right (by simp [HashJoinTask.Opens])⟩
    cases task.scanStructure <;> rfl
  | cons chunk rest ih =>
    obtain ⟨some', small, inside⟩ := ready.chunks chunk mem_cons_self
    have restChunks := fun other listed => ready.chunks other (mem_cons_of_mem _ listed)
    have total : { task with child := chunk :: rest, scanStructure := none }.input plan builds base =
        plan.emittedAll builds chunk + plan.emittedAll builds rest.flatten := by
      rw [input, flatten_cons, emittedAll_append]
      exact zero_add _
    unfold probeChunks
    split
    next none =>
      rw [List.isEmpty_iff, keeps.entries] at none
      have hasNull : global.hashTable.hasNull = base.hasNull := by rw [keeps]
      have rows := constructEmptyJoinResult_eq (prepared.vacant none) chunk
      rw [← prepared.indexed.hasNull, ← hasNull] at rows
      refine ⟨⟨fun scan there => ?_, vacant, restChunks⟩, keeps, counted, rfl, rfl, ?_, ?_, fun _ entry =>
        or_congr_right (by simp [HashJoinTask.Opens, vacant none, prepared.hits_vacant none])⟩
      · exact absurd ((vacant none).symm.trans there) (by simp)
      · rw [total, rows, input, scanPending]
        rw [vacant none]
        exact congrArg _ (zero_add _)
      · intro nothing
        have each := emitted_vacant (prepared.vacant none) some' (rows.symm.trans nothing)
        rw [total, emittedAll, emittedAll, funext each]
        simp
    next full =>
      rw [List.isEmpty_iff] at full
      have fullBase : base.entries ≠ [] := by rwa [← keeps.entries]
      refine (ScanStructure.next_fresh (keeps.indexed prepared.indexed) full small inside
        (prepared.clearChunk inside) counted prepared.fit).bind fun out stepped => ?_
      obtain ⟨rows, scan, marked⟩ := out
      have next : { task with child := rest, childChunk := chunk, scanStructure := none }.Ready plan probes base :=
        ⟨fun scan there => absurd there.symm (Option.some_ne_none scan), fun _ => rfl, restChunks⟩
      refine Probed.step keeps fullBase stepped some' next total (fun entry => ?_) (ih next
        (fun none => absurd none fullBase) (keeps.step stepped.kept) stepped.counted)
      simp [HashJoinTask.Opens, or_and_right, exists_or, keeps.hits]

include prepared in
theorem probeHashTable_probed
    (ready : task.Ready plan probes base) (keeps : base.Keeps global.hashTable)
    (counted : ScanStructure.Counted plan builds probes global.hashTable) :
    Yields fits (fun out => Probed plan builds probes base global task out.1 out.2.1 out.2.2)
      (plan.probeHashTable global task) := by
  have fresh : { task with scanStructure := none }.Ready plan probes base :=
    ⟨fun scan there => absurd there.symm (Option.some_ne_none scan), fun _ => rfl, ready.chunks⟩
  unfold probeHashTable
  split
  next idle =>
    have same : { task with scanStructure := none } = task := by rw [← idle]
    have probed := probeChunks_probed prepared fresh ready.vacant keeps counted
    rwa [same] at probed
  rename_i scan there
  have full : base.entries ≠ [] := fun none => by
    rw [ready.vacant none] at there
    cases there
  split
  next empty =>
    rw [List.isEmpty_iff] at empty
    refine (probeChunks_probed prepared fresh ready.vacant keeps counted).mono fun out probed => ?_
    have sameInput : { task with scanStructure := none }.input plan builds base = task.input plan builds base := by
      rw [input, input, scanPending, scanPending, there, empty]
      rfl
    refine ⟨probed.ready, probed.keeps, probed.counted, probed.position, probed.cached,
      probed.balance.trans sameInput, fun none => sameInput.symm.trans (probed.exhausted none),
      fun rightOuter entry => (probed.flags rightOuter entry).trans (or_congr_right ?_)⟩
    simp [HashJoinTask.Opens, empty]
  next more =>
    rw [List.isEmpty_iff] at more
    have scanning : task.scanPending plan base = scan.pending plan base task.childChunk := by
      rw [scanPending, there]
      exact if_neg more
    obtain ⟨rows, next, marked, computed, stepped⟩ :=
      ScanStructure.next_resumed (keeps.resting.mpr (ready.resting scan there more)) counted
    rw [computed]
    refine Probed.step keeps full stepped more fresh ?_ ?_ (probeChunks_probed prepared fresh
      (fun _ => rfl) (keeps.step stepped.kept) stepped.counted)
    · rw [input, scanning, keeps.pending]
    · simp [HashJoinTask.Opens, there, more, keeps.opens]

/-! The final scan -/

def unflaggedBefore (found : Nat → Bool) (position entry : Nat) : Nat :=
  ((range' position (entry - position)).filter fun other => !found other).length

theorem range'_split {first middle last : Nat} (early : first ≤ middle) (late : middle ≤ last) :
    range' first (last - first) = range' first (middle - first) ++ range' middle (last - middle) := by
  rw [show last - first = (middle - first) + (last - middle) by omega, ← range'_append_1, Nat.add_sub_of_le early]

theorem scanUnmatched_spec {found : Nat → Bool} {count fuel position : Nat} {entries : List Nat}
    (enough : count - position ≤ fuel) (room : entries.length < standardVectorSize) :
    ∃ unmatched next, scanUnmatched found count fuel position entries = (entries ++ unmatched, next) ∧
      position ≤ next ∧ (position ≤ count → next ≤ count) ∧
      unmatched = (range' position (next - position)).filter (fun entry => !found entry) ∧
      (entries ++ unmatched).length ≤ standardVectorSize ∧
      ((entries ++ unmatched).length < standardVectorSize → count ≤ next) := by
  induction fuel generalizing position entries with
  | zero =>
    exact ⟨[], position, by simp [scanUnmatched], le_refl _, id, by simp, by simpa using le_of_lt room, fun _ => by omega⟩
  | succ fuel ih =>
    unfold scanUnmatched
    split
    next below =>
      have range : ∀ next, position + 1 ≤ next → range' position (next - position) =
          position :: range' (position + 1) (next - (position + 1)) := by
        intro next above
        rw [range'_split (Nat.le_succ _) above]
        simp
      split
      next flagged =>
        obtain ⟨unmatched, next, computed, above, within, listed, short, ended⟩ :=
          @ih (position + 1) entries (by omega) room
        refine ⟨unmatched, next, computed, by omega, fun _ => within (by omega), ?_, short, ended⟩
        rw [range next above, filter_cons, if_neg (by simp [flagged]), listed]
      rename_i unflagged
      split
      next last =>
        refine ⟨[position], position + 1, rfl, Nat.le_succ _, fun _ => below, ?_, ?_, ?_⟩
        · rw [range _ (le_refl _), Nat.sub_self, filter_cons, if_pos (by simpa using unflagged)]
          rfl
        · rw [length_append]
          exact le_of_eq last
        · rw [length_append]
          exact fun short => absurd last (ne_of_lt short)
      next more =>
        have size : (entries ++ [position]).length = entries.length + 1 := length_append
        obtain ⟨unmatched, next, computed, above, within, listed, short, ended⟩ :=
          @ih (position + 1) (entries ++ [position]) (by omega) (by rw [size]; omega)
        rw [append_assoc] at computed short ended
        refine ⟨position :: unmatched, next, computed, by omega, fun _ => within (by omega), ?_, short, ended⟩
        rw [range next above, filter_cons, if_pos (by simpa using unflagged), listed]
    next above =>
      exact ⟨[], position, by simp, le_refl _, id, by simp, by simpa using le_of_lt room, fun _ => not_lt.mp above⟩

def hit (plan : HashJoin) (base : JoinHashTable) (probes : List (ProbeRow Left)) (entry : Nat) :
    Bool :=
  probes.any fun row => decide (entry ∈ plan.hits base row)

def unmatchedRow (plan : HashJoin) (base : JoinHashTable) (entry : Nat) : JoinedRow Left where
  left := none
  right := (base.entries[entry]?).map JoinEntry.source
  columns := gatherKey plan.buildTypes (((base.entries[entry]?).map JoinEntry.payload).getD [])

def unmatchedFrom (plan : HashJoin) (base : JoinHashTable) (probes : List (ProbeRow Left))
    (position : Nat) : Multiset (JoinedRow Left) :=
  if plan.joinType.isRightOuter then
    (((range' position (base.entries.length - position)).filter fun entry =>
      !plan.hit base probes entry).map (plan.unmatchedRow base) : List (JoinedRow Left))
  else 0

theorem scanFullOuter_spec {position : Nat} (keeps : base.Keeps table)
    (bounded : position ≤ base.entries.length) (rightOuter : plan.joinType.isRightOuter = true)
    (exact' : ∀ entry, position ≤ entry → table.found entry = false →
      unflaggedBefore table.found position entry < standardVectorSize → plan.hit base probes entry = false)
    (sound : ∀ entry, table.found entry = true → plan.hit base probes entry = true) :
    ∃ (rows : List (JoinedRow Left)) (next : Nat),
      plan.scanFullOuter table position = (rows, next) ∧ next ≤ base.entries.length ∧
      ↑rows + plan.unmatchedFrom base probes next = plan.unmatchedFrom base probes position ∧
      (rows = [] → plan.unmatchedFrom base probes position = 0) := by
  obtain ⟨unmatched, next, computed, above, within, listed, short, ended⟩ := @scanUnmatched_spec
    table.found table.entries.length (table.entries.length - position) position [] (le_refl _)
    (by decide)
  rw [nil_append] at computed short ended
  rw [keeps.entries] at within ended
  have agree : unmatched = (range' position (next - position)).filter fun entry =>
      !plan.hit base probes entry := by
    rw [listed]
    apply filter_congr
    intro entry inside
    obtain ⟨from', below⟩ := mem_range'_1.mp inside
    cases flagged : table.found entry with
    | true => rw [sound entry flagged]
    | false =>
      rw [exact' entry from' flagged]
      -- the entries in front of this one and the entry itself are among those returned
      rw [listed, range'_split from' (by omega : entry ≤ next), show next - entry = next - (entry + 1) + 1 by omega,
        range'_succ, filter_append, filter_cons, if_pos (by simp [flagged]), length_append, length_cons] at short
      unfold unflaggedBefore
      omega
  have rows : (unmatched.filterMap fun entry => (table.entries[entry]?).map fun stored =>
      ({ left := none, right := some stored.source,
         columns := gatherKey plan.buildTypes stored.payload } : JoinedRow Left)) =
      unmatched.map (plan.unmatchedRow base) := by
    rw [← filterMap_eq_map]
    apply filterMap_congr
    intro entry inside
    rw [agree] at inside
    have below : entry < base.entries.length := by
      have := mem_range'_1.mp (mem_of_mem_filter inside)
      omega
    simp [keeps.entries, getElem?_eq_getElem below, unmatchedRow]
  have balance : ↑(unmatched.map (plan.unmatchedRow base) : List (JoinedRow Left)) + plan.unmatchedFrom base probes next =
      plan.unmatchedFrom base probes position := by
    rw [unmatchedFrom, if_pos rightOuter, unmatchedFrom, if_pos rightOuter, range'_split above (within bounded),
      filter_append, map_append, ← coe_add, agree]
  refine ⟨_, next, congrArg (fun out : List Nat × Nat => (out.1.filterMap _, out.2)) computed, within bounded, ?_, ?_⟩
  · rw [rows]
    exact balance
  · intro none
    rw [rows, map_eq_nil_iff] at none
    rw [← balance, none, unmatchedFrom, if_pos rightOuter, Nat.sub_eq_zero_of_le (ended (by rw [none]; decide))]
    rfl

def pending (plan : HashJoin) (builds : List BuildRow) (base : JoinHashTable)
    (task : HashJoinTask Left) : Multiset (JoinedRow Left) :=
  (task.cachedChunk : Multiset (JoinedRow Left)) + task.input plan builds base

structure Waiting (plan : HashJoin) (probes : List (ProbeRow Left)) (base : JoinHashTable)
    (task : HashJoinTask Left) : Prop where
  ready : task.Ready plan probes base
  few : task.cachedChunk.length < standardVectorSize - 64
  idle : base.entries = [] → plan.joinType = .inner ∨ plan.joinType = .semi → task.cachedChunk = []

structure Shared (plan : HashJoin) (builds : List BuildRow) (probes : List (ProbeRow Left))
    (base : JoinHashTable) (global : HashJoinGlobal) : Prop where
  keeps : base.Keeps global.hashTable
  counted : ScanStructure.Counted plan builds probes global.hashTable
  bounded : global.position ≤ base.entries.length

structure Called (plan : HashJoin) (builds : List BuildRow) (probes : List (ProbeRow Left))
    (base : JoinHashTable) (before : HashJoinGlobal) (task : HashJoinTask Left)
    (rows : List (JoinedRow Left)) (after : HashJoinGlobal) (next : HashJoinTask Left) : Prop where
  waiting : Waiting plan probes base next
  shared : Shared plan builds probes base after
  flags : plan.joinType.isRightOuter = true → ∀ entry,
    (after.hashTable.found entry = true ∨ next.Opens plan base entry) ↔
      (before.hashTable.found entry = true ∨ task.Opens plan base entry)
  balance : (rows : Multiset (JoinedRow Left)) +
      (pending plan builds base next + plan.unmatchedFrom base probes after.position) =
    pending plan builds base task + plan.unmatchedFrom base probes before.position
  exhausted : rows = [] →
    pending plan builds base task + plan.unmatchedFrom base probes before.position = 0
  fewer : plan.unmatchedFrom base probes after.position ≤
    plan.unmatchedFrom base probes before.position

section Probed

variable {rows returned cached : List (JoinedRow Left)} {after : HashJoinGlobal}
  {next : HashJoinTask Left} (probed : Probed plan builds probes base global task rows after next)
include probed

/-- The rows of the probe and of the cache are returned or cached. -/
theorem Probed.cached_balance (split : (returned : Multiset (JoinedRow Left)) + cached = ↑(task.cachedChunk ++ rows)) :
    ↑returned + (pending plan builds base { next with cachedChunk := cached } +
          plan.unmatchedFrom base probes after.position) =
      pending plan builds base task + plan.unmatchedFrom base probes global.position := by
  rw [pending, pending, ← probed.balance, probed.position, ← add_assoc, ← add_assoc, split, ← coe_add, ← add_assoc]
  rfl

theorem Probed.shared (shared : Shared plan builds probes base global) : Shared plan builds probes base after :=
  ⟨probed.keeps, probed.counted, probed.position ▸ shared.bounded⟩

variable (busy : base.entries = [] → ¬(plan.joinType = .inner ∨ plan.joinType = .semi))
  (few : cached.length < standardVectorSize - 64)
include busy few

theorem Probed.waiting : Waiting plan probes base { next with cachedChunk := cached } :=
  ⟨⟨probed.ready.resting, probed.ready.vacant, probed.ready.chunks⟩, few, fun none type => absurd type (busy none)⟩

theorem Probed.called (shared : Shared plan builds probes base global)
    (split : (returned : Multiset (JoinedRow Left)) + cached = ↑(task.cachedChunk ++ rows))
    (exhausted : returned = [] → pending plan builds base task + plan.unmatchedFrom base probes global.position = 0) :
    Called plan builds probes base global task returned after { next with cachedChunk := cached } :=
  ⟨probed.waiting busy few, probed.shared shared, probed.flags, probed.cached_balance split, exhausted,
    by rw [probed.position]⟩

end Probed

include prepared in
theorem input_closed
    (ready : task.Ready plan probes base) (rightOuter : plan.joinType.isRightOuter = true)
    (nothing : task.input plan builds base = 0) (entry : Nat) : ¬task.Opens plan base entry := by
  rw [input, add_eq_zero] at nothing
  rintro (⟨scan, there, more, opened⟩ | ⟨row, inside, found⟩)
  · have given := nothing.1
    rw [scanPending, there] at given
    exact opens_none (ready.resting scan there more) ((if_neg more).symm.trans given) entry opened
  have given := nothing.2
  rw [emittedAll, coe_eq_zero, flatMap_eq_nil_iff] at given
  have none : plan.partners builds row = [] := by
    have here := given row inside
    rw [emitted] at here
    cases type : plan.joinType with
    | right =>
      rw [type] at here
      exact map_eq_nil_iff.mp here
    | outer =>
      rw [type] at here
      exact map_eq_nil_iff.mp (append_eq_nil_iff.mp here).1
    | _ =>
      rw [type] at rightOuter
      cases rightOuter
  rw [(hits_eq_nil prepared.indexed row).mpr none] at found
  cases found

def Calm (found : Nat → Bool) (position : Nat) (elsewhere : Nat → Prop) : Prop :=
  ∀ entry, elsewhere entry → found entry = false → position ≤ entry →
    standardVectorSize ≤ unflaggedBefore found position entry

section

variable (prepared : Prepared plan builds probes base fits)
include prepared

variable {task : HashJoinTask Left} {global : HashJoinGlobal} {elsewhere : Nat → Prop}

section

variable (waiting : Waiting plan probes base task) (shared : Shared plan builds probes base global)
  (flagged : plan.joinType.isRightOuter = true → ∀ entry,
    (global.hashTable.found entry = true ∨ task.Opens plan base entry ∨ elsewhere entry) ↔
      plan.hit base probes entry = true)
  (calm : plan.joinType.isRightOuter = true → pending plan builds base task = 0 →
    Calm global.hashTable.found global.position elsewhere)
include waiting shared flagged calm

theorem fillCache_called {fuel : Nat} (busy : base.entries = [] → ¬(plan.joinType = .inner ∨ plan.joinType = .semi))
    (enough : standardVectorSize - 64 ≤ task.cachedChunk.length + fuel) :
    Yields fits (fun out => Called plan builds probes base global task out.1 out.2.1 out.2.2)
      (plan.fillCache fuel global task) := by
  induction fuel generalizing global task with
  | zero => exact absurd waiting.few (not_lt.mpr enough)
  | succ fuel ih =>
    refine (probeHashTable_probed prepared waiting.ready shared.keeps shared.counted).bind fun out probed => ?_
    obtain ⟨rows, after, next⟩ := out
    dsimp only at probed ⊢
    split
    next none =>
      rw [List.isEmpty_iff] at none
      subst none
      have nothing := probed.exhausted rfl
      split
      next uncached =>
        rw [List.isEmpty_iff] at uncached
        have empty : task.cachedChunk = [] := probed.cached.symm.trans uncached
        have given : pending plan builds base task = 0 := by
          rw [pending, empty, nothing]
          rfl
        split
        next rightOuter =>
          have nothingLater : next.input plan builds base = 0 := by
            simpa [nothing] using probed.balance
          have closed := input_closed prepared waiting.ready rightOuter nothing
          have closedLater := input_closed prepared probed.ready rightOuter nothingLater
          have sameFound : after.hashTable.found = global.hashTable.found := by
            funext entry
            have flags := probed.flags rightOuter entry
            rw [or_iff_left (closed entry), or_iff_left (closedLater entry)] at flags
            exact Bool.eq_iff_iff.mpr flags
          obtain ⟨unmatched, position, computed, within, balance, exhausted⟩ :=
            @scanFullOuter_spec Left plan probes base after.hashTable global.position probed.keeps
              shared.bounded rightOuter (fun entry from' unflagged few => by
                rw [sameFound] at unflagged few
                by_contra found
                have known := (flagged rightOuter entry).mpr (by simpa using found)
                obtain found | opened | other := known
                · rw [unflagged] at found
                  cases found
                · exact closed entry opened
                · exact absurd (calm rightOuter given entry other unflagged from') (not_le.mpr few))
              fun entry found => (flagged rightOuter entry).mp (.inl (sameFound ▸ found))
          rw [probed.position, computed]
          refine ⟨⟨probed.ready, by rw [uncached]; exact Nat.zero_lt_succ _,
            fun none type => absurd type (busy none)⟩, ⟨probed.keeps, probed.counted, within⟩,
            probed.flags, ?_, ?_, ?_⟩
          · rw [pending, uncached, nothingLater, given, zero_add]
            exact (congrArg _ (zero_add _)).trans balance
          · intro stopped
            rw [given, exhausted stopped]
            rfl
          · rw [← balance]
            exact Multiset.le_add_left _ _
        next plain =>
          have same : { next with cachedChunk := [] } = next := by rw [← uncached]
          rw [← same]
          refine probed.called busy (Nat.zero_lt_succ _) shared (by simp [empty]) fun _ => ?_
          rw [given, unmatchedFrom, if_neg plain]
          rfl
      next cached =>
        refine probed.called busy (Nat.zero_lt_succ _) shared (by simp [probed.cached]) fun stopped => ?_
        exact absurd (List.isEmpty_iff.mpr stopped) cached
    next some' =>
      rw [List.isEmpty_iff] at some'
      split
      · split
        · refine probed.called busy (Nat.zero_lt_succ _) shared (by simp [probed.cached]) fun stopped => ?_
          exact absurd (append_eq_nil_iff.mp stopped).2 some'
        rename_i fewer
        have more : 0 < rows.length := length_pos_iff.mpr some'
        rw [probed.cached] at fewer ⊢
        have kept := @Probed.cached_balance _ _ _ _ _ _ _ _ [] (task.cachedChunk ++ rows) _ _ probed (zero_add _)
        rw [Multiset.coe_nil, Multiset.zero_add] at kept
        refine (ih (probed.waiting busy (not_le.mp fewer)) (probed.shared shared) ?_ ?_
          (by rw [length_append]; omega)).mono fun out called => ?_
        · intro rightOuter entry
          rw [← flagged rightOuter entry, ← or_assoc, ← or_assoc]
          exact or_congr_left (probed.flags rightOuter entry)
        · intro _ zero
          simp [pending, some'] at zero
        refine ⟨called.waiting, called.shared, fun rightOuter entry =>
          (called.flags rightOuter entry).trans (probed.flags rightOuter entry),
          called.balance.trans kept, fun stopped => kept.symm.trans (called.exhausted stopped), ?_⟩
        rw [← probed.position]
        exact called.fewer
      · have same : { next with cachedChunk := task.cachedChunk } = next := by rw [← probed.cached]
        have called := probed.called busy waiting.few shared (by rw [add_comm, coe_add])
          fun stopped => absurd stopped some'
        rwa [same] at called

theorem getChunk_called : Yields fits (fun out => Called plan builds probes base global task out.1 out.2.1 out.2.2)
      (plan.getChunk global task) := by
  unfold getChunk
  split
  next stop =>
    obtain ⟨none, type⟩ := stop
    rw [List.isEmpty_iff, shared.keeps.entries] at none
    have each : ∀ row : ProbeRow Left, plan.emitted builds row = [] := by
      intro row
      have alone := partners_vacant (prepared.vacant none) row
      rcases type with same | same <;> simp [emitted, same, alone]
    have plain : ¬plan.joinType.isRightOuter = true := by
      rcases type with same | same <;> rw [same] <;> exact Bool.false_ne_true
    have nothing : pending plan builds base task + plan.unmatchedFrom base probes global.position = 0 := by
      rw [pending, waiting.idle none type, input, scanPending,
        waiting.ready.vacant none, emittedAll, funext each, unmatchedFrom, if_neg plain]
      simp
    exact ⟨waiting, shared, fun _ _ => Iff.rfl, zero_add _, fun _ => nothing, le_refl _⟩
  next go =>
    refine fillCache_called prepared waiting shared flagged calm (fun none type => go ⟨?_, type⟩) (by omega)
    rw [List.isEmpty_iff, shared.keeps.entries]
    exact none

end

theorem drain_rows {fuel : Nat} (waiting : Waiting plan probes base task)
    (shared : Shared plan builds probes base global)
    (flagged : plan.joinType.isRightOuter = true → ∀ entry,
      (global.hashTable.found entry = true ∨ task.Opens plan base entry) ↔
        plan.hit base probes entry = true) (enough : fits → (pending plan builds base task +
      plan.unmatchedFrom base probes global.position).card < fuel) :
    Yields fits (fun rows : List (JoinedRow Left) => ↑rows =
        pending plan builds base task + plan.unmatchedFrom base probes global.position)
      (plan.drain fuel global task) := by
  induction fuel generalizing global task with
  | zero => exact fun fit => absurd (enough fit) (Nat.not_lt_zero _)
  | succ fuel ih =>
    refine (@getChunk_called Left plan builds probes base fits prepared task global (fun _ => False)
      waiting shared (by simpa using flagged) fun _ _ entry other => other.elim).bind
      fun out called => ?_
    obtain ⟨rows, after, next⟩ := out
    dsimp only at called ⊢
    split
    next none =>
      exact (called.exhausted (List.isEmpty_iff.mp none)).symm
    rename_i more
    rw [List.isEmpty_iff] at more
    refine (ih called.waiting called.shared (fun rightOuter entry =>
      (called.flags rightOuter entry).trans (flagged rightOuter entry)) fun fit => ?_).bind
      fun later given => ?_
    · have card := congrArg Multiset.card called.balance
      have positive : 0 < rows.length := length_pos_iff.mpr more
      have := enough fit
      rw [Multiset.card_add, Multiset.coe_card] at card
      omega
    · change ((rows ++ later : List (JoinedRow Left)) : Multiset (JoinedRow Left)) = _
      rw [← coe_add, given, called.balance]

end

def total (plan : HashJoin) (builds : List BuildRow) (base : JoinHashTable)
    (probes : List (ProbeRow Left)) : Multiset (JoinedRow Left) :=
  plan.emittedAll builds probes + plan.unmatchedFrom base probes 0

theorem startTask_waiting (shaped : ∀ chunk ∈ chunks, chunk ≠ [] ∧ chunk.length ≤ standardVectorSize)
    (inside : ∀ row ∈ chunks.flatten, row ∈ probes) :
    Waiting plan probes base (startTask chunks) where
  ready := ⟨fun scan there => absurd there.symm (Option.some_ne_none scan), fun _ => rfl, fun chunk listed =>
    ⟨(shaped chunk listed).1, (shaped chunk listed).2, fun row there =>
      inside row (mem_flatten.mpr ⟨chunk, listed, there⟩)⟩⟩
  few := Nat.zero_lt_succ _
  idle := fun _ _ => rfl

theorem startTask_opens {chunks : List (List (ProbeRow Left))} {entry : Nat} :
    (startTask chunks).Opens plan base entry ↔ plan.hit base chunks.flatten entry = true := by
  rw [hit, any_eq_true]
  simp only [HashJoinTask.Opens, startTask, decide_eq_true_iff, reduceCtorEq, false_and, exists_false, false_or]

theorem startTask_pending (chunks : List (List (ProbeRow Left))) :
    pending plan builds base (startTask chunks) = plan.emittedAll builds chunks.flatten :=
  (zero_add _).trans (zero_add _)

structure Built (plan : HashJoin) (builds : List BuildRow) (probes : List (ProbeRow Left))
    (fits : Prop) (global : HashJoinGlobal) : Prop where
  prepared : Prepared plan builds probes global.hashTable fits
  shared : Shared plan builds probes global.hashTable global
  unflagged : ∀ entry, global.hashTable.found entry = false
  start : global.position = 0

theorem buildAll_built {chunks : List (List BuildRow)} (small : ∀ chunk ∈ chunks, chunk.length ≤ standardVectorSize)
    (clearBuild : plan.ClearGroups (chunks.flatten.map BuildRow.keys))
    (clear : plan.ClearGroups (probes.map ProbeRow.keys))
    (fit : fits → plan.CountsFit (chunks.flatten.length + probes.length)) :
    Yields fits (Built plan chunks.flatten probes fits) (plan.buildAll chunks) := by
  refine (Gathered.create.buildChunks small clearBuild fun room mark correlated => ?_).bind fun table gathered => ?_
  · have := fit room mark correlated
    rw [nil_append]
    omega
  rw [nil_append] at gathered
  obtain ⟨indexed, found, counts⟩ := gathered.finalize
  refine ⟨⟨indexed, clear, fit⟩, ⟨rfl, fun mark correlated => ?_, Nat.zero_le _⟩, fun entry => ?_, rfl⟩
  · change plan.CountsHold _ _ (finalize table).correlatedCounts
    rw [counts]
    exact countsHold_of_represents (gathered.counts mark correlated)
  · exact congrFun found entry

theorem Built.drain {fuel : Nat} (built : Built plan builds chunks.flatten fits global)
    (shaped : ∀ chunk ∈ chunks, chunk ≠ [] ∧ chunk.length ≤ standardVectorSize)
    (enough : fits → (plan.total builds global.hashTable chunks.flatten).card < fuel) :
    Yields fits (fun rows : List (JoinedRow Left) => ↑rows = plan.total builds global.hashTable chunks.flatten)
      (plan.drain fuel global (startTask chunks)) := by
  have all : pending plan builds global.hashTable (startTask chunks) +
      plan.unmatchedFrom global.hashTable chunks.flatten global.position =
        plan.total builds global.hashTable chunks.flatten := by
    rw [startTask_pending, built.start, total]
  rw [← all] at enough ⊢
  refine drain_rows built.prepared (startTask_waiting shaped fun _ => id) built.shared ?_ enough
  intro _ entry
  rw [built.unflagged, startTask_opens]
  simp

end HashJoin

end GuinsooDB
