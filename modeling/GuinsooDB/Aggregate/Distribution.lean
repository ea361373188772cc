import Mathlib.Algebra.BigOperators.Group.List.Basic
import GuinsooDB.Aggregate.Grouping
import GuinsooDB.Aggregate.Partitionable

/-!
Hash aggregation over all threads: the output has one group for each key exactly when no key
holds a value that stands for NULL and no vector of hashes sends its rows astray.
-/

namespace GuinsooDB

open Outcome AggregateHashTable List Multiset Function

namespace RadixPartitionInfo

theorem partitionOf_lt (info : RadixPartitionInfo) {hash : Nat} : info.partitionOf hash < info.nPartitions := by
  have positive : 0 < 2 ^ info.radixBits := Nat.two_pow_pos info.radixBits
  have masked : hash &&& info.radixMask ≤ (2 ^ info.radixBits - 1) * 2 ^ radixShift := by
    rw [← Nat.shiftLeft_eq]
    exact Nat.and_le_right
  rw [partitionOf, nPartitions, Nat.shiftRight_eq_div_pow, Nat.div_lt_iff_lt_mul (by decide)]
  have shifted : 0 < 2 ^ radixShift := by decide
  calc hash &&& info.radixMask ≤ (2 ^ info.radixBits - 1) * 2 ^ radixShift := masked
    _ < 2 ^ info.radixBits * 2 ^ radixShift := Nat.mul_lt_mul_of_pos_right (Nat.sub_lt positive (by decide)) shifted

end RadixPartitionInfo

namespace PartitionableHashTable

variable {Row State : Type} {context : Aggregation Row State} {result : Multiset Row → State}
  {list : List (AggregateHashTable State)} {table : PartitionableHashTable State}
  {rows others : Multiset (Key × Row)} {info : RadixPartitionInfo} {fits : Prop}

inductive Lists (context : Aggregation Row State) (result : Multiset Row → State) :
    List (AggregateHashTable State) → Multiset (Key × Row) → Prop
  | nil : Lists context result [] 0
  | cons {first : AggregateHashTable State} {list : List (AggregateHashTable State)}
      {rows others : Multiset (Key × Row)} (head : Represents context result first rows)
      (tail : Lists context result list others) : Lists context result (first :: list) (rows + others)

theorem room_of_le (fewer : others ≤ rows) (fit : fits → rows.card + standardVectorSize ≤ capacityLimit context)
    (given : fits) : others.card + standardVectorSize ≤ capacityLimit context :=
  (Nat.add_le_add_right (card_le_card fewer) _).trans (fit given)

variable (lists : Lists context result list rows)

include lists in
theorem Lists.concat {last : AggregateHashTable State} (represents : Represents context result last others) :
    Lists context result (list ++ [last]) (rows + others) := by
  induction lists with
  | nil =>
    rw [zero_add, ← add_zero others]
    exact Lists.cons represents .nil
  | cons head tail ih =>
    rw [add_assoc]
    exact Lists.cons head ih

theorem Lists.last {last : AggregateHashTable State} (lists : Lists context result (list ++ [last]) rows) :
    ∃ early late, Lists context result list early ∧ Represents context result last late ∧ early + late = rows := by
  induction list generalizing rows with
  | nil =>
    cases lists with
    | cons head tail =>
      cases tail
      exact ⟨0, _, .nil, head, by rw [zero_add, add_zero]⟩
  | cons first rest ih =>
    cases lists with
    | cons head tail =>
      obtain ⟨early, late, before, after, rfl⟩ := ih tail
      exact ⟨_, late, .cons head before, after, add_assoc _ _ _⟩

include lists in
theorem Lists.openTable {count : Nat} (small : count ≤ standardVectorSize) :
    ∃ initial last early late, openTable context list count = initial ++ [last] ∧
      Lists context result initial early ∧ Represents context result last late ∧
      early + late = rows ∧ (standardVectorSize ≤ capacityLimit context →
        last.groups.length + count ≤ last.maxCapacity context) := by
  have fresh : ∃ initial last early late, list ++ [AggregateHashTable.create .width32] = initial ++ [last] ∧
      Lists context result initial early ∧ Represents context result last late ∧
      early + late = rows ∧ (standardVectorSize ≤ capacityLimit context →
        last.groups.length + count ≤ last.maxCapacity context) :=
    ⟨list, _, rows, 0, rfl, lists, Represents.create context result .width32,
      add_zero rows, fun limited => (Represents.create context result .width32).fits (by rw [card_zero]; omega)⟩
  rcases eq_nil_or_concat list with rfl | ⟨initial, last, rfl⟩
  · exact fresh
  unfold PartitionableHashTable.openTable
  rw [concat_eq_append] at lists fresh ⊢
  rw [getLast?_concat]
  dsimp only
  split
  · exact fresh
  next room =>
    obtain ⟨early, late, before, represents, sum⟩ := lists.last
    exact ⟨initial, last, early, late, rfl, before, represents, sum, fun _ => not_lt.mp room⟩

include lists in
theorem Lists.head : ∃ own others, Represents context result (list.headD (AggregateHashTable.create .width32)) own ∧
      Lists context result (list ++ [AggregateHashTable.create .width32]).tail others ∧
      own + others = rows := by
  have fresh := Represents.create context result .width32
  cases lists with
  | nil => exact ⟨0, 0, fresh, .nil, rfl⟩
  | cons head tail =>
    refine ⟨_, _, head, tail.concat fresh, ?_⟩
    rw [add_zero]

def partOf (context : Aggregation Row State) (info : RadixPartitionInfo)
    (rows : Multiset (Key × Row)) (index : Nat) : Multiset (Key × Row) :=
  rows.filter fun row => info.partitionOf (keyHash context row.1) = index

/-- The step of the loop over the unpartitioned tables. -/
def splitTable (context : Aggregation Row State) (info : RadixPartitionInfo)
    (radix : Nat → List (AggregateHashTable State)) (split : AggregateHashTable State) :
    Except String (Nat → List (AggregateHashTable State)) := do
  let firsts ← split.partition context info.partitionOf
    (fun partition => (radix partition).headD (AggregateHashTable.create .width32)) info.nPartitions
  (List.range info.nPartitions).foldlM (fun radix partition => do
    let list ← pushTable context (firsts partition) (radix partition)
    return update radix partition list) radix

section

variable (accumulates : Accumulates context.function result)
include accumulates

include lists in
theorem Lists.addChunk {chunk : List (Key × Row)}
    {hashes : Nat → Nat} (small : chunk.length ≤ standardVectorSize)
    (clear : ∀ row ∈ chunk, UnambiguousKey context.groupTypes row.1)
    (hashed : ∀ (index : Nat) (row : Key × Row), chunk[index]? = some row → hashes index = keyHash context row.1)
    (fit : fits → standardVectorSize ≤ capacityLimit context) :
    Yields fits (fun added => Lists context result added ((chunk : Multiset (Key × Row)) + rows))
      (listAddChunk context list chunk hashes) := by
  obtain ⟨initial, last, early, late, opened, before, represents, rfl, room⟩ := lists.openTable small
  unfold listAddChunk
  dsimp only
  rw [opened, getLast?_concat, dropLast_concat]
  refine (represents.addChunk accumulates small clear hashed fun given => room (fit given)).bind
    fun added represented => ?_
  rw [← add_assoc, add_comm _ early, add_assoc]
  exact before.concat represented

theorem Lists.combine (lists : Lists context result list others) {final : AggregateHashTable State}
    (represents : Represents context result final rows)
    (fit : fits → (others + rows).card + standardVectorSize ≤ capacityLimit context) :
    Yields fits (fun combined => Represents context result combined (others + rows))
      (list.foldlM (AggregateHashTable.combine context) final) := by
  induction lists generalizing final rows with
  | nil =>
    rw [zero_add]
    exact represents
  | cons head tail ih =>
    rw [add_right_comm, add_comm (_ + rows)] at fit ⊢
    exact (represents.combine head accumulates (room_of_le (le_add_left _ _) fit)).bind
      fun combined merged => ih merged fit

include lists in
theorem Lists.flushAll
    (fit : fits → rows.card + standardVectorSize ≤ capacityLimit context) :
    Yields fits (fun flushed => Lists context result flushed rows)
      (list.mapM fun later => AggregateHashTable.flushMove context later []) := by
  induction lists with
  | nil => exact Lists.nil
  | cons head tail ih =>
    rw [mapM_cons]
    have nothing : Carries context result [] ([] : List (Key × Multiset Row)) := ⟨rfl, by simp, by simp⟩
    refine (head.flushMove accumulates (Nat.zero_le _) nothing fun given => le_trans (Nat.add_le_add_left
      (Nat.zero_le _) _) (room_of_le (le_add_right _ _) fit given)).bind fun moved represented => ?_
    refine (ih (room_of_le (le_add_left _ _) fit)).bind fun flushed rest => ?_
    rw [carried, map_nil, sum_nil, zero_add] at represented
    exact Lists.cons represented rest

theorem Lists.splitTable {split : AggregateHashTable State}
    {radix : Nat → List (AggregateHashTable State)} {base : Nat → Multiset (Key × Row)}
    (represents : Represents context result split rows)
    (lists : ∀ index, Lists context result (radix index) (base index))
    (fit : fits → ∀ index, (rows + base index).card + standardVectorSize ≤ capacityLimit context) :
    Yields fits (fun later => ∀ index, (index < info.nPartitions →
          Lists context result (later index) (partOf context info rows index + base index)) ∧
        (info.nPartitions ≤ index → later index = radix index))
      (splitTable context info radix split) := by
  choose own others heads tails sums using fun index => (lists index).head
  obtain rfl : (fun index => own index + others index) = base := funext sums
  simp only [← add_assoc] at fit ⊢
  refine (represents.partition accumulates heads fun given index => room_of_le (le_add_right _ _)
    (fit · index) given).bind fun firsts parts => ?_
  refine @Yields.updateEach String _ fits (fun index list => pushTable context (firsts index) list)
    (fun index list => Lists context result list (partOf context info rows index + own index + others index))
    radix info.nPartitions fun index inside => ?_
  exact ((tails index).flushAll accumulates (room_of_le (le_add_left _ _) (fit · index))).bind
    fun rest flushed => Lists.cons (parts index inside) flushed

theorem Lists.partition (lists : Lists context result table.unpartitionedHts rows)
    (unused : table.radixPartitionedHts = fun _ => [])
    (fit : fits → rows.card + standardVectorSize ≤ capacityLimit context) :
    Yields fits (fun split => split.isPartitioned = true ∧ split.hashes = table.hashes ∧ ∀ index < info.nPartitions,
          Lists context result (split.radixPartitionedHts index) (partOf context info rows index))
      (table.partition context info) := by
  suffices looped : ∀ {list : List (AggregateHashTable State)} {rows : Multiset (Key × Row)}
      {radix : Nat → List (AggregateHashTable State)} {base : Nat → Multiset (Key × Row)},
      Lists context result list rows → (∀ index, Lists context result (radix index) (base index)) →
      (fits → ∀ index, (rows + base index).card + standardVectorSize ≤ capacityLimit context) →
      Yields fits (fun later => ∀ index < info.nPartitions,
          Lists context result (later index) (partOf context info rows index + base index))
        (list.foldlM (PartitionableHashTable.splitTable context info) radix) by
    refine (looped lists (fun _ => by rw [unused]; exact .nil) fun given index => ?_).bind
      fun radix all => ⟨rfl, rfl, fun index inside => ?_⟩
    · rw [add_zero]
      exact fit given
    · have there := all index inside
      rwa [add_zero] at there
  intro list rows radix base lists
  induction lists generalizing radix base with
  | nil =>
    intro given _ index inside
    rw [partOf, filter_zero, zero_add]
    exact given index
  | cons head tail ih =>
    rename_i first rest own others
    intro given fit
    simp only [add_comm own others, add_assoc] at fit
    refine (Lists.splitTable accumulates head given fun room index => room_of_le (le_add_left _ _)
      (fit · index) room).bind fun later moved => ?_
    refine (@ih later (fun index => (if index < info.nPartitions
      then partOf context info own index else 0) + base index) (fun index => ?_)
      fun room index => ?_).mono fun final all index inside => ?_
    · split
      · exact (moved index).1 ‹_›
      · rw [(moved index).2 (not_lt.mp ‹_›), zero_add]
        exact given index
    · refine room_of_le (add_le_add_right (add_le_add_left ?_ _) _) (fit · index) room
      split
      · exact filter_le _ _
      · exact zero_le _
    · have there := all index inside
      rw [if_pos inside] at there
      rwa [partOf, filter_add, add_comm (Multiset.filter _ own), add_assoc]

end

/-! Where the rows of a chunk go -/

def selectedRows (info : RadixPartitionInfo) {types : List PhysicalType}
    (chunk : GroupChunk types Row) (hashes : Nat → Nat) (partition : Nat) : List (Key × Row) :=
  (selected info chunk hashes partition).filterMap fun index => chunk.rows[index]?

variable {Item : Type}

theorem sum_filterMap {count : Nat} (f : Nat → Nat) (g : Nat → Option Item) {list : List Nat}
    (below : ∀ index ∈ list, f index < count) : ((List.range count).map fun part =>
        (((list.filter fun index => f index = part).filterMap g : List Item) : Multiset Item)).sum =
      (list.filterMap g : List Item) := by
  induction list with
  | nil => simp
  | cons index rest ih =>
    have split : ∀ part, ((((index :: rest).filter fun index => f index = part).filterMap g :
          List Item) : Multiset Item) =
        (if f index = part then ((g index).toList : Multiset Item) else 0) +
          ((rest.filter fun index => f index = part).filterMap g : List Item) := by
      intro part
      by_cases here : f index = part
      · cases there : g index <;> simp [here, there]
      · simp [here]
    have inside := below index mem_cons_self
    rw [map_congr_left fun part _ => split part, List.sum_map_add,
      ih fun other listed => below other (mem_cons_of_mem _ listed),
      List.sum_map_eq_nsmul_single (f index)]
    · rw [if_pos rfl, count_eq_one_of_mem nodup_range (List.mem_range.mpr inside), one_nsmul]
      cases there : g index <;> simp [there]
    · intro other apart _
      rw [if_neg (Ne.symm apart)]

theorem filterMap_getElem? {g : Nat → Option Item} {list : List Nat}
    (defined : ∀ index ∈ list, (g index).isSome) {position : Nat} {item : Item}
    (there : (list.filterMap g)[position]? = some item) :
    ∃ index, list[position]? = some index ∧ g index = some item := by
  induction list generalizing position with
  | nil => simp at there
  | cons index rest ih =>
    obtain ⟨value, given⟩ := Option.isSome_iff_exists.mp (defined index mem_cons_self)
    rw [List.filterMap_cons, given] at there
    cases position with
    | zero => exact ⟨index, rfl, given.trans there⟩
    | succ position =>
      exact ih (fun other listed => defined other (mem_cons_of_mem _ listed)) there

theorem filterMap_range (list : List Item) : (List.range list.length).filterMap (fun index => list[index]?) = list := by
  induction list with
  | nil => rfl
  | cons item rest ih =>
    rw [length_cons, range_succ_eq_map, List.filterMap_cons, List.filterMap_map]
    exact congrArg (item :: ·) ih

section Chunk

variable {chunk : GroupChunk context.groupTypes Row} {buffer : Nat → Nat} {index : Nat} {row : Key × Row}

theorem normalified_hashChunk (there : chunk.rows[index]? = some row) :
    normalified chunk (hashChunk context buffer chunk) index = keyHash context row.1 := by
  unfold normalified
  have inside := (List.getElem?_eq_some_iff.mp there).1
  cases constant : chunk.constant with
  | false => simp [hashChunk, there, constant, keyHash]
  | true =>
    have first := List.getElem?_eq_getElem (l := chunk.rows) (i := 0) (by omega)
    have same := chunk.same constant row (mem_of_getElem? there) _ (mem_of_getElem? first)
    simp [hashChunk, first, keyHash, same]

variable {partition : Nat}

theorem mem_selected {hashes : Nat → Nat} : index ∈ selected info chunk hashes partition ↔
      index < chunk.rows.length ∧ info.partitionOf (hashes index) = partition := by
  simp [selected]

theorem mem_selectedRows {hashes : Nat → Nat} : row ∈ selectedRows info chunk hashes partition ↔
      ∃ index, chunk.rows[index]? = some row ∧ info.partitionOf (hashes index) = partition := by
  rw [selectedRows, List.mem_filterMap]
  constructor
  · rintro ⟨index, listed, there⟩
    exact ⟨index, there, (mem_selected.mp listed).2⟩
  · rintro ⟨index, there, same⟩
    exact ⟨index, mem_selected.mpr ⟨(List.getElem?_eq_some_iff.mp there).1, same⟩, there⟩

include lists in
theorem Lists.addSelected (accumulates : Accumulates context.function result)
    (clear : ∀ row ∈ chunk.rows, UnambiguousKey context.groupTypes row.1)
    (fit : fits → standardVectorSize ≤ capacityLimit context) (partition : Nat) :
    Yields fits (fun added => Lists context result added
        ((selectedRows info chunk (hashChunk context buffer chunk) partition : Multiset (Key × Row)) + rows))
      (addSelected context info chunk (hashChunk context buffer chunk) partition list) := by
  refine lists.addChunk accumulates ?_ ?_ ?_ fit
  · calc _ ≤ (selected info chunk (hashChunk context buffer chunk) partition).length := length_filterMap_le _ _
      _ ≤ (List.range chunk.rows.length).length := length_filter_le _ _
      _ ≤ standardVectorSize := by
          rw [length_range]
          exact chunk.small
  · intro row listed
    obtain ⟨index, there, _⟩ := mem_selectedRows.mp listed
    exact clear row (mem_of_getElem? there)
  · intro position row there
    obtain ⟨index, listed, found⟩ := filterMap_getElem? (fun index listed => by
      have inside := (mem_selected.mp listed).1
      simp [inside]) there
    rw [getD_eq_getElem?_getD, listed]
    exact normalified_hashChunk found

end Chunk

/-! The partitions of a thread -/

/-- In a partitioned table the rows of a constant vector must not be sent astray by what the
buffer of the hashes held before. -/
def PlacedChunk (context : Aggregation Row State) (info : RadixPartitionInfo) (partitioned : Bool)
    (buffer : Nat → Nat) (chunk : GroupChunk context.groupTypes Row) : Prop :=
  partitioned = true → chunk.constant = true → ∀ index < chunk.rows.length,
    info.partitionOf (hashChunk context buffer chunk index) =
      info.partitionOf (hashChunk context buffer chunk 0)

def bufferAfter (context : Aggregation Row State) (partitioned : Bool) (buffer : Nat → Nat)
    (chunk : GroupChunk context.groupTypes Row) : Nat → Nat :=
  if partitioned then hashChunk context buffer chunk
  else normalifiedBuffer context chunk (hashChunk context buffer chunk)

def Placed (context : Aggregation Row State) (info : RadixPartitionInfo) :
    Bool → (Nat → Nat) → List (GroupChunk context.groupTypes Row × Bool) → Prop
  | _, _, [] => True
  | partitioned, buffer, (chunk, doPartition) :: rest =>
    PlacedChunk context info (partitioned || doPartition) buffer chunk ∧
      Placed context info (partitioned || doPartition)
        (bufferAfter context (partitioned || doPartition) buffer chunk) rest

structure Assigned (context : Aggregation Row State) (info : RadixPartitionInfo) (placed : Prop)
    (rows : Multiset (Key × Row)) (assigned : Nat → Multiset (Key × Row)) : Prop where
  total : ((List.range info.nPartitions).map assigned).sum = rows
  own : placed → ∀ index < info.nPartitions, ∀ row ∈ assigned index,
    info.partitionOf (keyHash context row.1) = index
  stray : ¬placed → ∃ key first second, first < info.nPartitions ∧ second < info.nPartitions ∧
    first ≠ second ∧ key ∈ (assigned first).map Prod.fst ∧ key ∈ (assigned second).map Prod.fst

variable {placed more : Prop} {assigned : Nat → Multiset (Key × Row)}

theorem Assigned.natural {rows : Multiset (Key × Row)} :
    Assigned context info True rows (partOf context info rows) := by
  refine ⟨?_, fun _ index _ row listed => (mem_filter.mp listed).2, fun astray => absurd trivial astray⟩
  induction rows using Multiset.induction with
  | empty =>
    have none : partOf context info 0 = fun _ => 0 := funext fun _ => filter_zero _
    simp [none]
  | cons row rest ih =>
    have split : ∀ index, partOf context info (row ::ₘ rest) index =
        (if info.partitionOf (keyHash context row.1) = index then {row} else 0) + partOf context info rest index := by
      intro index
      rw [partOf, Multiset.filter_cons]
      rfl
    rw [map_congr_left fun index _ => split index, List.sum_map_add, ih,
      List.sum_map_eq_nsmul_single (info.partitionOf (keyHash context row.1))]
    · rw [if_pos rfl, count_eq_one_of_mem nodup_range
        (List.mem_range.mpr (info.partitionOf_lt)), one_nsmul, singleton_add]
    · intro other apart _
      rw [if_neg (Ne.symm apart)]

theorem Assigned.add {later : Nat → Multiset (Key × Row)} (first : Assigned context info placed rows assigned)
    (second : Assigned context info more others later) :
    Assigned context info (placed ∧ more) (rows + others) fun index =>
      assigned index + later index where
  total := by rw [List.sum_map_add, first.total, second.total]
  own := by
    rintro ⟨firstPlaced, secondPlaced⟩ index inside row listed
    rcases mem_add.mp listed with early | late
    · exact first.own firstPlaced index inside row early
    · exact second.own secondPlaced index inside row late
  stray := by
    intro astray
    have grown : ∀ key index, key ∈ (assigned index).map Prod.fst ∨ key ∈ (later index).map Prod.fst →
        key ∈ (assigned index + later index).map Prod.fst := by
      intro key index there
      rw [map_add]
      exact mem_add.mpr there
    by_cases firstPlaced : placed
    · obtain ⟨key, one, two, oneIn, twoIn, apart, there, also⟩ :=
        second.stray fun secondPlaced => astray ⟨firstPlaced, secondPlaced⟩
      exact ⟨key, one, two, oneIn, twoIn, apart, grown key one (.inr there), grown key two (.inr also)⟩
    · obtain ⟨key, one, two, oneIn, twoIn, apart, there, also⟩ := first.stray firstPlaced
      exact ⟨key, one, two, oneIn, twoIn, apart, grown key one (.inl there), grown key two (.inl also)⟩

theorem Assigned.chunk (chunk : GroupChunk context.groupTypes Row) (buffer : Nat → Nat) :
    Assigned context info (PlacedChunk context info true buffer chunk) chunk.rows fun index =>
      (selectedRows info chunk (hashChunk context buffer chunk) index : Multiset _) where
  total := by
    have summed := @sum_filterMap (Key × Row) info.nPartitions
      (fun index => info.partitionOf (hashChunk context buffer chunk index))
      (fun index => chunk.rows[index]?) (List.range chunk.rows.length)
      (fun index _ => info.partitionOf_lt)
    rwa [filterMap_range] at summed
  own := by
    intro placed index _ row listed
    obtain ⟨position, there, rfl⟩ := mem_selectedRows.mp (mem_coe.mp listed)
    have inside := (List.getElem?_eq_some_iff.mp there).1
    have hashed := @normalified_hashChunk Row State context chunk buffer position row there
    unfold normalified at hashed
    cases constant : chunk.constant with
    | false =>
      rw [constant] at hashed
      exact congrArg info.partitionOf hashed.symm
    | true =>
      rw [constant, if_pos rfl] at hashed
      rw [placed rfl constant position inside, hashed]
  stray := by
    intro astray
    unfold PlacedChunk at astray
    push Not at astray
    obtain ⟨_, constant, position, inside, apart⟩ := astray
    have there := getElem?_eq_getElem inside
    have first := getElem?_eq_getElem (l := chunk.rows) (i := 0) (by omega)
    have same := chunk.same constant _ (mem_of_getElem? there) _ (mem_of_getElem? first)
    refine ⟨_, _, _, info.partitionOf_lt, info.partitionOf_lt, apart,
      Multiset.mem_map.mpr ⟨_, mem_coe.mpr (mem_selectedRows.mpr ⟨position, there, rfl⟩), same⟩,
      Multiset.mem_map.mpr ⟨_, mem_coe.mpr (mem_selectedRows.mpr ⟨0, first, rfl⟩), rfl⟩⟩

theorem Assigned.congr {other : Prop} (given : Assigned context info placed rows assigned)
    (same : placed ↔ other) (sum : rows = others) :
    Assigned context info other others assigned := by
  subst sum
  rwa [← propext same]

def Local (context : Aggregation Row State) (result : Multiset Row → State)
    (info : RadixPartitionInfo) (table : PartitionableHashTable State)
    (rows : Multiset (Key × Row)) (placed : Prop) : Prop :=
  if table.isPartitioned then
    ∃ assigned, Assigned context info placed rows assigned ∧ ∀ index < info.nPartitions,
        Lists context result (table.radixPartitionedHts index) (assigned index)
  else
    placed ∧ table.radixPartitionedHts = (fun _ => []) ∧
      Lists context result table.unpartitionedHts rows

variable (standing : Local context result info table rows placed)

include standing in
theorem Local.partition (open' : table.isPartitioned = false) (accumulates : Accumulates context.function result)
    (fit : fits → rows.card + standardVectorSize ≤ capacityLimit context) :
    Yields fits (fun split => Local context result info split rows placed ∧
        split.isPartitioned = true ∧ split.hashes = table.hashes)
      (table.partition context info) := by
  unfold Local at standing
  rw [open'] at standing
  obtain ⟨given, unused, lists⟩ := standing
  refine (lists.partition accumulates unused fit).mono fun split all => ?_
  obtain ⟨partitioned, hashes, parts⟩ := all
  refine ⟨?_, partitioned, hashes⟩
  unfold Local
  rw [partitioned]
  exact ⟨_, (Assigned.natural).congr (iff_of_true trivial given) rfl, parts⟩

include standing in
theorem Local.addChunk (accumulates : Accumulates context.function result)
    {chunk : GroupChunk context.groupTypes Row} {doPartition : Bool}
    (clear : ∀ row ∈ chunk.rows, UnambiguousKey context.groupTypes row.1)
    (fit : fits → rows.card + standardVectorSize ≤ capacityLimit context) :
    Yields fits (fun added => Local context result info added (rows + chunk.rows)
          (placed ∧ PlacedChunk context info (table.isPartitioned || doPartition) table.hashes chunk) ∧
        added.isPartitioned = (table.isPartitioned || doPartition) ∧
        added.hashes = bufferAfter context (table.isPartitioned || doPartition) table.hashes chunk)
      (table.addChunk context info chunk doPartition) := by
  have ready : Yields fits (fun split => Local context result info split rows placed ∧
        split.isPartitioned = (table.isPartitioned || doPartition) ∧ split.hashes = table.hashes)
      (if !table.isPartitioned && doPartition then table.partition context info else .ok table) := by
    cases partitioned : table.isPartitioned with
    | true => exact ⟨standing, partitioned, rfl⟩
    | false =>
      cases doPartition with
      | false => exact ⟨standing, partitioned, rfl⟩
      | true => exact standing.partition partitioned accumulates fit
  refine ready.bind fun split given => ?_
  obtain ⟨standing, partitioned, hashes⟩ := given
  rw [← partitioned]
  have room : fits → standardVectorSize ≤ capacityLimit context := fun given => by
    have := fit given
    omega
  unfold Local at standing
  cases mode : split.isPartitioned with
  | false =>
    rw [mode] at standing
    obtain ⟨given, unused, lists⟩ := standing
    refine (lists.addChunk accumulates chunk.small clear
      (fun index row there => normalified_hashChunk there) room).bind fun added addedLists => ?_
    refine ⟨?_, rfl, rfl⟩
    rw [add_comm]
    exact ⟨⟨given, fun impossible => by cases impossible⟩, unused, addedLists⟩
  | true =>
    rw [mode] at standing
    obtain ⟨assigned, assignment, lists⟩ := standing
    refine (@Yields.updateEach String _ fits (fun index list => PartitionableHashTable.addSelected context info chunk
        (hashChunk context table.hashes chunk) index list)
      (fun index list => Lists context result list
        ((selectedRows info chunk (hashChunk context table.hashes chunk) index : Multiset _) +
          assigned index)) split.radixPartitionedHts info.nPartitions
      fun index inside => (lists index inside).addSelected accumulates clear room index).bind
      fun radix all => ?_
    refine ⟨?_, rfl, rfl⟩
    refine ⟨_, assignment.add (Assigned.chunk chunk table.hashes), fun index inside => ?_⟩
    rw [add_comm]
    exact (all index).1 inside

theorem Local.create : Local context result info (create context) 0 True := ⟨trivial, rfl, .nil⟩

def chunkRows {types : List PhysicalType} (chunks : List (GroupChunk types Row × Bool)) :
    Multiset (Key × Row) :=
  (chunks.map fun chunk => (chunk.1.rows : Multiset (Key × Row))).sum

include standing in
theorem Local.addChunks {chunks : List (GroupChunk context.groupTypes Row × Bool)}
    (accumulates : Accumulates context.function result)
    (clear : ∀ row ∈ chunkRows chunks, UnambiguousKey context.groupTypes row.1)
    (fit : fits → (rows + chunkRows chunks).card + standardVectorSize ≤ capacityLimit context) :
    Yields fits (fun final => Local context result info final (rows + chunkRows chunks)
        (placed ∧ Placed context info table.isPartitioned table.hashes chunks))
      (chunks.foldlM (fun table chunk => table.addChunk context info chunk.1 chunk.2) table) := by
  induction chunks generalizing table rows placed with
  | nil =>
    change Local context result info table (rows + 0) (placed ∧ True)
    rwa [add_zero, and_true]
  | cons chunk rest ih =>
    obtain ⟨chunk, doPartition⟩ := chunk
    have sum : rows + chunkRows ((chunk, doPartition) :: rest) = rows + chunk.rows + chunkRows rest := by
      rw [chunkRows, List.map_cons, List.sum_cons, ← add_assoc]
      rfl
    have shown : ∀ row, row ∈ chunk.rows ∨ row ∈ chunkRows rest → UnambiguousKey context.groupTypes row.1 := by
      intro row listed
      apply clear
      exact mem_add.mpr (listed.imp mem_coe.mpr id)
    rw [sum] at fit ⊢
    refine (standing.addChunk accumulates (fun row listed => shown row (.inl listed))
      (room_of_le (le_trans (le_add_right _ _) (le_add_right _ _)) fit)).bind fun next given => ?_
    obtain ⟨local', partitioned, hashes⟩ := given
    refine (ih local' (fun row listed => shown row (.inr listed)) fit).mono fun final all => ?_
    rwa [partitioned, hashes, and_assoc] at all

end PartitionableHashTable

end GuinsooDB
