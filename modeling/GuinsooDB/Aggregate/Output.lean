import GuinsooDB.Aggregate.Distribution

/-!
The output of a hash aggregation: the tables of all threads are combined and scanned.
-/

namespace GuinsooDB

open Outcome AggregateHashTable PartitionableHashTable List Multiset Function
open Prod (fst)
open Multiset (zero_add add_zero card)
open List (mem_map)

/-- The output has one row for each key, with the state that the rows of the key give. -/
structure Groups {Row State : Type} (result : Multiset Row → State) (rows : Multiset (Key × Row))
    (output : List (Key × State)) : Prop where
  distinct : (output.map fst).Nodup
  complete : ∀ key, key ∈ output.map fst ↔ key ∈ rows.map fst
  states : ∀ group ∈ output, group.2 = result (rowsOf rows group.1)

namespace LocalInput

variable {Row State : Type}

def rows {types : List PhysicalType} (input : LocalInput types Row) : Multiset (Key × Row) :=
  chunkRows input.chunks

def Placed (context : Aggregation Row State) (info : RadixPartitionInfo)
    (input : LocalInput context.groupTypes Row) : Prop :=
  PartitionableHashTable.Placed context info false context.uninitialised input.chunks

end LocalInput

namespace PhysicalHashAggregate

variable {Row State : Type} {context : Aggregation Row State} {result : Multiset Row → State}
  {info : RadixPartitionInfo} {fits : Prop} {inputs : List (LocalInput context.groupTypes Row)}
  {tables : List (PartitionableHashTable State)}

def inputRows {types : List PhysicalType} (inputs : List (LocalInput types Row)) :
    Multiset (Key × Row) :=
  (inputs.map LocalInput.rows).sum

theorem inputRows_cons {types : List PhysicalType} {input : LocalInput types Row} {rest : List (LocalInput types Row)} :
    inputRows (input :: rest) = input.rows + inputRows rest := List.sum_cons

variable {parts : List (Multiset (Key × Row))}

theorem mem_keys_sum {key : Key} : key ∈ parts.sum.map fst ↔ ∃ rows ∈ parts, key ∈ rows.map fst := by
  induction parts with
  | nil => simp
  | cons first rest ih =>
    rw [List.sum_cons, map_add, mem_add, ih, exists_mem_cons_iff]

variable {rows : Multiset (Key × Row)}

theorem le_sum (listed : rows ∈ parts) : rows ≤ parts.sum := by
  induction parts with
  | nil => cases listed
  | cons first rest ih =>
    rcases mem_cons.mp listed with rfl | later
    · exact le_add_right _ _
    · exact le_trans (ih later) (le_add_left _ _)

def Sunk (context : Aggregation Row State) (result : Multiset Row → State)
    (info : RadixPartitionInfo) (input : LocalInput context.groupTypes Row)
    (table : PartitionableHashTable State) : Prop :=
  Local context result info table input.rows (input.Placed context info)

section

variable (accumulates : Accumulates context.function result)
include accumulates

theorem sinkLocal_sunk {input : LocalInput context.groupTypes Row}
    (clear : ∀ row ∈ input.rows, UnambiguousKey context.groupTypes row.1)
    (fit : fits → input.rows.card + standardVectorSize ≤ capacityLimit context) :
    Yields fits (Sunk context result info input) (sinkLocal context info input) := by
  refine (Local.create.addChunks accumulates clear fun given => ?_).bind fun table standing => ?_
  · rw [zero_add]
    exact fit given
  rw [zero_add, true_and] at standing
  split
  next late =>
    have open' : table.isPartitioned = false := by
      simp only [Bool.and_eq_true, Bool.not_eq_true'] at late
      exact late.1
    exact (standing.partition open' accumulates fit).mono fun split given => given.1
  · exact standing

theorem partitionAll (sunk : List.Forall₂ (Sunk context result info) inputs tables)
    (fit : fits → (inputRows inputs).card + standardVectorSize ≤ capacityLimit context) :
    Yields fits (fun split => List.Forall₂ (fun input table =>
        Sunk context result info input table ∧ table.isPartitioned = true) inputs split)
      (tables.mapM fun table =>
        if table.isPartitioned then .ok table else table.partition context info) := by
  induction sunk with
  | nil => exact List.Forall₂.nil
  | cons head tail ih =>
    rename_i input table inputs tables
    rw [inputRows_cons] at fit
    have first : Yields fits (fun split => Sunk context result info input split ∧ split.isPartitioned = true)
        (if table.isPartitioned then .ok table else table.partition context info) := by
      split
      · exact ⟨head, ‹_›⟩
      · exact (Local.partition head (Bool.not_eq_true _ ▸ ‹_›) accumulates (room_of_le (le_add_right _ _) fit)).mono
          fun split given => ⟨given.1, given.2.1⟩
    rw [mapM_cons]
    exact first.bind fun split given => (ih (room_of_le (le_add_left _ _) fit)).bind
      fun rest others => List.Forall₂.cons given others

theorem combinePartitions (sunk : List.Forall₂ (fun input table =>
      Sunk context result info input table ∧ table.isPartitioned = true) inputs tables) :
    ∃ assigned, Assigned context info (∀ input ∈ inputs, input.Placed context info) (inputRows inputs) assigned ∧
      ∀ index < info.nPartitions, ∀ (final : AggregateHashTable State)
        (base : Multiset (Key × Row)), Represents context result final base →
        (fits → (inputRows inputs + base).card + standardVectorSize ≤ capacityLimit context) →
        Yields fits (fun combined => Represents context result combined (assigned index + base))
          (tables.foldlM (fun final table =>
            (table.radixPartitionedHts index).foldlM (combine context) final) final) := by
  induction sunk with
  | nil =>
    refine ⟨fun _ => 0, ⟨by simp [inputRows], by simp, by simp⟩, ?_⟩
    intro index _ final base represents _
    rw [zero_add]
    exact represents
  | cons head tail ih =>
    rename_i input table inputs tables
    obtain ⟨later, assignment, combined⟩ := ih
    obtain ⟨standing, partitioned⟩ := head
    unfold Sunk Local at standing
    rw [if_pos partitioned] at standing
    obtain ⟨assigned, own, lists⟩ := standing
    refine ⟨_, (own.add assignment).congr (by simp) (inputRows_cons).symm, ?_⟩
    intro index inside final base represents fit
    have member : assigned index ∈ (List.range info.nPartitions).map assigned :=
      mem_map.mpr ⟨index, mem_range.mpr inside, rfl⟩
    have part : assigned index ≤ input.rows := own.total ▸ le_sum member
    rw [inputRows_cons, add_right_comm, add_comm (_ + base)] at fit
    rw [add_right_comm, add_comm (_ + base)]
    have room := room_of_le (add_le_add_right (add_le_add_left part base) _) fit
    exact ((lists index inside).combine accumulates represents (room_of_le (le_add_left _ _) room)).bind
      fun merged mergedRows => combined index inside merged _ mergedRows room

theorem combineUnpartitioned
    (sunk : List.Forall₂ (Sunk context result info) inputs tables)
    (whole : tables.any PartitionableHashTable.isPartitioned = false)
    {final : AggregateHashTable State} {base : Multiset (Key × Row)}
    (represents : Represents context result final base)
    (fit : fits → (inputRows inputs + base).card + standardVectorSize ≤ capacityLimit context) :
    (∀ input ∈ inputs, input.Placed context info) ∧
      Yields fits (fun combined => Represents context result combined (inputRows inputs + base))
        (tables.foldlM (fun final table =>
          table.unpartitionedHts.foldlM (combine context) final) final) := by
  induction sunk generalizing final base with
  | nil =>
    refine ⟨by simp, ?_⟩
    change Represents context result final (0 + base)
    rwa [zero_add]
  | cons head tail ih =>
    rename_i input table inputs tables
    rw [any_cons, Bool.or_eq_false_iff] at whole
    unfold Sunk Local at head
    rw [whole.1] at head
    obtain ⟨placed, _, lists⟩ := head
    rw [inputRows_cons, add_right_comm, add_comm (_ + base)] at fit ⊢
    refine ⟨?_, ?_⟩
    · have others := (ih whole.2 represents (room_of_le (add_le_add_right (le_add_left _ _) _) fit)).1
      simpa using ⟨placed, others⟩
    · rw [foldlM_cons]
      exact (Lists.combine accumulates lists represents (room_of_le (le_add_left _ _) fit)).bind
        fun merged mergedRows => (ih whole.2 mergedRows fit).2

end

theorem scanFrom_eq {table : AggregateHashTable State} {fuel position : Nat}
    (enough : table.groups.length < fuel + position) :
    scanFrom context table fuel position = (table.groups.drop position).map fun entry =>
      (gatherKey context.groupTypes entry.values, entry.state) := by
  induction fuel generalizing position with
  | zero => rw [scanFrom, drop_eq_nil_of_le (by omega), map_nil]
  | succ fuel ih =>
    rw [scanFrom]
    split
    next none =>
      rw [List.isEmpty_iff, scan, map_eq_nil_iff, take_eq_nil_iff] at none
      rcases none with impossible | rest
      · exact absurd impossible (by decide)
      · rw [rest, map_nil]
    rename_i some'
    have found : 0 < (table.scan context position).length := length_pos_iff.mpr fun none => some' (isEmpty_iff.mpr none)
    rw [ih (by omega), scan, ← map_append]
    congr 1
    rw [length_map, length_take, length_drop, ← drop_drop]
    conv_rhs => rw [← take_append_drop standardVectorSize (table.groups.drop position)]
    congr 1
    by_cases more : standardVectorSize ≤ table.groups.length - position
    · rw [Nat.min_eq_left more]
    · rw [Nat.min_eq_right (by omega), drop_eq_nil_of_le (by rw [length_drop]),
        drop_eq_nil_of_le (by rw [length_drop]; omega)]

theorem scanTables_eq (tables : List (AggregateHashTable State)) :
    scanTables context tables = tables.flatMap fun table => table.groups.map fun entry =>
      (gatherKey context.groupTypes entry.values, entry.state) := by
  unfold scanTables
  congr 1
  funext table
  rw [scanFrom_eq (by omega), drop_zero]

variable {table : AggregateHashTable State}

theorem Represents.scanned (represents : Represents context result table rows) :
    ∃ keys : List Key, keys.Nodup ∧ (∀ key, key ∈ keys ↔ key ∈ rows.map fst) ∧
      (table.groups.map fun entry => (gatherKey context.groupTypes entry.values, entry.state)) =
        keys.map fun key => (key, result (rowsOf rows key)) := by
  obtain ⟨keys, tallies⟩ := represents
  refine ⟨keys, tallies.holds.distinct, tallies.complete, ?_⟩
  rw [tallies.carries.entries, List.map_map, List.map_map]
  apply map_congr_left
  intro key listed
  exact Prod.ext (gatherKey_storeKey (tallies.holds.clear key listed)) rfl

theorem rowsOf_sum (key : Key) : rowsOf parts.sum key = (parts.map fun rows => rowsOf rows key).sum := by
  induction parts with
  | nil => rfl
  | cons first rest ih => rw [List.sum_cons, rowsOf_add, ih, List.map_cons, List.sum_cons]

section Parts

variable {rows : Multiset (Key × Row)} {placed : Prop} {assigned : Nat → Multiset (Key × Row)}
  {keysOf : Nat → List Key}

theorem partition_keys {indices : List Nat} : (indices.flatMap fun index => (keysOf index).map fun key =>
      (key, result (rowsOf (assigned index) key))).map fst = indices.flatMap keysOf := by
  rw [map_flatMap]
  congr 1
  funext index
  rw [List.map_map]
  exact map_id _

theorem groups_of_placed (assignment : Assigned context info placed rows assigned) (here : placed)
    (distinct : ∀ index < info.nPartitions, (keysOf index).Nodup)
    (complete : ∀ index < info.nPartitions, ∀ key, key ∈ keysOf index ↔ key ∈ (assigned index).map fst) :
    Groups result rows ((List.range info.nPartitions).flatMap fun index =>
      (keysOf index).map fun key => (key, result (rowsOf (assigned index) key))) := by
  have home : ∀ index < info.nPartitions, ∀ key ∈ (assigned index).map fst,
      info.partitionOf (keyHash context key) = index := by
    intro index inside key listed
    obtain ⟨row, present, rfl⟩ := mem_map.mp listed
    exact assignment.own here index inside row present
  have keys := @partition_keys Row State result assigned keysOf (range info.nPartitions)
  refine ⟨?_, ?_, ?_⟩
  · rw [keys, nodup_flatMap]
    refine ⟨fun index listed => distinct index (List.mem_range.mp listed), ?_⟩
    refine List.Pairwise.imp_of_mem ?_ nodup_range
    intro first second firstIn secondIn apart key inFirst inSecond
    have firstInside := List.mem_range.mp firstIn
    have secondInside := List.mem_range.mp secondIn
    exact apart ((home first firstInside key ((complete first firstInside key).mp inFirst)).symm.trans
      (home second secondInside key ((complete second secondInside key).mp inSecond)))
  · intro key
    rw [keys, ← assignment.total]
    rw [mem_keys_sum, mem_flatMap]
    constructor
    · rintro ⟨index, inRange, listed⟩
      exact ⟨_, mem_map.mpr ⟨index, inRange, rfl⟩, (complete index (List.mem_range.mp inRange) key).mp listed⟩
    · rintro ⟨_, part, listed⟩
      obtain ⟨index, inRange, rfl⟩ := mem_map.mp part
      exact ⟨index, inRange, (complete index (List.mem_range.mp inRange) key).mpr listed⟩
  · intro group listed
    obtain ⟨index, inRange, present⟩ := mem_flatMap.mp listed
    obtain ⟨key, inside, rfl⟩ := mem_map.mp present
    have below := List.mem_range.mp inRange
    have belongs := home index below key ((complete index below key).mp inside)
    rw [← assignment.total, rowsOf_sum, List.map_map, List.sum_map_eq_nsmul_single index,
      count_eq_one_of_mem nodup_range inRange, one_nsmul]
    · rfl
    · intro other apart listed
      refine rowsOf_eq_zero fun there => apart ?_
      exact (home other (List.mem_range.mp listed) key there).symm.trans belongs

theorem not_groups_of_stray (assignment : Assigned context info placed rows assigned)
    (astray : ¬placed) (complete : ∀ index < info.nPartitions, ∀ key,
      key ∈ keysOf index ↔ key ∈ (assigned index).map fst) :
    ¬((List.range info.nPartitions).flatMap keysOf).Nodup := by
  obtain ⟨key, first, second, firstIn, secondIn, apart, inFirst, inSecond⟩ := assignment.stray astray
  rw [nodup_flatMap]
  rintro ⟨_, disjoint⟩
  have separate : ∀ early late, early < late → late < info.nPartitions → key ∈ keysOf early → key ∉ keysOf late := by
    intro early late before inside inEarly inLate
    have apart := pairwise_iff_getElem.mp disjoint early late
      (by rw [length_range]; omega) (by rw [length_range]; exact inside) before
    simp only [getElem_range] at apart
    exact apart inEarly inLate
  have firstListed := (complete first firstIn key).mpr inFirst
  have secondListed := (complete second secondIn key).mpr inSecond
  rcases Nat.lt_or_gt_of_ne apart with before | after
  · exact separate first second before secondIn firstListed secondListed
  · exact separate second first after firstIn secondListed firstListed

end Parts

theorem groups_single (represents : Represents context result table rows) :
    Groups result rows (scanTables context [table]) := by
  obtain ⟨keys, distinct, complete, scanned⟩ := Represents.scanned represents
  rw [scanTables_eq, flatMap_singleton, scanned]
  have names : (keys.map fun key => (key, result (rowsOf rows key))).map fst = keys := by
    rw [List.map_map]
    exact map_id _
  refine ⟨names.symm ▸ distinct, names.symm ▸ complete, ?_⟩
  intro group listed
  obtain ⟨key, _, rfl⟩ := mem_map.mp listed
  rfl

variable {finals : List (AggregateHashTable State)} {assigned : Nat → Multiset (Key × Row)}

theorem scanTables_partitions {indices : List Nat}
    (represent : List.Forall₂ (fun index table => Represents context result table (assigned index))
      indices finals) (distinct : indices.Nodup) : ∃ keysOf : Nat → List Key,
      (∀ index ∈ indices, (keysOf index).Nodup ∧ ∀ key, key ∈ keysOf index ↔ key ∈ (assigned index).map fst) ∧
      scanTables context finals = indices.flatMap fun index =>
        (keysOf index).map fun key => (key, result (rowsOf (assigned index) key)) := by
  induction represent with
  | nil => exact ⟨fun _ => [], by simp, rfl⟩
  | cons head tail ih =>
    rename_i index table indices finals
    obtain ⟨new, rest⟩ := nodup_cons.mp distinct
    obtain ⟨later, each, scanned⟩ := ih rest
    obtain ⟨keys, keysDistinct, complete, listed⟩ := Represents.scanned head
    have elsewhere : ∀ other ∈ indices, update later index keys other = later other :=
      fun other inside => update_of_ne (fun same : other = index => new (same ▸ inside)) _ _
    refine ⟨update later index keys, ?_, ?_⟩
    · intro other inside
      rcases mem_cons.mp inside with rfl | inRest
      · rw [update_self]
        exact ⟨keysDistinct, complete⟩
      · rw [elsewhere other inRest]
        exact each other inRest
    · rw [scanTables_eq] at scanned ⊢
      rw [flatMap_cons, flatMap_cons, scanned, listed, update_self]
      congr 1
      apply flatMap_congr
      intro other inRest
      rw [elsewhere other inRest]

theorem groups_partitions {placed : Prop} (assignment : Assigned context info placed rows assigned)
    (represent : List.Forall₂ (fun index table => Represents context result table (assigned index))
      (List.range info.nPartitions) finals) :
    Groups result rows (scanTables context finals) ↔ placed := by
  obtain ⟨keysOf, each, scanned⟩ := scanTables_partitions represent nodup_range
  have distinct := fun index inside => (each index (List.mem_range.mpr inside)).1
  have complete := fun index inside => (each index (List.mem_range.mpr inside)).2
  rw [scanned]
  constructor
  · intro groups
    by_contra astray
    refine not_groups_of_stray assignment astray complete ?_
    have names := groups.distinct
    rwa [partition_keys] at names
  · exact fun here => groups_of_placed assignment here distinct complete

theorem finalize_groups (accumulates : Accumulates context.function result)
    (sunk : List.Forall₂ (Sunk context result info) inputs tables)
    (fit : fits → (inputRows inputs).card + standardVectorSize ≤ capacityLimit context) :
    Yields fits (fun finals => Groups result (inputRows inputs) (scanTables context finals) ↔
        ∀ input ∈ inputs, input.Placed context info) (finalize context info tables) := by
  have fresh := Represents.create context result .width64
  have room : fits → (inputRows inputs + 0).card + standardVectorSize ≤ capacityLimit context := by
    rwa [add_zero]
  unfold finalize
  split
  · refine (partitionAll accumulates sunk fit).bind fun split given => ?_
    obtain ⟨assigned, assignment, combined⟩ := combinePartitions accumulates given
    refine (Yields.mapM fun index inside => ?_).mono fun finals represent =>
      groups_partitions assignment represent
    have merged := combined index (List.mem_range.mp inside) _ 0 fresh room
    rwa [add_zero] at merged
  next whole =>
    obtain ⟨placed, merged⟩ := combineUnpartitioned accumulates sunk (Bool.not_eq_true _ ▸ whole) fresh room
    rw [add_zero] at merged
    exact merged.bind fun final represents => iff_of_true (groups_single represents) placed

theorem execute_groups (accumulates : Accumulates context.function result)
    (clear : ∀ row ∈ inputRows inputs, UnambiguousKey context.groupTypes row.1)
    (fit : fits → (inputRows inputs).card + standardVectorSize ≤ capacityLimit context) :
    Yields fits (fun output => Groups result (inputRows inputs) output ↔
        ∀ input ∈ inputs, input.Placed context info) (execute context info inputs) := by
  refine (Yields.mapM fun input listed => ?_).bind fun tables sunk =>
    (finalize_groups accumulates sunk fit).bind fun finals groups => groups
  have member : input.rows ≤ inputRows inputs := le_sum (mem_map_of_mem listed)
  exact sinkLocal_sunk accumulates (fun row there => clear row (mem_of_le member there)) (room_of_le member fit)

def singleRows {types : List PhysicalType} (chunks : List (GroupChunk types Row)) :
    Multiset (Key × Row) :=
  (chunks.map fun chunk => (chunk.rows : Multiset (Key × Row))).sum

theorem addChunks_represents (accumulates : Accumulates context.function result)
    {chunks : List (GroupChunk context.groupTypes Row)}
    (represents : Represents context result table rows)
    (clear : ∀ row ∈ singleRows chunks, UnambiguousKey context.groupTypes row.1)
    (fit : fits → (singleRows chunks + rows).card ≤ capacityLimit context) :
    Yields fits (fun final => Represents context result final (singleRows chunks + rows))
      (chunks.foldlM (fun table chunk => table.addChunk context chunk.rows fun index =>
        hashKey context.hash context.groupTypes ((chunk.rows.map fst).getD index []))
        table) := by
  induction chunks generalizing table rows with
  | nil =>
    change Represents context result table (0 + rows)
    rwa [zero_add]
  | cons chunk rest ih =>
    have sum : singleRows rest + (chunk.rows + rows) = singleRows (chunk :: rest) + rows := by
      rw [singleRows, singleRows, List.map_cons, List.sum_cons, add_right_comm, add_comm]
    have shown : ∀ row, row ∈ chunk.rows ∨ row ∈ singleRows rest → UnambiguousKey context.groupTypes row.1 := by
      intro row listed
      apply clear
      exact mem_add.mpr (listed.imp mem_coe.mpr id)
    rw [← sum] at fit ⊢
    refine (represents.addChunk accumulates chunk.small (fun row listed => shown row (.inl listed))
      (fun index row there => ?_) fun given => represents.fits ?_).bind fun added more =>
      ih more (fun row listed => shown row (.inr listed)) fit
    · rw [getD_eq_getElem?_getD, getElem?_map, there]
      rfl
    · have := fit given
      rw [card_add, card_add, coe_card] at this
      omega

end PhysicalHashAggregate

namespace HashAggregateInput

open PhysicalHashAggregate

variable {Row State : Type}

def rows {types : List PhysicalType} : HashAggregateInput types Row → Multiset (Key × Row)
  | .single chunks => singleRows chunks
  | .parallel _ inputs => inputRows inputs

def Placed (context : Aggregation Row State) : HashAggregateInput context.groupTypes Row → Prop
  | .single _ => True
  | .parallel info inputs => ∀ input ∈ inputs, input.Placed context info

variable {context : Aggregation Row State} {result : Multiset Row → State} {fits : Prop}
  {input : HashAggregateInput context.groupTypes Row}

theorem execute_groups (accumulates : Accumulates context.function result)
    (clear : ∀ row ∈ input.rows, UnambiguousKey context.groupTypes row.1)
    (fit : fits → input.rows.card + standardVectorSize ≤ capacityLimit context) :
    Yields fits (fun output => Groups result input.rows output ↔ input.Placed context) (input.execute context) := by
  cases input with
  | parallel info inputs => exact PhysicalHashAggregate.execute_groups accumulates clear fit
  | single chunks =>
    refine (addChunks_represents accumulates (Represents.create context result .width64) clear
      fun given => ?_).bind fun final represents => ?_
    · have := fit given
      rw [add_zero]
      exact le_trans (Nat.le_add_right _ _) this
    · rw [add_zero] at represents
      exact iff_of_true (groups_single represents) trivial

variable {output : List (Key × State)}

theorem execute_gathered (outcome : input.execute context = .ok output) {key : Key}
    (listed : key ∈ output.map fst) : ∃ values, key = gatherKey context.groupTypes values := by
  have scanned : Yields False (fun output => ∃ finals, output = scanTables context finals) (input.execute context) := by
    cases input with
    | single chunks => exact (Yields.any id _).bind fun final _ => ⟨[final], rfl⟩
    | parallel info inputs =>
      exact (Yields.any id _).bind fun tables _ => (Yields.any id _).bind fun finals _ => ⟨finals, rfl⟩
  obtain ⟨finals, rfl⟩ := scanned.value outcome
  rw [scanTables_eq] at listed
  obtain ⟨group, inside, rfl⟩ := mem_map.mp listed
  obtain ⟨table, _, present⟩ := mem_flatMap.mp inside
  obtain ⟨entry, _, rfl⟩ := mem_map.mp present
  exact ⟨entry.values, rfl⟩

theorem rows_columns {row : Key × Row} (listed : row ∈ input.rows) : row.1.length = context.groupTypes.length := by
  have chunked : ∀ {chunks : List (GroupChunk context.groupTypes Row)},
      row ∈ singleRows chunks → row.1.length = context.groupTypes.length := by
    intro chunks there
    induction chunks with
    | nil => cases there
    | cons chunk rest ih =>
      rw [singleRows, List.map_cons, List.sum_cons, mem_add] at there
      exact there.elim (chunk.columns row) ih
  cases input with
  | single chunks => exact chunked listed
  | parallel info inputs =>
    change row ∈ inputRows inputs at listed
    induction inputs with
    | nil => cases listed
    | cons first rest ih =>
      rw [inputRows_cons, mem_add] at listed
      refine listed.elim (fun there => ?_) ih
      refine @chunked (first.chunks.map fst) ?_
      rw [singleRows, List.map_map]
      exact there

theorem clear_of_groups (outcome : input.execute context = .ok output)
    (groups : Groups result input.rows output) {row : Key × Row} (listed : row ∈ input.rows) :
    UnambiguousKey context.groupTypes row.1 := by
  obtain ⟨values, same⟩ := execute_gathered outcome ((groups.complete row.1).mpr (mem_map_of_mem _ listed))
  rw [same]
  exact gatherKey_unambiguous (same ▸ rows_columns listed)

/-- COUNT over groups of an unsigned column. The hash leaves the value in the bits that name
the partition. -/
def counting : Aggregation Unit Nat where
  groupTypes := [.uint32]
  hash := fun _ stored => match stored with
    | .number value => value.toNat <<< 40
    | .bytes _ => 0
  tuplesPerBlock := 1000
  function := { initial := 0, update := fun count _ => count + 1, combine := fun one two => one + two }
  uninitialised := fun _ => 0

theorem counting_accumulates : Accumulates counting.function card where
  initial := rfl
  update := fun rows row => (card_cons row rows).symm
  combine := fun rows others => (card_add rows others).symm

def countedChunk (values : List Int) (constant : Bool) (small : values.length ≤ standardVectorSize)
    (same : constant = true → ∀ value ∈ values, ∀ other ∈ values, value = other) :
    GroupChunk counting.groupTypes Unit where
  rows := values.map fun value => ([some (.number value)], ())
  constant
  small := by rwa [length_map]
  columns := by
    intro row listed
    obtain ⟨value, _, rfl⟩ := mem_map.mp listed
    rfl
  same := by
    intro fixed row listed other otherListed
    obtain ⟨value, inside, rfl⟩ := mem_map.mp listed
    obtain ⟨otherValue, otherInside, rfl⟩ := mem_map.mp otherListed
    rw [same fixed value inside otherValue otherInside]

def twoThreads : HashAggregateInput counting.groupTypes Unit :=
  .parallel { radixBits := 1 }
    [{ chunks := [(countedChunk [1, 2, 1] false (by decide) (by decide), false)]
       partitionAtEnd := false },
     { chunks := [(countedChunk [2, 3] false (by decide) (by decide), true)]
       partitionAtEnd := false }]

/-- Zero in an unsigned column comes out as NULL. A constant vector after a flat one is spread
over the partitions of the old hashes, and its key comes out twice. -/
def zeroGroup : HashAggregateInput counting.groupTypes Unit :=
  .single [countedChunk [0] false (by decide) (by decide)]

def spreadConstant : HashAggregateInput counting.groupTypes Unit :=
  .parallel { radixBits := 1 }
    [{ chunks := [(countedChunk [2, 1] false (by decide) (by decide), true),
         (countedChunk [2, 2] true (by decide) (by decide), true)]
       partitionAtEnd := false }]

end HashAggregateInput

end GuinsooDB
