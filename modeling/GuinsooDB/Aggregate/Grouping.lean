import Mathlib.Data.Multiset.Filter
import Mathlib.Algebra.BigOperators.Group.Multiset.Basic
import GuinsooDB.Aggregate.Probing

/-!
What a table stands for: one group for each key of the rows that went in, with the state that
these rows give. Adding a chunk and moving groups from another table keep this.
-/

namespace GuinsooDB

open List Multiset GroupEntry Option Function Prod

structure Accumulates {Row State : Type} (function : AggregateFunction Row State)
    (result : Multiset Row → State) : Prop where
  initial : result 0 = function.initial
  update : ∀ rows row, function.update (result rows) row = result (row ::ₘ rows)
  combine : ∀ rows others, function.combine (result rows) (result others) = result (rows + others)

open Outcome

namespace AggregateHashTable

variable {Row State : Type} {context : Aggregation Row State} {result : Multiset Row → State}
  {table : AggregateHashTable State} {keys : List Key} {rows : Multiset (Key × Row)}

def rowsOf (rows : Multiset (Key × Row)) (key : Key) : Multiset Row :=
  (rows.filter fun row => row.1 = key).map Prod.snd

theorem rowsOf_add (rows others : Multiset (Key × Row)) (key : Key) :
    rowsOf (rows + others) key = rowsOf rows key + rowsOf others key := by
  rw [rowsOf, filter_add, map_add]
  rfl

variable {key : Key}

theorem rowsOf_eq_zero (absent : key ∉ rows.map Prod.fst) : rowsOf rows key = 0 := by
  unfold rowsOf
  rw [map_eq_zero, filter_eq_nil]
  intro row listed same
  exact absent (mem_map.mpr ⟨row, listed, same⟩)

structure Tallies (context : Aggregation Row State) (result : Multiset Row → State)
    (table : AggregateHashTable State) (keys : List Key) (rows : Multiset (Key × Row)) :
    Prop where
  holds : Holds context table keys
  sized : Sized table
  complete : ∀ key, key ∈ keys ↔ key ∈ rows.map Prod.fst
  states : table.groups.map state = keys.map fun key => result (rowsOf rows key)

def Represents (context : Aggregation Row State) (result : Multiset Row → State)
    (table : AggregateHashTable State) (rows : Multiset (Key × Row)) : Prop :=
  ∃ keys, Tallies context result table keys rows

theorem Represents.create (context : Aggregation Row State) (result : Multiset Row → State)
    (entryType : HtEntryType) : Represents context result (create entryType) 0 :=
  ⟨[], create_holds, ⟨le_refl _, by
    change 0 < standardVectorSize * 2
    decide⟩, by simp, rfl⟩

def capacityLimit (context : Aggregation Row State) : Nat := 255 * min 65535 context.tuplesPerBlock

theorem capacityLimit_le (context : Aggregation Row State) (table : AggregateHashTable State) :
    capacityLimit context ≤ table.maxCapacity context := by
  apply Nat.mul_le_mul_right
  cases table.entryType <;> decide

theorem Tallies.length_le (tallies : Tallies context result table keys rows) : keys.length ≤ rows.card := by
  have below : (keys : Multiset Key) ≤ rows.map fst := (le_iff_subset (coe_nodup.mpr tallies.holds.distinct)).mpr
      fun key listed => (tallies.complete key).mp (mem_coe.mp listed)
  have cards := card_le_card below
  rwa [coe_card, card_map] at cards

variable (represents : Represents context result table rows)

include represents in
theorem Represents.fits {count : Nat} (limited : rows.card + count ≤ capacityLimit context) :
    table.groups.length + count ≤ table.maxCapacity context := by
  obtain ⟨keys, tallies⟩ := represents
  have fewer := tallies.length_le
  have limit := capacityLimit_le context table
  rw [tallies.holds.length]
  omega

/-! States of single groups -/

variable {groups : List (GroupEntry State)}

variable {group : Nat}

theorem map_setState {Field : Type} {field : GroupEntry State → Field} {change : State → State}
    (kept : ∀ entry, field { entry with state := change entry.state } = field entry) :
    (setState groups group change).map field = groups.map field := by
  apply ext_getElem?
  intro index
  rw [getElem?_map, getElem?_map, setState, getElem?_modify]
  split <;> cases groups[index]? <;> simp [kept]

theorem setState_states {states : Key → State} (change : State → State) (distinct : keys.Nodup)
    (given : groups.map state = keys.map states) (there : keys[group]? = some key) :
    (setState groups group change).map state =
      keys.map fun other => if other = key then change (states other) else states other := by
  have modified : (setState groups group change).map state = (groups.map state).modify group change := by
    apply ext_getElem?
    intro index
    rw [getElem?_map, setState, getElem?_modify, getElem?_modify, getElem?_map]
    split <;> cases groups[index]? <;> rfl
  rw [modified, given]
  apply ext_getElem?
  intro index
  rw [getElem?_modify, getElem?_map, getElem?_map]
  cases found : keys[index]? with
  | none => simp
  | some other =>
    by_cases here : group = index
    · subst index
      rw [there] at found
      cases found
      simp
    have apart : other ≠ key := by
      intro same
      apply here
      rw [same] at found
      exact (List.getElem?_inj (List.getElem?_eq_some_iff.mp there).1 distinct).mp (there.trans found.symm)
    simp [here, apart]

theorem Holds.setState (holds : Holds context table keys) (group : Nat) (change : State → State) :
    Holds context { table with groups := setState table.groups group change } keys :=
  { holds.toRinged with
    values := (map_setState fun _ => rfl).trans holds.values
    hashes := (map_setState fun _ => rfl).trans holds.hashes }

theorem Tallies.found (tallies : Tallies context result table keys rows)
    (accumulates : Accumulates context.function result) {list created : List Key}
    {found : AggregateHashTable State} {addresses : Nat → Nat}
    (all : FoundGroups context table keys list found addresses created) : found.groups.map state =
      (keys ++ created).map fun key => result (rowsOf rows key) := by
  rw [all.groups, map_append, map_append, tallies.states, List.map_map]
  congr 1
  apply map_congr_left
  intro key listed
  have absent : key ∉ rows.map fst := by
    intro old
    exact (nodup_append.mp all.holds.distinct).2.2 key ((tallies.complete key).mpr old) key listed rfl
  rw [rowsOf_eq_zero absent, accumulates.initial]
  rfl

variable {base : AggregateHashTable State}

theorem Tallies.join {given : List Key} (holds : Holds context base given)
    (states : base.groups.map state = given.map fun key => result (rowsOf rows key))
    (there : given[group]? = some key) {change : State → State}
    {joined : Multiset Row}
    (changes : change (result (rowsOf rows key)) = result (joined + rowsOf rows key)) :
    Holds context { base with groups := setState base.groups group change } given ∧
      (setState base.groups group change).map state = given.map fun other =>
        result (rowsOf (joined.map (Prod.mk key) + rows) other) := by
  refine ⟨holds.setState group change, ?_⟩
  rw [setState_states change holds.distinct states there]
  apply map_congr_left
  intro other _
  rw [rowsOf_add]
  by_cases same : other = key
  · subst other
    have own : rowsOf (joined.map (Prod.mk key)) key = joined := by
      unfold rowsOf
      rw [Multiset.filter_eq_self.mpr]
      · simp
      · simp
    rw [if_pos rfl, changes, own]
  · have none : rowsOf (joined.map (Prod.mk key)) other = 0 := by
      apply rowsOf_eq_zero
      simp only [Multiset.map_map, comp_apply, Multiset.mem_map, not_exists, not_and]
      exact fun _ _ equal => same equal.symm
    rw [if_neg same, none, Multiset.zero_add]

variable {Source : Type} {part : Source → Multiset Row} {list : List Source}
  {change : Source → State → State} {keyOf : Source → Key}

theorem Tallies.joinAll {given : List Key} {addresses : Source → Nat} (holds : Holds context base given)
    (states : base.groups.map state = given.map fun key => result (rowsOf rows key))
    (there : ∀ source ∈ list, given[addresses source]? = some (keyOf source))
    (changes : ∀ source ∈ list, ∀ before : Multiset Row,
      change source (result before) = result (part source + before)) :
    Holds context { base with
        groups := list.foldl (fun groups source =>
          setState groups (addresses source) (change source)) base.groups } given ∧
      (list.foldl (fun groups source =>
        setState groups (addresses source) (change source)) base.groups).length = base.groups.length ∧
      (list.foldl (fun groups source =>
        setState groups (addresses source) (change source)) base.groups).map state =
        given.map fun key => result (rowsOf
          ((list.map fun source => (part source).map (Prod.mk (keyOf source))).sum + rows) key) := by
  induction list generalizing base rows with
  | nil => exact ⟨holds, rfl, by simpa using states⟩
  | cons source rest ih =>
    obtain ⟨nextHolds, nextStates⟩ := Tallies.join holds states (there source mem_cons_self)
      (changes source mem_cons_self _)
    obtain ⟨finalHolds, length, final⟩ := ih nextHolds nextStates
      (fun other listed => there other (mem_cons_of_mem _ listed))
      (fun other listed => changes other (mem_cons_of_mem _ listed))
    refine ⟨finalHolds, ?_, ?_⟩
    · rw [List.foldl_cons, length]
      exact length_modify _ _ _
    rw [List.foldl_cons, final, List.map_cons, List.sum_cons]
    apply map_congr_left
    intro key _
    congr 2
    rw [← add_assoc]
    congr 1
    exact add_comm _ _

theorem mem_sum_keys (nonempty : ∀ source ∈ list, part source ≠ 0) :
    key ∈ ((list.map fun source => (part source).map (Prod.mk (keyOf source))).sum).map Prod.fst ↔
      key ∈ list.map keyOf := by
  induction list with
  | nil => simp
  | cons source rest ih =>
    obtain ⟨row, inside⟩ := exists_mem_of_ne_zero (nonempty source mem_cons_self)
    rw [List.map_cons, List.sum_cons, Multiset.map_add, mem_add,
      ih fun other listed => nonempty other (mem_cons_of_mem _ listed), List.map_cons,
      List.mem_cons]
    apply or_congr_left
    simp only [Multiset.map_map, comp_apply, Multiset.mem_map]
    constructor
    · rintro ⟨_, _, same⟩
      exact same.symm
    · intro same
      exact ⟨row, inside, same.symm⟩

/-! Chunks and groups of other tables -/

theorem sum_singletons (chunk : List (Key × Row)) :
    (chunk.map fun row => ({row.2} : Multiset Row).map (Prod.mk row.1)).sum = (chunk : Multiset (Key × Row)) := by
  induction chunk with
  | nil => rfl
  | cons row rest ih =>
    rw [List.map_cons, List.sum_cons, ih, Multiset.map_singleton, singleton_add]
    rfl

/-- The groups of a list of sources are found or created, and the states of the sources join theirs. -/
theorem Tallies.gather (tallies : Tallies context result table keys rows)
    (accumulates : Accumulates context.function result) (change : Source → State → State) {hashes : Nat → Nat}
    (small : list.length ≤ standardVectorSize) (clear : ∀ source ∈ list, UnambiguousKey context.groupTypes (keyOf source))
    (hashed : ∀ (index : Nat) (source : Source), list[index]? = some source →
      hashes index = keyHash context (keyOf source)) {fits : Prop}
    (fit : fits → table.groups.length + list.length ≤ table.maxCapacity context)
    (changes : ∀ source ∈ list, ∀ before : Multiset Row, change source (result before) = result (part source + before))
    (nonempty : ∀ source ∈ list, part source ≠ 0) :
    Yields fits (fun found => Represents context result { found.1 with
        groups := list.zipIdx.foldl (fun groups source =>
          setState groups (found.2.1 source.2) (change source.1)) found.1.groups }
      ((list.map fun source => (part source).map (Prod.mk (keyOf source))).sum + rows))
      (table.findOrCreateGroups context (list.map keyOf) hashes) := by
  refine (tallies.holds.findOrCreateGroups tallies.sized (by rwa [length_map]) ?_ ?_ (by rwa [length_map])).mono
    fun ⟨found, addresses, _⟩ ⟨created, all⟩ => ?_
  · intro key listed
    obtain ⟨source, inside, rfl⟩ := mem_map.mp listed
    exact clear source inside
  · intro index key there
    rw [getElem?_map, map_eq_some_iff] at there
    obtain ⟨source, present, rfl⟩ := there
    exact hashed index source present
  · have there : ∀ source ∈ list.zipIdx, (keys ++ created)[addresses source.2]? = some (keyOf source.1) := by
      intro source listed
      apply all.settled
      rw [getElem?_map, mem_zipIdx_iff_getElem?.mp listed]
      rfl
    obtain ⟨holds, length, states⟩ := @Tallies.joinAll Row State context result rows found _
      (fun source => part source.1) list.zipIdx (fun source => change source.1)
      (fun source => keyOf source.1) _ (fun source => addresses source.2) all.holds
      (tallies.found accumulates all) there
      (fun source listed => changes source.1 (fst_mem_of_mem_zipIdx listed))
    have plain : (list.zipIdx.map fun source => (part source.1).map (Prod.mk (keyOf source.1))) =
        list.map fun source => (part source).map (Prod.mk (keyOf source)) := by
      have composed := map_map (f := Prod.fst)
        (g := fun source => (part source).map (Prod.mk (keyOf source))) (l := list.zipIdx)
      rw [zipIdx_map_fst] at composed
      exact composed.symm
    rw [plain] at states
    refine ⟨keys ++ created, holds, ⟨all.sized.large, ?_⟩, ?_, states⟩
    · exact lt_of_eq_of_lt length all.sized.free
    intro key
    rw [map_add, mem_add, mem_append, ← tallies.complete key, or_comm]
    rw [mem_sum_keys nonempty]
    constructor
    · rintro (new | old)
      · exact .inl (all.named key new)
      · exact .inr old
    rintro (given | old)
    · obtain ⟨index, present⟩ := mem_iff_getElem?.mp given
      have settled := mem_of_getElem? (all.settled index key present)
      rcases mem_append.mp settled with before | new
      · exact .inr before
      · exact .inl new
    · exact .inr old

include represents in
theorem Represents.addChunk (accumulates : Accumulates context.function result) {chunk : List (Key × Row)}
    {hashes : Nat → Nat} (small : chunk.length ≤ standardVectorSize)
    (clear : ∀ row ∈ chunk, UnambiguousKey context.groupTypes row.1)
    (hashed : ∀ (index : Nat) (row : Key × Row), chunk[index]? = some row →
      hashes index = keyHash context row.1) {fits : Prop}
    (fit : fits → table.groups.length + chunk.length ≤ table.maxCapacity context) :
    Yields fits (fun added => Represents context result added ((chunk : Multiset (Key × Row)) + rows))
      (table.addChunk context chunk hashes) := by
  unfold AggregateHashTable.addChunk
  split
  next none =>
    rw [List.isEmpty_iff] at none
    subst none
    rwa [coe_nil, zero_add]
  obtain ⟨keys, tallies⟩ := represents
  refine (tallies.gather accumulates (fun row state => context.function.update state row.2) small clear hashed fit
    (fun row _ before => by rw [accumulates.update, singleton_add])
    fun row _ => singleton_ne_zero row.2).bind fun found joined => ?_
  rwa [sum_singletons] at joined

def groupOf (context : Aggregation Row State) (result : Multiset Row → State)
    (part : Key × Multiset Row) : GroupEntry State where
  hash := keyHash context part.1
  values := storeKey context.groupTypes part.1
  state := result part.2

structure Carries (context : Aggregation Row State) (result : Multiset Row → State)
    (source : List (GroupEntry State)) (parts : List (Key × Multiset Row)) : Prop where
  entries : source = parts.map (groupOf context result)
  clear : ∀ part ∈ parts, UnambiguousKey context.groupTypes part.1
  nonempty : ∀ part ∈ parts, part.2 ≠ 0

def carried (parts : List (Key × Multiset Row)) : Multiset (Key × Row) :=
  (parts.map fun part => part.2.map (Prod.mk part.1)).sum

variable {source : List (GroupEntry State)} {parts : List (Key × Multiset Row)}

include represents in
theorem Represents.flushMove
    (accumulates : Accumulates context.function result) (small : source.length ≤ standardVectorSize)
    (carries : Carries context result source parts) {fits : Prop}
    (fit : fits → rows.card + source.length ≤ capacityLimit context) :
    Yields fits (fun moved => Represents context result moved (carried parts + rows))
      (table.flushMove context source) := by
  have limited : fits → table.groups.length + source.length ≤ table.maxCapacity context :=
    fun room => represents.fits (fit room)
  obtain ⟨keys, tallies⟩ := represents
  have gathered : (source.map fun entry => gatherKey context.groupTypes entry.values) = parts.map Prod.fst := by
    rw [carries.entries, List.map_map]
    apply map_congr_left
    intro part listed
    exact gatherKey_storeKey (carries.clear part listed)
  have hashed : ∀ (index : Nat) (part : Key × Multiset Row), parts[index]? = some part →
      ((source[index]?).map hash).getD 0 = keyHash context part.1 := by
    intro index part present
    rw [carries.entries, List.getElem?_map, present]
    rfl
  have length : parts.length = source.length := by
    rw [carries.entries, length_map]
  unfold AggregateHashTable.flushMove
  rw [gathered]
  refine (tallies.gather accumulates (fun part state => context.function.combine state (result part.2))
    (by rwa [length]) carries.clear hashed (by rwa [length])
    (fun part _ before => by rw [accumulates.combine, add_comm]) carries.nonempty).bind fun found joined => ?_
  have folded : source.zipIdx.foldl (fun groups entry => setState groups (found.2.1 entry.2)
        fun state => context.function.combine state entry.1.state) found.1.groups =
      parts.zipIdx.foldl (fun groups part => setState groups (found.2.1 part.2)
        fun state => context.function.combine state (result part.1.2)) found.1.groups := by
    rw [carries.entries, zipIdx_map, foldl_map]
    rfl
  change Represents context result { found.1 with groups := source.zipIdx.foldl _ found.1.groups } _
  rw [folded]
  exact joined

theorem carried_keys (rows : Multiset (Key × Row)) {list : List Key} (distinct : list.Nodup) :
    carried (list.map fun key => (key, rowsOf rows key)) = rows.filter fun row => row.1 ∈ list := by
  induction list with
  | nil =>
    simp [carried]
  | cons key rest ih =>
    obtain ⟨new, later⟩ := nodup_cons.mp distinct
    have own : (rowsOf rows key).map (Prod.mk key) = rows.filter fun row => row.1 = key := by
      rw [rowsOf, Multiset.map_map]
      conv_rhs => rw [← map_id (rows.filter fun row => row.1 = key)]
      apply map_congr rfl
      intro row listed
      exact Prod.ext (mem_filter.mp listed).2.symm rfl
    have tail := ih later
    unfold carried at tail ⊢
    rw [List.map_cons, List.map_cons, List.sum_cons, tail, own, filter_add_filter]
    have apart : (rows.filter fun row => row.1 = key ∧ row.1 ∈ rest) = 0 := by
      rw [filter_eq_nil]
      rintro row _ ⟨same, inside⟩
      exact new (same ▸ inside)
    rw [apart, add_zero]
    exact filter_congr fun row _ => mem_cons.symm

theorem entries_eq {stored : Key → List Datum} {hashed : Key → Nat} {states : Key → State}
    (values : groups.map values = keys.map stored) (hashes : groups.map GroupEntry.hash = keys.map hashed)
    (given : groups.map state = keys.map states) : groups = keys.map fun key => ⟨hashed key, stored key, states key⟩ := by
  induction groups generalizing keys with
  | nil => rw [map_eq_nil_iff.mp values.symm, map_nil]
  | cons entry rest ih =>
    cases keys with
    | nil => cases values
    | cons key later =>
      obtain ⟨hash, stored, state⟩ := entry
      simp only [List.map_cons, cons.injEq] at values hashes given ⊢
      rw [← ih values.2 hashes.2 given.2, values.1, hashes.1, given.1]
      exact ⟨rfl, rfl⟩

theorem Tallies.carried (tallies : Tallies context result table keys rows) :
    carried (keys.map fun key => (key, rowsOf rows key)) = rows := by
  rw [carried_keys rows tallies.holds.distinct, Multiset.filter_eq_self]
  exact fun row listed => (tallies.complete row.1).mpr (mem_map_of_mem _ listed)

theorem Tallies.carries (tallies : Tallies context result table keys rows) :
    Carries context result table.groups (keys.map fun key => (key, rowsOf rows key)) where
  entries := by
    rw [List.map_map]
    exact entries_eq tallies.holds.values tallies.holds.hashes tallies.states
  clear := by
    intro part listed
    obtain ⟨key, inside, rfl⟩ := mem_map.mp listed
    exact tallies.holds.clear key inside
  nonempty := by
    intro part listed
    obtain ⟨key, inside, rfl⟩ := mem_map.mp listed
    obtain ⟨row, present, same⟩ := mem_map.mp ((tallies.complete key).mp inside)
    intro none
    have member : row.2 ∈ rowsOf rows key := mem_map.mpr ⟨row, mem_filter.mpr ⟨present, same⟩, rfl⟩
    exact notMem_zero _ (mem_of_le (le_of_eq none) member)

def Collected (context : Aggregation Row State) (result : Multiset Row → State)
    (collected : AggregateHashTable State × List (GroupEntry State))
    (total : Multiset (Key × Row)) : Prop :=
  ∃ parts rows, Represents context result collected.1 rows ∧
    Carries context result collected.2 parts ∧ carried parts + rows = total ∧
    collected.2.length < standardVectorSize

include represents in
theorem Collected.begin : Collected context result (table, []) rows :=
  ⟨[], rows, represents, ⟨rfl, by simp, by simp⟩, zero_add rows, Nat.zero_lt_succ _⟩

variable {collected : AggregateHashTable State × List (GroupEntry State)}
  {total : Multiset (Key × Row)}

section

variable (given : Collected context result collected total)
include given

theorem Collected.card_le : ∃ parts rows, Represents context result collected.1 rows ∧
      Carries context result collected.2 parts ∧ carried parts + rows = total ∧
      collected.2.length < standardVectorSize ∧ rows.card ≤ total.card := by
  obtain ⟨parts, rows, represents, carries, rfl, short⟩ := given
  exact ⟨parts, rows, represents, carries, rfl, short, card_le_card (le_add_left _ _)⟩

theorem Collected.flush (accumulates : Accumulates context.function result) {fits : Prop}
    (fit : fits → total.card + standardVectorSize ≤ capacityLimit context) :
    Yields fits (fun moved => Represents context result moved total) (collected.1.flushMove context collected.2) := by
  obtain ⟨parts, rows, represents, carries, rfl, short, fewer⟩ := given.card_le
  exact represents.flushMove accumulates (le_of_lt short) carries fun room => by have := fit room; omega

theorem Collected.collect (accumulates : Accumulates context.function result)
    {entry : GroupEntry State} {part : Key × Multiset Row}
    (single : Carries context result [entry] [part]) {fits : Prop}
    (fit : fits → total.card + standardVectorSize ≤ capacityLimit context) :
    Yields fits (fun next => Collected context result next (part.2.map (Prod.mk part.1) + total))
      (collect context collected entry) := by
  obtain ⟨parts, rows, represents, carries, rfl, short, fewer⟩ := given.card_le
  have more : Carries context result (collected.2 ++ [entry]) (parts ++ [part]) := by
    refine ⟨?_, ?_, ?_⟩
    · rw [map_append, ← carries.entries, single.entries]
    · intro other listed
      rcases mem_append.mp listed with old | new
      · exact carries.clear other old
      · exact single.clear other new
    · intro other listed
      rcases mem_append.mp listed with old | new
      · exact carries.nonempty other old
      · exact single.nonempty other new
  have sum : carried (parts ++ [part]) = part.2.map (Prod.mk part.1) + carried parts := by
    simp only [carried, map_append, sum_append, List.map_singleton, List.sum_singleton]
    exact add_comm _ _
  unfold AggregateHashTable.collect
  dsimp only
  split
  next full =>
    refine (represents.flushMove accumulates (le_of_eq full) more fun room => by
      have := fit room
      omega).bind fun moved represented => ?_
    rw [sum, add_assoc] at represented
    exact Collected.begin represented
  next open' =>
    refine ⟨_, rows, represents, more, ?_, ?_⟩
    · rw [sum, add_assoc]
    · rw [length_append, length_singleton] at open' ⊢
      omega

end

theorem carried_append (first second : List (Key × Multiset Row)) :
    carried (first ++ second) = carried first + carried second := by
  rw [carried, map_append, sum_append]
  rfl

theorem carried_card_le {done rest : List (Key × Multiset Row)} (split : parts = done ++ rest) :
    (carried done).card ≤ (carried parts).card := by
  rw [split, carried_append]
  exact card_le_card (le_add_right _ _)

theorem carried_filter_card_le (p : Key × Multiset Row → Bool) (parts : List (Key × Multiset Row)) :
    (carried (parts.filter p)).card ≤ (carried parts).card := by
  induction parts with
  | nil => exact le_refl _
  | cons part rest ih =>
    rw [filter_cons]
    split
    · simp only [carried, List.map_cons, List.sum_cons, card_add] at ih ⊢
      omega
    · simp only [carried, List.map_cons, List.sum_cons, card_add] at ih ⊢
      omega

theorem Carries.single (carries : Carries context result source parts) {part : Key × Multiset Row}
    (listed : part ∈ parts) : Carries context result [groupOf context result part] [part] :=
  ⟨rfl, by simpa using carries.clear part listed, by simpa using carries.nonempty part listed⟩

include represents in
theorem Represents.combine {other : AggregateHashTable State} {others : Multiset (Key × Row)}
    (otherRepresents : Represents context result other others)
    (accumulates : Accumulates context.function result) {fits : Prop}
    (fit : fits → (others + rows).card + standardVectorSize ≤ capacityLimit context) :
    Yields fits (fun combined => Represents context result combined (others + rows)) (table.combine context other) := by
  obtain ⟨otherKeys, tallies⟩ := otherRepresents
  have carries := tallies.carries
  have all := tallies.carried
  generalize otherKeys.map (fun key => (key, rowsOf others key)) = parts at carries all
  subst others
  unfold AggregateHashTable.combine
  split
  next none =>
    rw [List.isEmpty_iff, carries.entries, map_eq_nil_iff] at none
    rw [none]
    exact (zero_add rows).symm ▸ represents
  rw [carries.entries, foldlM_map]
  have gathered := @Yields.foldlM String _ _ fits (fun collected part =>
      AggregateHashTable.collect context collected (groupOf context result part))
    (fun done collected => Collected context result collected (carried done + rows)) parts
    (by
      intro done part rest collected split given
      have fewer := carried_card_le split
      have listed : part ∈ parts := by
        rw [split]
        exact mem_append_right _ mem_cons_self
      refine (given.collect accumulates (carries.single listed) ?_).mono fun next more => ?_
      · intro room
        have := fit room
        rw [card_add] at this ⊢
        omega
      · rw [carried_append, add_comm (carried done), add_assoc]
        simpa [carried] using more)
    (table, []) (by simpa [carried] using Collected.begin represents)
  exact gathered.bind fun collected given => given.flush accumulates fit

include represents in
theorem Represents.partition (accumulates : Accumulates context.function result) {partitionOf : Nat → Nat}
    {targets : Nat → AggregateHashTable State} {base : Nat → Multiset (Key × Row)}
    {count : Nat} (given : ∀ index, Represents context result (targets index) (base index))
    {fits : Prop} (fit : fits → ∀ index, (rows + base index).card + standardVectorSize ≤ capacityLimit context) :
    Yields fits (fun tables => ∀ index < count, Represents context result (tables index)
        ((rows.filter fun row => partitionOf (keyHash context row.1) = index) + base index))
      (table.partition context partitionOf targets count) := by
  obtain ⟨keys, tallies⟩ := represents
  have carries := tallies.carries
  have sent : ∀ index, carried ((keys.map fun key => (key, rowsOf rows key)).filter fun part =>
        partitionOf (keyHash context part.1) = index) =
      rows.filter fun row => partitionOf (keyHash context row.1) = index := by
    intro index
    rw [List.filter_map, carried_keys rows (tallies.holds.distinct.filter _)]
    apply Multiset.filter_congr
    intro row listed
    have known := (tallies.complete row.1).mpr (mem_map_of_mem _ listed)
    simp [known]
  have all := tallies.carried
  simp only [← sent]
  generalize keys.map (fun key => (key, rowsOf rows key)) = parts at carries all
  unfold AggregateHashTable.partition
  rw [carries.entries, foldlM_map]
  have limited : fits → ∀ (done rest : List (Key × Multiset Row)) index, parts = done ++ rest →
      (carried (done.filter fun part => partitionOf (keyHash context part.1) = index) +
        base index).card + standardVectorSize ≤ capacityLimit context := by
    intro room done rest index split
    have fewer := carried_filter_card_le (fun part => partitionOf (keyHash context part.1) = index) done
    have earlier := carried_card_le split
    have := fit room index
    rw [card_add] at this ⊢
    rw [all] at earlier
    omega
  refine Yields.bind (@Yields.foldlM String (Nat → AggregateHashTable State × List _) _ fits _
    (fun done collected => ∀ index, Collected context result (collected index) (carried
      (done.filter fun part => partitionOf (keyHash context part.1) = index) + base index))
    parts ?_ _ ?_) fun collected collects => ?_
  · intro done part rest collected split before
    have listed : part ∈ parts := by
      rw [split]
      exact mem_append_right _ mem_cons_self
    refine ((before (partitionOf (keyHash context part.1))).collect accumulates
      (carries.single listed) fun room => limited room done _ _ split).bind
      fun changed more => ?_
    intro other
    rw [filter_append, carried_append]
    by_cases here : other = partitionOf (keyHash context part.1)
    · subst other
      change Collected context result (update collected (partitionOf (keyHash context part.1)) changed _) _
      rw [update_self, add_comm (carried (done.filter _)), add_assoc]
      simpa [carried] using more
    · change Collected context result (update collected (partitionOf (keyHash context part.1)) changed other) _
      have elsewhere : partitionOf (keyHash context part.1) ≠ other := fun same => here same.symm
      rw [update_of_ne here]
      simpa [carried, elsewhere] using before other
  · exact fun index => by simpa [carried] using Collected.begin (given index)
  · refine (@Yields.updateEach String _ fits (fun index table => table.flushMove context (collected index).2)
      (fun index moved => Represents context result moved (carried (parts.filter fun part =>
        partitionOf (keyHash context part.1) = index) + base index))
      (fun index => (collected index).1) count fun index _ => ?_).mono fun tables flushed => ?_
    · exact (collects index).flush accumulates fun room =>
        limited room parts [] index (append_nil parts).symm
    · exact fun index inside => (flushed index).1 inside

end AggregateHashTable

end GuinsooDB
