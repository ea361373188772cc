import GuinsooDB.Aggregate.Grouping
import GuinsooDB.Join.Operator
import GuinsooDB.Join.Scan

/-!
What the hash table holds after all chunks of the build side have been added: the chain of a
probe row gives its partners, the row that was built last first.
-/

namespace GuinsooDB

open Outcome List ScanStructure Function

def keptKey : List JoinCondition → Nat → Key → Bool
  | [], _, _ => true
  | condition :: rest, column, key =>
    (condition.nullValuesAreEqual || (key.getD column none).isSome) && keptKey rest (column + 1) key

namespace HashJoin

variable {Left : Type} {plan : HashJoin}

theorem filterNulls_eq (keys : Nat → Key) {conditions : List JoinCondition} {column : Nat}
    {selected : List Nat} : filterNulls keys conditions column selected =
      selected.filter fun index => keptKey conditions column (keys index) := by
  induction conditions generalizing column selected with
  | nil => simp [filterNulls, keptKey]
  | cons condition rest ih =>
    rw [filterNulls, ih]
    cases equal : condition.nullValuesAreEqual with
    | true => simp [keptKey, equal]
    | false =>
      simp [keptKey, equal, Bool.and_comm]

def keptBuild (plan : HashJoin) (row : BuildRow) : Bool :=
  plan.joinType.isRightOuter || keptKey plan.conditions 0 row.keys

def keptProbe (plan : HashJoin) (row : ProbeRow Left) : Bool := keptKey plan.conditions 0 row.keys

theorem prepareKeys_build (rows : List BuildRow) :
    plan.prepareKeys (rows.map BuildRow.keys) true = (range rows.length).filter fun index =>
      plan.joinType.isRightOuter || keptKey plan.conditions 0 ((rows.map BuildRow.keys).getD index []) := by
  unfold prepareKeys
  cases plan.joinType.isRightOuter with
  | true => simp
  | false => simp [filterNulls_eq]

variable {Item : Type}

theorem filterMap_filter_range (list : List Item) (f : Nat → Bool) (p : Item → Bool)
    (agree : ∀ index item, list[index]? = some item → f index = p item) :
    ((range list.length).filter f).filterMap (fun index => list[index]?) = list.filter p := by
  induction list generalizing f with
  | nil => rfl
  | cons item rest ih =>
    have here := agree 0 item rfl
    have later := ih (fun index => f (index + 1)) fun index other there =>
      agree (index + 1) other there
    rw [length_cons, range_succ_eq_map, filter_cons, here, filter_map, filter_cons]
    split
    · rw [filterMap_cons, filterMap_map]
      exact congrArg (item :: ·) later
    · rw [filterMap_map]
      exact later

def keptRows (plan : HashJoin) (builds : List BuildRow) : List BuildRow :=
  builds.filter plan.keptBuild

theorem keptRows_append (first second : List BuildRow) :
    plan.keptRows (first ++ second) = plan.keptRows first ++ plan.keptRows second :=
  filter_append _ _

def correlatedRows (plan : HashJoin) (builds : List BuildRow) : Multiset (Key × Bool) :=
  (builds.map fun row =>
    (row.keys.take plan.correlated, (row.keys.getD plan.correlated none).isSome) : List _)

def countGroup (rows : Multiset Bool) : Nat × Nat := (rows.card, rows.count true)

theorem counts_accumulates {plan : HashJoin} : Accumulates plan.counts.function countGroup where
  initial := rfl
  update := by
    intro rows valid
    cases valid <;> simp [counts, countGroup]
  combine := by
    simp [counts, countGroup]

def ClearGroups (plan : HashJoin) (keys : List Key) : Prop :=
  plan.joinType = .mark → plan.correlated ≠ 0 →
    ∀ key ∈ keys, UnambiguousKey plan.counts.groupTypes (key.take plan.correlated)

def CountsFit (plan : HashJoin) (rows : Nat) : Prop :=
  plan.joinType = .mark → plan.correlated ≠ 0 →
    rows + standardVectorSize ≤ AggregateHashTable.capacityLimit plan.counts

structure Gathered (plan : HashJoin) (builds : List BuildRow) (table : JoinHashTable) : Prop where
  entries : table.entries = (plan.keptRows builds).map plan.serialize
  hasNull : table.hasNull = decide ((plan.keptRows builds).length < builds.length)
  found : table.found = fun _ => false
  counts : plan.joinType = .mark → plan.correlated ≠ 0 →
    AggregateHashTable.Represents plan.counts countGroup table.correlatedCounts
      (plan.correlatedRows builds)

theorem Gathered.create : Gathered plan [] createTable where
  entries := rfl
  hasNull := rfl
  found := rfl
  counts := fun _ _ => AggregateHashTable.Represents.create _ _ _

theorem ClearGroups.append {first second : List Key} :
    plan.ClearGroups (first ++ second) ↔ plan.ClearGroups first ∧ plan.ClearGroups second := by
  constructor
  · intro clear
    exact ⟨fun mark counted key listed => clear mark counted key (mem_append_left _ listed),
      fun mark counted key listed => clear mark counted key (mem_append_right _ listed)⟩
  · rintro ⟨one, two⟩ mark counted key listed
    exact (mem_append.mp listed).elim (one mark counted key) (two mark counted key)

variable {builds rows : List BuildRow} {fits : Prop} {table : JoinHashTable}

section

variable (gathered : Gathered plan builds table) (small : rows.length ≤ standardVectorSize)
  (clear : plan.ClearGroups (rows.map BuildRow.keys)) (fit : fits → plan.CountsFit builds.length)
include gathered small clear fit

theorem countCorrelated_spec : Yields fits (fun added => plan.joinType = .mark → plan.correlated ≠ 0 →
        AggregateHashTable.Represents plan.counts countGroup added (plan.correlatedRows (builds ++ rows)))
      (plan.countCorrelated table.correlatedCounts rows) := by
  unfold countCorrelated
  split
  next correlated =>
    obtain ⟨mark, counted⟩ := correlated
    have represents := gathered.counts mark counted
    refine (represents.addChunk (counts_accumulates) (by rwa [length_map]) ?_ ?_
      fun room => represents.fits ?_).mono fun added more _ _ => ?_
    · intro row listed
      obtain ⟨source, inside, rfl⟩ := mem_map.mp listed
      exact clear mark counted _ (mem_map_of_mem inside)
    · intro index row there
      rw [getD_eq_getElem?_getD, getElem?_map, there]
      rfl
    · have limit := fit room mark counted
      rw [correlatedRows, Multiset.coe_card, length_map, length_map]
      omega
    · rw [correlatedRows, map_append, ← Multiset.coe_add, Multiset.add_comm]
      exact more
  next plain =>
    exact fun mark counted => absurd ⟨mark, counted⟩ plain

theorem Gathered.build : Yields fits (Gathered plan (builds ++ rows)) (plan.build table rows) := by
  unfold HashJoin.build
  split
  next none =>
    rw [List.isEmpty_iff] at none
    rw [none, append_nil]
    exact gathered
  refine (countCorrelated_spec gathered small clear fit).bind fun counts counted => ?_
  have selected : ((plan.prepareKeys (rows.map BuildRow.keys) true).filterMap
      fun index => rows[index]?) = plan.keptRows rows := by
    rw [prepareKeys_build]
    apply filterMap_filter_range
    intro index row there
    rw [getD_eq_getElem?_getD, getElem?_map, there]
    rfl
  have length : (plan.prepareKeys (rows.map BuildRow.keys) true).length = (plan.keptRows rows).length := by
    rw [← selected]
    symm
    rw [length_filterMap_eq_countP, countP_eq_length]
    intro index listed
    rw [prepareKeys_build] at listed
    have inside := mem_range.mp (mem_of_mem_filter listed)
    simp [inside]
  have fewer : (plan.keptRows builds).length ≤ builds.length := length_filter_le _ _
  have fewerRows : (plan.keptRows rows).length ≤ rows.length := length_filter_le _ _
  refine ⟨?_, ?_, gathered.found, counted⟩
  · change table.entries ++ _ = _
    rw [gathered.entries, selected, keptRows_append, map_append]
  change (table.hasNull || _) = _
  rw [gathered.hasNull, length, keptRows_append, length_append, length_append, ← Bool.decide_or]
  congr 1
  apply propext
  omega

end

theorem Gathered.buildChunks {chunks : List (List BuildRow)} (gathered : Gathered plan builds table)
    (small : ∀ chunk ∈ chunks, chunk.length ≤ standardVectorSize)
    (clear : plan.ClearGroups (chunks.flatten.map BuildRow.keys))
    (fit : fits → plan.CountsFit (builds ++ chunks.flatten).length) :
    Yields fits (Gathered plan (builds ++ chunks.flatten)) (chunks.foldlM plan.build table) := by
  induction chunks generalizing table builds with
  | nil =>
    rw [flatten_nil, append_nil]
    exact gathered
  | cons chunk rest ih =>
    rw [flatten_cons, map_append, ClearGroups.append] at clear
    rw [flatten_cons, ← append_assoc] at fit ⊢
    refine (gathered.build (small chunk mem_cons_self) clear.1 fun room mark counted => ?_).bind
      fun next more => ih more (fun other listed => small other (mem_cons_of_mem _ listed)) clear.2 fit
    have limit := fit room mark counted
    rw [length_append, length_append] at limit
    omega

theorem insertHashes_spec {entries : List (JoinEntry × Nat)} :
    (insertHashes table entries).entries = table.entries ∧ (insertHashes table entries).found = table.found ∧
      (insertHashes table entries).hasNull = table.hasNull ∧
      (insertHashes table entries).correlatedCounts = table.correlatedCounts ∧
      (insertHashes table entries).bitmask = table.bitmask ∧
      ∀ bucket, (insertHashes table entries).hashMap bucket =
        ((entries.filter fun entry => entry.1.hash &&& table.bitmask = bucket).map Prod.snd).reverse ++
          table.hashMap bucket := by
  induction entries generalizing table with
  | nil => exact ⟨rfl, rfl, rfl, rfl, rfl, fun _ => rfl⟩
  | cons entry rest ih =>
    obtain ⟨entries, found, hasNull, counts, bitmask, chains⟩ := @ih { table with
      hashMap := update table.hashMap (entry.1.hash &&& table.bitmask)
        (entry.2 :: table.hashMap (entry.1.hash &&& table.bitmask)) }
    refine ⟨entries, found, hasNull, counts, bitmask, fun bucket => (chains bucket).trans ?_⟩
    dsimp only
    by_cases here : entry.1.hash &&& table.bitmask = bucket
    · subst here
      simp
    · rw [update_of_ne (Ne.symm here), filter_cons, if_neg (by simpa using here)]

def bitmaskOf (plan : HashJoin) (builds : List BuildRow) : Nat :=
  Nat.nextPowerOfTwo (max ((plan.keptRows builds).length * 2) (blockAllocSize / 8 + 1)) - 1

/-- What stays the same in the finalised table while it is probed. -/
structure Indexed (plan : HashJoin) (builds : List BuildRow) (table : JoinHashTable) : Prop where
  entries : table.entries = (plan.keptRows builds).map plan.serialize
  hasNull : table.hasNull = decide ((plan.keptRows builds).length < builds.length)
  bitmask : table.bitmask = plan.bitmaskOf builds
  chains : ∀ bucket, table.hashMap bucket = ((table.entries.zipIdx.filter fun entry =>
    entry.1.hash &&& table.bitmask = bucket).map Prod.snd).reverse

theorem Gathered.finalize (gathered : Gathered plan builds table) :
    Indexed plan builds (finalize table) ∧ (HashJoin.finalize table).found = (fun _ => false) ∧
      (HashJoin.finalize table).correlatedCounts = table.correlatedCounts := by
  obtain ⟨entries, found, hasNull, counts, bitmask, chains⟩ := @insertHashes_spec
    { table with
      bitmask := Nat.nextPowerOfTwo (max (table.entries.length * 2) (blockAllocSize / 8 + 1)) - 1
      hashMap := fun _ => [] } table.entries.zipIdx
  refine ⟨⟨entries.trans gathered.entries, hasNull.trans gathered.hasNull, bitmask.trans ?_, ?_⟩,
    found.trans gathered.found, counts⟩
  · rw [bitmaskOf, gathered.entries, length_map]
  intro bucket
  refine (chains bucket).trans ?_
  rw [append_nil]
  change _ = ((zipIdx (insertHashes _ _).entries).filter _ |>.map _).reverse
  rw [entries]
  have mask : (HashJoin.finalize table).bitmask = _ := bitmask
  rw [mask]

def joins (plan : HashJoin) (builds : List BuildRow) (row : ProbeRow Left) (build : BuildRow) :
    Bool :=
  plan.keptProbe row && plan.keptBuild build &&
    (plan.hashKeys row.keys &&& plan.bitmaskOf builds) ==
      (plan.hashKeys build.keys &&& plan.bitmaskOf builds) &&
    matchColumns plan.conditions 0 row.keys (storeKey plan.conditionTypes build.keys)

def partners (plan : HashJoin) (builds : List BuildRow) (row : ProbeRow Left) : List BuildRow :=
  (builds.filter (plan.joins builds row)).reverse

def chainOf (plan : HashJoin) (table : JoinHashTable) (row : ProbeRow Left) : List Nat :=
  if plan.keptProbe row then table.hashMap (plan.hashKeys row.keys &&& table.bitmask) else []

def hits (plan : HashJoin) (table : JoinHashTable) (row : ProbeRow Left) : List Nat :=
  (plan.chainOf table row).filter fun entry => matchColumns plan.conditions 0 row.keys
    (((table.entries[entry]?).map JoinEntry.keys).getD [])

theorem filter_numbered (list : List Item) (p q : Item → Bool) (f : Nat → Bool)
    (agree : ∀ index item, list[index]? = some item → f index = q item) :
    ((((list.zipIdx.filter fun entry => p entry.1).map Prod.snd).reverse).filter f).map (fun index => list[index]?) =
      (list.filter fun item => p item && q item).reverse.map some := by
  rw [filter_reverse, map_reverse, map_reverse, filter_map, map_map, filter_filter]
  congr 1
  have numbered : ∀ entry ∈ list.zipIdx, list[entry.2]? = some entry.1 := fun entry listed =>
    mem_zipIdx_iff_getElem?.mp listed
  have filtered : (list.zipIdx.filter fun entry => (f ∘ Prod.snd) entry && p entry.1) =
      list.zipIdx.filter fun entry => p entry.1 && q entry.1 := by
    apply filter_congr
    intro entry listed
    rw [comp_apply, agree _ _ (numbered entry listed), Bool.and_comm]
  rw [filtered]
  calc _ = (list.zipIdx.filter fun entry => p entry.1 && q entry.1).map (some ∘ Prod.fst) := by
        apply map_congr_left
        intro entry listed
        exact numbered entry (mem_of_mem_filter listed)
    _ = _ := by
        rw [← map_map]
        conv_rhs => rw [← zipIdx_map_fst 0 list, filter_map]
        rfl

theorem Indexed.hits_entries (indexed : Indexed plan builds table) (row : ProbeRow Left) :
    (plan.hits table row).map (fun entry => table.entries[entry]?) =
      (plan.partners builds row).map fun build => some (plan.serialize build) := by
  rw [hits, chainOf, partners]
  cases kept : plan.keptProbe row with
  | false =>
    have none : builds.filter (plan.joins builds row) = [] := by
      simp [joins, kept]
    simp [none]
  | true =>
    rw [if_pos rfl, indexed.chains, filter_numbered table.entries
      (fun entry => entry.hash &&& table.bitmask = plan.hashKeys row.keys &&& table.bitmask)
      (fun entry => matchColumns plan.conditions 0 row.keys entry.keys)]
    · rw [indexed.entries, filter_map, keptRows, filter_filter, ← map_reverse, map_map]
      congr 2
      apply filter_congr
      intro build _
      simp only [comp_apply, joins, kept, serialize, indexed.bitmask, Bool.true_and]
      rw [Bool.and_comm, Bool.and_assoc]
      congr 2
      rw [Bool.eq_iff_iff, beq_iff_eq]
      exact decide_eq_true_iff.trans eq_comm
    · intro index entry there
      rw [there]
      rfl

theorem Indexed.chain_valid (indexed : Indexed plan builds table) (row : ProbeRow Left) :
    (plan.chainOf table row).Nodup ∧ ∀ entry ∈ plan.chainOf table row, entry < table.entries.length := by
  unfold chainOf
  split
  · rw [indexed.chains]
    refine ⟨nodup_reverse.mpr ?_, fun entry listed => ?_⟩
    · have numbers : (table.entries.zipIdx.map Prod.snd).Nodup := by
        rw [zipIdx_map_snd]
        exact nodup_range'
      exact numbers.sublist (filter_sublist.map Prod.snd)
    · obtain ⟨numbered, inside, rfl⟩ := mem_map.mp (mem_reverse.mp listed)
      have there := mem_zipIdx_iff_getElem?.mp (mem_of_mem_filter inside)
      exact (List.getElem?_eq_some_iff.mp there).1
  · exact ⟨nodup_nil, fun entry listed => absurd listed not_mem_nil⟩

theorem nodup_length_le {list : List Nat} {count : Nat} (distinct : list.Nodup)
    (below : ∀ index ∈ list, index < count) : list.length ≤ count := by
  have subset : list ⊆ range count := fun index listed => mem_range.mpr (below index listed)
  have bound := (distinct.subperm subset).length_le
  rwa [length_range] at bound

section Probe

variable {table : JoinHashTable} {builds : List BuildRow} {probe : List (ProbeRow Left)}

theorem probe_pointers (index : Nat) : (plan.probe table probe).pointers index = match probe[index]? with
      | none => []
      | some row => plan.chainOf table row := by
  have selected : index ∈ plan.prepareKeys (probe.map ProbeRow.keys) false ↔
      index < probe.length ∧ keptKey plan.conditions 0 ((probe.map ProbeRow.keys).getD index []) = true := by
    simp [prepareKeys, filterNulls_eq]
  change (if index ∈ plan.prepareKeys (probe.map ProbeRow.keys) false then _ else _) = _
  cases there : probe[index]? with
  | none =>
    rw [if_neg fun listed => ?_]
    exact absurd (selected.mp listed).1 (Nat.not_lt.mpr (getElem?_eq_none_iff.mp there))
  | some row =>
    have inside := (List.getElem?_eq_some_iff.mp there).1
    have key : (probe.map ProbeRow.keys).getD index [] = row.keys := by
      rw [getD_eq_getElem?_getD, getElem?_map, there]
      rfl
    have probed : probeKeys probe index = row.keys := by
      rw [probeKeys, there]
      rfl
    rw [key] at selected
    rw [probed]
    by_cases kept : plan.keptProbe row = true
    · rw [if_pos (selected.mpr ⟨inside, kept⟩)]
      simp [chainOf, kept]
    · rw [if_neg fun listed => kept (selected.mp listed).2]
      simp [chainOf, kept]

theorem probe_active (indexed : Indexed plan builds table) :
    ScanStructure.Active table probe (plan.probe table probe) := by
  have pointers := @probe_pointers Left plan table probe
  refine ⟨?_, ?_, ?_, ?_, ?_⟩
  · refine List.Nodup.filter _ ?_
    simp only [prepareKeys, Bool.false_and, Bool.false_eq_true, if_false, filterNulls_eq]
    exact nodup_range.filter _
  · intro index
    change index ∈ filter _ _ ↔ _
    rw [mem_filter]
    change index ∈ plan.prepareKeys (probe.map ProbeRow.keys) false ∧
      (!((plan.probe table probe).pointers index).isEmpty) = true ↔ _
    constructor
    · rintro ⟨_, more⟩
      simpa using more
    intro more
    refine ⟨?_, by simpa using more⟩
    by_contra out
    refine more ?_
    change (if index ∈ plan.prepareKeys (probe.map ProbeRow.keys) false then _ else _) = _
    rw [if_neg out]
  · intro index more
    rw [pointers] at more
    by_contra out
    rw [getElem?_eq_none_iff.mpr (Nat.not_lt.mp out)] at more
    exact more rfl
  · intro index entry listed
    rw [pointers] at listed
    cases there : probe[index]? with
    | none =>
      rw [there] at listed
      exact absurd listed not_mem_nil
    | some row =>
      rw [there] at listed
      exact (indexed.chain_valid row).2 entry listed
  · intro index
    rw [pointers]
    cases there : probe[index]? with
    | none => exact Nat.zero_le _
    | some row =>
      exact nodup_length_le (indexed.chain_valid row).1 (indexed.chain_valid row).2

theorem probe_remaining {index : Nat} {row : ProbeRow Left} (there : probe[index]? = some row) :
    remaining plan table probe (plan.probe table probe) index = plan.hits table row := by
  rw [remaining, probe_pointers, there, hits]
  apply filter_congr
  intro entry _
  rw [matchesEntry, probeKeys, there]
  rfl

end Probe

end HashJoin

end GuinsooDB
