import GuinsooDB.Join.Build

/-!
The rows that the probe of a chunk gives, call by call: what a call returns and what is left
add up to the rows of all probe rows.
-/

namespace GuinsooDB

open Outcome ScanStructure AggregateHashTable HashJoin Bool
open Finset (range sum_add_distrib sum_congr sum_eq_zero sum_range_succ')
open List hiding range sum_eq_zero sum_range_succ' getElem?_eq_some_iff

namespace HashJoin

variable {Left : Type} {plan : HashJoin}

def joinedPair (plan : HashJoin) (row : ProbeRow Left) (build : BuildRow) : JoinedRow Left where
  left := some row
  right := some build
  columns := gatherKey plan.buildTypes (storeKey plan.buildTypes build.payload)

def alone (row : ProbeRow Left) (columns : List Cell) : JoinedRow Left where
  left := some row
  right := none
  columns := columns

def markOf (plan : HashJoin) (builds : List BuildRow) (row : ProbeRow Left) : Cell :=
  let found := !(plan.partners builds row).isEmpty
  let hasNull := decide ((plan.keptRows builds).length < builds.length)
  if (plan.keptRows builds).isEmpty then
    if hasNull then none else booleanCell false
  else if plan.correlated = 0 then
    if plan.keptProbe row && (found || !hasNull) then booleanCell found else none
  else
    let counts := countGroup (AggregateHashTable.rowsOf (plan.correlatedRows builds)
      (row.keys.take plan.correlated))
    let lastValid := (row.keys.getLast?.getD none).isSome
    if counts.1 = 0 || (lastValid && (found || counts.1 ≤ counts.2)) then
      booleanCell found
    else none

def emitted (plan : HashJoin) (builds : List BuildRow) (row : ProbeRow Left) :
    List (JoinedRow Left) :=
  let found := plan.partners builds row
  match plan.joinType with
  | .inner | .right => found.map (plan.joinedPair row)
  | .left | .outer => found.map (plan.joinedPair row) ++
      if found.isEmpty then [alone row (nullColumns plan)] else []
  | .semi => if found.isEmpty then [] else [alone row []]
  | .anti => if found.isEmpty then [alone row []] else []
  | .single =>
    [(found.head?.map (plan.joinedPair row)).getD (alone row (nullColumns plan))]
  | .mark => [alone row [plan.markOf builds row]]

def emittedAll (plan : HashJoin) (builds : List BuildRow) (rows : List (ProbeRow Left)) :
    Multiset (JoinedRow Left) :=
  (rows.flatMap (plan.emitted builds) : List (JoinedRow Left))

theorem emittedAll_append (builds : List BuildRow) (first second : List (ProbeRow Left)) :
    plan.emittedAll builds (first ++ second) = plan.emittedAll builds first + plan.emittedAll builds second := by
  rw [emittedAll, flatMap_append, ← Multiset.coe_add]
  rfl

theorem sum_rows {Value : Type} (rows : List (ProbeRow Left)) (f : ProbeRow Left → List Value)
    (g : Nat → Multiset Value)
    (agree : ∀ index row, rows[index]? = some row → g index = (f row : Multiset Value)) :
    ∑ index ∈ range rows.length, g index = (rows.flatMap f : List Value) := by
  induction rows generalizing g with
  | nil => rfl
  | cons row rest ih =>
    rw [length_cons, sum_range_succ', ih (fun index => g (index + 1)) fun index other there =>
      agree (index + 1) other there, agree 0 row rfl, flatMap_cons, ← Multiset.coe_add,
      Multiset.add_comm]

section Pairs

variable {table : JoinHashTable} {builds : List BuildRow} {probe : List (ProbeRow Left)}

variable (indexed : Indexed plan builds table)
include indexed

theorem hits_pairs {index : Nat} {row : ProbeRow Left} (there : probe[index]? = some row) :
    (plan.hits table row).map (pairRow plan table probe index) =
      (plan.partners builds row).map (plan.joinedPair row) := by
  have entries := congrArg (map fun entry : Option JoinEntry =>
    ({ left := some row, right := entry.map JoinEntry.source,
       columns := gatherKey plan.buildTypes ((entry.map JoinEntry.payload).getD []) } :
      JoinedRow Left)) (indexed.hits_entries row)
  rw [map_map, map_map] at entries
  rw [← there] at entries
  refine entries.trans (map_congr_left fun build _ => ?_)
  rw [Function.comp_apply, there]
  rfl

theorem hits_eq_nil (row : ProbeRow Left) : plan.hits table row = [] ↔ plan.partners builds row = [] := by
  have entries := indexed.hits_entries row
  rw [← map_eq_nil_iff (f := fun entry => table.entries[entry]?), entries, map_eq_nil_iff]

theorem pairs_probe : pairs plan table probe (plan.probe table probe) =
      (probe.flatMap fun row => (plan.partners builds row).map (plan.joinedPair row) : List _) := by
  apply sum_rows
  intro index row there
  rw [probe_remaining there, hits_pairs indexed there]

end Pairs

/-! The counts of a correlated MARK join -/

def groupKey (plan : HashJoin) (key : Key) : Key := key.take plan.correlated

/-- The counts of all groups of the build side. Groups of the probe side are created with
counts of zero when they are looked up. -/
def CountsHold (plan : HashJoin) (builds : List BuildRow) (probes : List (ProbeRow Left))
    (counts : AggregateHashTable (Nat × Nat)) : Prop :=
  ∃ keys, AggregateHashTable.Holds plan.counts counts keys ∧ AggregateHashTable.Sized counts ∧
    (∀ key ∈ (plan.correlatedRows builds).map Prod.fst, key ∈ keys) ∧
    counts.groups.map GroupEntry.state = (keys.map fun key =>
      countGroup (AggregateHashTable.rowsOf (plan.correlatedRows builds) key)) ∧
    ∀ key ∈ keys, key ∈ builds.map (fun build => plan.groupKey build.keys) ++
      probes.map fun row => plan.groupKey row.keys

variable {builds : List BuildRow} {probes : List (ProbeRow Left)}
  {counts : AggregateHashTable (Nat × Nat)}

theorem countsHold_of_represents (represents : AggregateHashTable.Represents plan.counts countGroup counts
      (plan.correlatedRows builds)) : plan.CountsHold builds probes counts := by
  obtain ⟨keys, tallies⟩ := represents
  refine ⟨keys, tallies.holds, tallies.sized, fun key listed => (tallies.complete key).mpr listed,
    tallies.states, fun key listed => mem_append_left _ ?_⟩
  have there := (tallies.complete key).mp listed
  rw [correlatedRows, Multiset.map_coe, Multiset.mem_coe, map_map] at there
  exact there

theorem CountsHold.fetch {probe : List (ProbeRow Left)} {fits : Prop}
    (holds : plan.CountsHold builds probes counts) (small : probe.length ≤ standardVectorSize)
    (inside : ∀ row ∈ probe, row ∈ probes)
    (clear : ∀ row ∈ probe, UnambiguousKey plan.counts.groupTypes (plan.groupKey row.keys))
    (fit : fits → builds.length + probes.length + standardVectorSize ≤ capacityLimit plan.counts) :
    Yields fits (fun fetched => plan.CountsHold builds probes fetched.1 ∧
        ∀ (index : Nat) (row : ProbeRow Left), probe[index]? = some row → fetched.2[index]? = some (some (countGroup
            (AggregateHashTable.rowsOf (plan.correlatedRows builds) (plan.groupKey row.keys)))))
      (counts.fetchAggregates plan.counts (probe.map fun row => plan.groupKey row.keys) fun index =>
        hashKey plan.hash plan.counts.groupTypes ((probe.map fun row => plan.groupKey row.keys).getD index [])) := by
  unfold fetchAggregates
  split
  next none =>
    rw [List.isEmpty_iff, map_eq_nil_iff] at none
    exact ⟨holds, by simp [none]⟩
  obtain ⟨keys, held, sized, covers, states, known⟩ := holds
  have clearKeys : ∀ key ∈ probe.map (fun row => plan.groupKey row.keys),
      UnambiguousKey plan.counts.groupTypes key := by
    intro key listed
    obtain ⟨row, there, rfl⟩ := mem_map.mp listed
    exact clear row there
  refine (held.findOrCreateGroups sized (by rwa [length_map]) clearKeys
    (fun index key there => by rw [getD_eq_getElem?_getD, there]; rfl)
    fun room => ?_).bind fun found given => ?_
  · have few : keys.length ≤ builds.length + probes.length := by
      have bound := (held.distinct.subperm known).length_le
      rwa [length_append, length_map, length_map] at bound
    have limit := capacityLimit_le plan.counts counts
    have := fit room
    rw [held.length, length_map]
    omega
  · obtain ⟨found, addresses, newGroups⟩ := found
    obtain ⟨created, all⟩ := given
    have fresh : ∀ key ∈ created, AggregateHashTable.rowsOf (plan.correlatedRows builds) key = 0 := by
      intro key listed
      apply rowsOf_eq_zero
      intro there
      exact (nodup_append.mp all.holds.distinct).2.2 key (covers key there) key listed rfl
    have newStates : found.groups.map GroupEntry.state = (keys ++ created).map fun key =>
        countGroup (AggregateHashTable.rowsOf (plan.correlatedRows builds) key) := by
      rw [all.groups, map_append, map_append, states, map_map]
      congr 1
      apply map_congr_left
      intro key listed
      rw [fresh key listed]
      rfl
    refine ⟨⟨keys ++ created, all.holds, all.sized, fun key listed =>
      mem_append_left _ (covers key listed), newStates, fun key listed => ?_⟩, ?_⟩
    · rcases mem_append.mp listed with old | new
      · exact known key old
      · obtain ⟨row, there, rfl⟩ := mem_map.mp (all.named key new)
        exact mem_append_right _ (mem_map.mpr ⟨row, inside row there, rfl⟩)
    intro index row there
    have settled := all.settled index (plan.groupKey row.keys) (by
      rw [getElem?_map, there]
      rfl)
    have within := (getElem?_eq_some_iff.mp there).1
    have state := congrArg (fun list => list[addresses index]?) newStates
    simp only [getElem?_map, settled, Option.map_some] at state
    rw [length_map, getElem?_map, getElem?_range within, Option.map_some, state]

end HashJoin

def JoinType.byPairs : JoinType → Bool
  | .inner | .right | .left | .outer => true
  | _ => false

def JoinType.keepsLeft : JoinType → Bool
  | .left | .outer => true
  | _ => false

namespace ScanStructure

variable {Left : Type} {plan : HashJoin} {table : JoinHashTable} {builds : List BuildRow}
  {probes probe : List (ProbeRow Left)} {scan : ScanStructure} {fits : Prop}

def leftRow (plan : HashJoin) (probe : List (ProbeRow Left)) (index : Nat) : JoinedRow Left where
  left := probe[index]?
  right := none
  columns := nullColumns plan

def leftovers (plan : HashJoin) (table : JoinHashTable) (probe : List (ProbeRow Left))
    (scan : ScanStructure) : Multiset (JoinedRow Left) :=
  ∑ index ∈ range probe.length,
    if scan.foundMatch index = false ∧ remaining plan table probe scan index = []
      then {leftRow plan probe index} else 0

def pending (plan : HashJoin) (table : JoinHashTable) (probe : List (ProbeRow Left))
    (scan : ScanStructure) : Multiset (JoinedRow Left) :=
  if scan.finished then 0
  else pairs plan table probe scan +
    if plan.joinType.keepsLeft then leftovers plan table probe scan else 0

def Opens (plan : HashJoin) (table : JoinHashTable) (probe : List (ProbeRow Left))
    (scan : ScanStructure) (entry : Nat) : Prop :=
  scan.finished = false ∧ ∃ index, entry ∈ remaining plan table probe scan index

def Resting (plan : HashJoin) (table : JoinHashTable) (probe : List (ProbeRow Left))
    (scan : ScanStructure) : Prop :=
  scan.finished = true ∨ scan.finished = false ∧ Active table probe scan ∧
    plan.joinType.byPairs = true

def Counted (plan : HashJoin) (builds : List BuildRow) (probes : List (ProbeRow Left))
    (table : JoinHashTable) : Prop :=
  plan.joinType = .mark → plan.correlated ≠ 0 → plan.CountsHold builds probes table.correlatedCounts

structure Stepped (plan : HashJoin) (builds : List BuildRow) (probes : List (ProbeRow Left))
    (table : JoinHashTable) (probe : List (ProbeRow Left)) (before : Multiset (JoinedRow Left))
    (opens : Nat → Prop) (rows : List (JoinedRow Left)) (next : ScanStructure)
    (marked : JoinHashTable) : Prop where
  resting : Resting plan table probe next
  balance : (rows : Multiset (JoinedRow Left)) + pending plan table probe next = before
  exhausted : rows = [] → before = 0
  kept : marked = { table with found := marked.found, correlatedCounts := marked.correlatedCounts }
  flags : plan.joinType.isRightOuter = true → ∀ entry,
    (marked.found entry = true ∨ Opens plan table probe next entry) ↔
      (table.found entry = true ∨ opens entry)
  counted : Counted plan builds probes marked

theorem pairs_eq_zero (none : ∀ index, remaining plan table probe scan index = []) :
    pairs plan table probe scan = 0 := by
  refine sum_eq_zero fun index _ => ?_
  rw [none index]
  rfl

variable {marked : JoinHashTable} {next : ScanStructure} {rows : List (JoinedRow Left)}

theorem leftovers_emitted (emitted : Emitted plan table probe scan rows next marked)
    (left : plan.joinType.keepsLeft = true) :
    leftovers plan table probe next = leftovers plan table probe scan := by
  refine sum_congr rfl fun index _ => ?_
  have same := emitted.unmatched (by rintro inner; simp [inner, JoinType.keepsLeft] at left) index
  by_cases out : scan.foundMatch index = false ∧ remaining plan table probe scan index = []
  · rw [if_pos out, if_pos (same.mpr out)]
  · rw [if_neg out, if_neg fun given => out (same.mp given)]

theorem emitted_kept (emitted : Emitted plan table probe scan rows next marked)
    (counted : Counted plan builds probes table) :
    marked = { table with found := marked.found, correlatedCounts := marked.correlatedCounts } ∧
      Counted plan builds probes marked := by
  have kept := emitted.kept
  have same : marked.correlatedCounts = table.correlatedCounts := by rw [kept]
  rw [Counted, same]
  exact ⟨kept, counted⟩

section

variable (unfinished : scan.finished = false) (byPairs : plan.joinType.byPairs = true)
include unfinished byPairs

theorem stepped_emitted (emitted : Emitted plan table probe scan rows next marked)
    (counted : Counted plan builds probes table)
    (exhausted : rows = [] → pending plan table probe scan = 0) :
    Stepped plan builds probes table probe (pending plan table probe scan)
      (Opens plan table probe scan) rows next marked := by
  have still : next.finished = false := emitted.finished.trans unfinished
  obtain ⟨kept, countedLater⟩ := emitted_kept emitted counted
  refine ⟨.inr ⟨still, emitted.active, byPairs⟩, ?_, exhausted, kept, ?_, countedLater⟩
  · simp only [pending, still, unfinished, false_eq_true, if_false]
    rw [← emitted.balance, ← Multiset.add_assoc]
    split
    next left =>
      rw [leftovers_emitted emitted left]
    · rfl
  · intro rightOuter entry
    simpa [Opens, still, unfinished] using emitted.flags rightOuter entry

variable (active : Active table probe scan)
include active

theorem nextInnerJoin_stepped (plain : plan.joinType.keepsLeft = false) (counted : Counted plan builds probes table) :
    ∃ rows next marked, scan.nextInnerJoin plan table probe = (rows, next, marked) ∧
      Stepped plan builds probes table probe (pending plan table probe scan)
        (Opens plan table probe scan) rows next marked := by
  obtain ⟨rows, next, marked, computed, emitted⟩ := @nextInnerJoin_emitted Left plan table probe scan active
  refine ⟨rows, next, marked, computed, stepped_emitted unfinished byPairs emitted counted fun none => ?_⟩
  simp [pending, unfinished, plain, pairs_eq_zero fun index => (emitted.exhausted none index).1]

theorem nextLeftJoin_stepped (left : plan.joinType.keepsLeft = true) (counted : Counted plan builds probes table) :
    ∃ rows next marked, scan.nextLeftJoin plan table probe = (rows, next, marked) ∧
      Stepped plan builds probes table probe (pending plan table probe scan)
        (Opens plan table probe scan) rows next marked := by
  obtain ⟨rows, next, marked, computed, emitted⟩ := @nextInnerJoin_emitted Left plan table probe scan active
  unfold nextLeftJoin
  rw [computed]
  dsimp only
  split
  next stopped =>
    rw [List.isEmpty_iff] at stopped
    have atEnd := emitted.exhausted stopped
    have now : pending plan table probe scan = leftovers plan table probe scan := by
      simp [pending, unfinished, left, pairs_eq_zero fun index => (atEnd index).1]
    have rest : (((List.range probe.length).filter fun index => !next.foundMatch index).map
          (leftRow plan probe) : Multiset (JoinedRow Left)) = leftovers plan table probe scan := by
      rw [← leftovers_emitted emitted left, leftovers, ← sum_singletons_of_nodup
        (nodup_range.filter _) fun index listed =>
          mem_range.mp (mem_of_mem_filter listed)]
      refine sum_congr rfl fun index inside => ?_
      have below := mem_range.mp inside
      simp [(atEnd index).2, below]
    obtain ⟨kept, countedLater⟩ := emitted_kept emitted counted
    refine ⟨_, _, _, rfl, .inl rfl, ?_, ?_, kept, ?_, countedLater⟩
    · rw [now, ← rest, pending, if_pos rfl]
      exact Multiset.add_zero _
    · intro empty
      rw [now, ← rest]
      exact congrArg _ empty
    intro rightOuter entry
    have flags := emitted.flags rightOuter entry
    have before : ¬∃ index, entry ∈ remaining plan table probe scan index := by
      rintro ⟨index, listed⟩
      rw [(atEnd index).1] at listed
      cases listed
    have after : ¬∃ index, entry ∈ remaining plan table probe next index := by
      rintro ⟨index, listed⟩
      rw [(atEnd index).2] at listed
      cases listed
    simpa [Opens, before, after] using flags
  next some' =>
    exact ⟨_, _, _, rfl, stepped_emitted unfinished byPairs emitted counted fun empty =>
      absurd (List.isEmpty_iff.mpr empty) some'⟩

end

/-! Joins that look at the whole chunk in one call -/

theorem active_pointed (active : Active table probe scan) : Pointed scan :=
  fun index listed => (active.selected index).mp listed

variable {index : Nat} {row : ProbeRow Left}

variable (indexed : plan.Indexed builds table)

include indexed in
theorem scanAllKeyMatches_found (there : probe[index]? = some row) :
    (scanAllKeyMatches plan table probe (plan.probe table probe)).foundMatch index =
      !(plan.partners builds row).isEmpty := by
  have active := @HashJoin.probe_active Left plan table builds probe indexed
  have found := (@scanKeyMatches_spec Left plan table probe (plan.probe table probe)
    (table.entries.length + 1) (active_pointed active)
    (fun index _ => Nat.le_succ_of_le (active.short index)) index).2
  have hits := hits_eq_nil indexed row
  rw [← probe_remaining there, remaining] at hits
  have present : ((plan.probe table probe).pointers index).any (matchesEntry plan table probe index) =
      !(plan.partners builds row).isEmpty := by
    rw [Bool.eq_iff_iff, Bool.not_eq_true', isEmpty_eq_false_iff, ne_eq, ← hits, filter_eq_nil_iff]
    simp
  unfold scanAllKeyMatches
  rw [found]
  by_cases selected : index ∈ (plan.probe table probe).selected
  · rw [present, decide_eq_true selected]
    rfl
  · rw [not_not.mp (mt (active.selected index).mpr selected)] at present ⊢
    rw [← present, any_nil, Bool.and_false]
    rfl

variable {Value : Type}

theorem flatMap_range {f : Nat → List Value} {g : ProbeRow Left → List Value}
    (agree : ∀ index row, probe[index]? = some row → f index = g row) :
    (List.range probe.length).flatMap f = probe.flatMap g := by
  induction probe generalizing f with
  | nil => rfl
  | cons row rest ih =>
    rw [length_cons, range_succ_eq_map, flatMap_cons, flatMap_map,
      flatMap_cons, agree 0 row rfl, ih fun index other there => agree (index + 1) other there]

theorem map_filter_flatMap (list : List Nat) (p : Nat → Bool) (f : Nat → Value) :
    (list.filter p).map f = list.flatMap fun index => if p index then [f index] else [] := by
  induction list with
  | nil => rfl
  | cons index rest ih =>
    rw [filter_cons, flatMap_cons]
    split
    · rw [map_cons, ih]
      rfl
    · rw [ih, nil_append]

include indexed in
theorem nextSemiOrAntiJoin_rows (wanted : Bool) :
    ((plan.probe table probe).nextSemiOrAntiJoin plan table probe wanted).1 =
      probe.flatMap fun row => if (plan.partners builds row).isEmpty = !wanted
        then [alone row []] else [] := by
  unfold nextSemiOrAntiJoin
  dsimp only
  rw [map_filter_flatMap]
  apply flatMap_range
  intro index row there
  rw [scanAllKeyMatches_found indexed there, there]
  cases wanted <;> cases (plan.partners builds row).isEmpty <;> rfl

include indexed in
theorem nextSingleJoin_rows : ((plan.probe table probe).nextSingleJoin plan table probe).1 =
      probe.flatMap fun row => [((plan.partners builds row).head?.map (plan.joinedPair row)).getD
        (alone row (nullColumns plan))] := by
  have active := @HashJoin.probe_active Left plan table builds probe indexed
  unfold nextSingleJoin
  dsimp only
  rw [map_eq_flatMap]
  apply flatMap_range
  intro index row there
  have listed := @mem_scanSingle Left plan table probe (plan.probe table probe)
    (table.entries.length + 1) [] (fun _ => by simp [HashJoin.probe]) index
  have pointers := (@scanKeyMatches_spec Left plan table probe (plan.probe table probe)
    (table.entries.length + 1) (active_pointed active)
    (fun index _ => Nat.le_succ_of_le (active.short index)) index).1
  have found := @scanAllKeyMatches_found Left plan table builds probe index row indexed there
  unfold scanAllKeyMatches at found
  rw [found] at listed
  have first : ((plan.hits table row).head?.map (pairRow plan table probe index)) =
      (plan.partners builds row).head?.map (plan.joinedPair row) := by
    rw [← head?_map, ← head?_map, hits_pairs indexed there]
  cases empty : (plan.partners builds row).isEmpty with
  | true =>
    rw [if_neg (by rw [listed, empty]; simp)]
    rw [List.isEmpty_iff] at empty
    rw [empty, there]
    rfl
  | false =>
    rw [if_pos (by rw [listed, empty]; rfl), scanSingle_fst]
    have selected : index ∈ (plan.probe table probe).selected := by
      rw [active.selected]
      intro none
      have nothing : plan.hits table row = [] := by
        rw [← probe_remaining there, remaining, none, filter_nil]
      rw [(hits_eq_nil indexed row).mp nothing] at empty
      cases empty
    have head : ((scanKeyMatches plan table probe (table.entries.length + 1)
        (plan.probe table probe)).pointers index).head? = (plan.hits table row).head? := by
      rw [pointers, if_pos selected, ← probe_remaining there, remaining, head?_filter, find?_eq_head?_dropWhile_not]
    rw [← first, joinedRow, head]
    cases start : (plan.hits table row).head? with
    | none =>
      rw [head?_eq_none_iff, hits_eq_nil indexed] at start
      rw [start] at empty
      cases empty
    | some entry =>
      have known : entry ∈ plan.hits table row := mem_of_mem_head? start
      have below := (indexed.chain_valid row).2 entry (mem_filter.mp known).1
      simp [pairRow, getElem?_eq_getElem below]

theorem markValidity_strict {condition : JoinCondition}
    (strict : condition.nullValuesAreEqual = false) (there : probe[index]? = some row) :
    markValidity probe index [condition] 0 true = keptKey [condition] 0 row.keys := by
  have key : probeKeys probe index = row.keys := by
    rw [probeKeys, there]
    rfl
  simp only [markValidity, keptKey, strict, false_eq_true, if_false, Bool.false_or, Bool.and_true, key]
  split
  next all =>
    have here := all_eq_true.mp all index (mem_range.mpr (getElem?_eq_some_iff.mp there).1)
    rw [key] at here
    exact here.symm
  · rfl

theorem markValidity_equal {conditions : List JoinCondition} {column : Nat} {valid : Bool}
    (all : ∀ condition ∈ conditions, condition.nullValuesAreEqual = true) (key : Key) :
    markValidity probe index conditions column valid = valid ∧ keptKey conditions column key = true := by
  induction conditions generalizing column with
  | nil => exact ⟨rfl, rfl⟩
  | cons condition rest ih =>
    have here := all condition mem_cons_self
    have later := fun column => @ih column fun other listed =>
      all other (mem_cons_of_mem _ listed)
    exact ⟨by simp [markValidity, here, (later _).1], by simp [keptKey, here, (later _).2]⟩

theorem markValidity_planned (mark : plan.joinType = .mark) (plain : plan.correlated = 0)
    (there : probe[index]? = some row) :
    markValidity probe index plan.conditions 0 true = plan.keptProbe row := by
  rw [keptProbe]
  cases plan.planned mark with
  | contained condition only strict =>
    rw [only]
    exact markValidity_strict strict there
  | exists' all =>
    obtain ⟨valid, kept⟩ := @markValidity_equal Left probe index plan.conditions 0 true all row.keys
    rw [valid, kept]
  | any condition columns split all strict counted =>
    have none : columns = [] := length_eq_zero_iff.mp (counted ▸ plain)
    rw [split, none, nil_append]
    exact markValidity_strict strict there

include indexed in
theorem keptRows_isEmpty (some' : table.entries ≠ []) : (plan.keptRows builds).isEmpty = false := by
  rw [isEmpty_eq_false_iff]
  intro none
  rw [indexed.entries, none] at some'
  exact some' rfl

include indexed in
theorem constructMarkJoinResult_eq
    (some' : table.entries ≠ []) (mark : plan.joinType = .mark) (plain : plan.correlated = 0)
    (there : probe[index]? = some row) :
    (scanAllKeyMatches plan table probe (plan.probe table probe)).constructMarkJoinResult plan table
      probe index = plan.markOf builds row := by
  have full := keptRows_isEmpty indexed some'
  unfold constructMarkJoinResult markOf
  dsimp only
  rw [markValidity_planned mark plain there, scanAllKeyMatches_found indexed there, indexed.hasNull, full, if_pos plain]
  rfl

include indexed in
theorem correlatedMark_eq (some' : table.entries ≠ [])
    (correlated : plan.correlated ≠ 0) (there : probe[index]? = some row) {counts : Nat × Nat}
    (known : counts = countGroup (AggregateHashTable.rowsOf (plan.correlatedRows builds) (plan.groupKey row.keys))) :
    (scanAllKeyMatches plan table probe (plan.probe table probe)).correlatedMark probe counts.1
      counts.2 index = plan.markOf builds row := by
  have full := keptRows_isEmpty indexed some'
  have key : probeKeys probe index = row.keys := by
    rw [probeKeys, there]
    rfl
  unfold correlatedMark markOf
  dsimp only
  rw [scanAllKeyMatches_found indexed there, full, if_neg correlated, key, known]
  rfl

variable {opens : Nat → Prop}

theorem stepped_finished {before : Multiset (JoinedRow Left)} (plain : plan.joinType.isRightOuter = false)
    (kept : marked = { table with found := marked.found, correlatedCounts := marked.correlatedCounts })
    (counted : Counted plan builds probes marked) (all : ↑rows = before) :
    Stepped plan builds probes table probe before opens rows { next with finished := true } marked where
  resting := .inl rfl
  balance := by
    rw [pending, if_pos rfl, Multiset.add_zero]
    exact all
  exhausted := fun none => by rw [← all, none]; rfl
  kept := kept
  flags := fun rightOuter => by
    rw [plain] at rightOuter
    cases rightOuter
  counted := counted

include indexed in
theorem nextMarkJoin_stepped (some' : table.entries ≠ [])
    (mark : plan.joinType = .mark) (small : probe.length ≤ standardVectorSize)
    (inside : ∀ row ∈ probe, row ∈ probes) (clear : plan.ClearGroups (probe.map ProbeRow.keys))
    (counted : Counted plan builds probes table)
    (fit : fits → plan.CountsFit (builds.length + probes.length)) :
    Yields fits (fun out => Stepped plan builds probes table probe (plan.emittedAll builds probe)
        opens out.1 out.2.1 out.2.2) ((plan.probe table probe).nextMarkJoin plan table probe) := by
  have plain : plan.joinType.isRightOuter = false := by
    rw [mark]
    rfl
  have rows : ∀ marks : Nat → Cell, (∀ (index : Nat) (row : ProbeRow Left),
        probe[index]? = some row → marks index = plan.markOf builds row) →
      (((List.range probe.length).map fun index =>
        ({ left := probe[index]?, right := none, columns := [marks index] } : JoinedRow Left) :
        List (JoinedRow Left)) : Multiset (JoinedRow Left)) = plan.emittedAll builds probe := by
    intro marks agree
    rw [emittedAll, map_eq_flatMap]
    congr 1
    apply flatMap_range
    intro index row there
    rw [agree index row there, there, emitted, mark]
    rfl
  unfold nextMarkJoin
  dsimp only
  split
  next simple =>
    refine stepped_finished plain rfl counted (rows _ fun index row there => ?_)
    exact constructMarkJoinResult_eq indexed some' mark simple there
  rename_i correlated
  refine ((counted mark correlated).fetch small inside (fun row listed =>
    clear mark correlated _ (mem_map_of_mem listed)) fun room =>
      fit room mark correlated).bind fun fetched given => ?_
  obtain ⟨holds, values⟩ := given
  refine stepped_finished plain rfl (fun _ _ => holds) (rows _ fun index row there => ?_)
  apply correlatedMark_eq indexed some' correlated there
  rw [values index row there]
  rfl

/-! Both together: the first call for a chunk, and the calls after it -/

theorem next_resumed (resting : Resting plan table probe scan) (counted : Counted plan builds probes table) :
    ∃ rows next marked, scan.next plan table probe = .ok (rows, next, marked) ∧
      Stepped plan builds probes table probe (pending plan table probe scan)
        (Opens plan table probe scan) rows next marked := by
  unfold next
  rcases resting with finished | ⟨unfinished, active, byPairs⟩
  · rw [if_pos finished]
    refine ⟨[], scan, table, rfl, .inl finished, Multiset.zero_add _, fun _ => ?_, rfl, fun _ _ => Iff.rfl, counted⟩
    rw [pending, if_pos finished]
  rw [if_neg (by rw [unfinished]; exact Bool.false_ne_true)]
  cases type : plan.joinType with
  | inner | right =>
    obtain ⟨rows, next, marked, computed, stepped⟩ :=
      nextInnerJoin_stepped unfinished byPairs active (by rw [type]; rfl) counted
    exact ⟨rows, next, marked, congrArg _ computed, stepped⟩
  | left | outer =>
    obtain ⟨rows, next, marked, computed, stepped⟩ :=
      nextLeftJoin_stepped unfinished byPairs active (by rw [type]; rfl) counted
    exact ⟨rows, next, marked, congrArg _ computed, stepped⟩
  | _ =>
    rw [type] at byPairs
    cases byPairs

variable (indexed : plan.Indexed builds table)
include indexed

theorem pending_probe (byPairs : plan.joinType.byPairs = true) :
    pending plan table probe (plan.probe table probe) = plan.emittedAll builds probe := by
  have nothing : ∀ row : ProbeRow Left, (plan.partners builds row).isEmpty = true ↔
      plan.hits table row = [] := fun row => by
    rw [List.isEmpty_iff, hits_eq_nil indexed]
  have fresh : (plan.probe table probe).finished = false := rfl
  rw [pending, fresh, if_neg Bool.false_ne_true]
  cases left : plan.joinType.keepsLeft with
  | false =>
    rw [if_neg Bool.false_ne_true, Multiset.add_zero, pairs_probe indexed, emittedAll]
    congr 2
    funext row
    rw [emitted]
    cases type : plan.joinType with
    | inner | right => rfl
    | left | outer =>
      rw [type] at left
      cases left
    | _ =>
      rw [type] at byPairs
      cases byPairs
  | true =>
    rw [if_pos rfl, pairs, leftovers, ← sum_add_distrib]
    apply sum_rows
    intro index row there
    have shape : plan.emitted builds row = (plan.partners builds row).map (plan.joinedPair row) ++
        if (plan.partners builds row).isEmpty
          then [alone row (nullColumns plan)] else [] := by
      rw [emitted]
      cases type : plan.joinType with
      | left | outer => rfl
      | _ =>
        rw [type] at left
        cases left
    rw [probe_remaining there, hits_pairs indexed there, shape, ← Multiset.coe_add]
    by_cases none : plan.hits table row = []
    · rw [if_pos ⟨rfl, none⟩, if_pos ((nothing row).mpr none), leftRow, there]
      rfl
    · rw [if_neg fun given => none given.2, if_neg fun given => none ((nothing row).mp given)]
      rfl

theorem opens_probe (entry : Nat) : Opens plan table probe (plan.probe table probe) entry ↔
      ∃ row ∈ probe, entry ∈ plan.hits table row := by
  constructor
  · rintro ⟨_, index, listed⟩
    have active := @HashJoin.probe_active Left plan table builds probe indexed
    have more : (plan.probe table probe).pointers index ≠ [] := fun none => by
      rw [remaining, none] at listed
      cases listed
    have there := getElem?_eq_getElem (active.inside index more)
    rw [probe_remaining there] at listed
    exact ⟨_, mem_of_getElem? there, listed⟩
  · rintro ⟨row, inside, listed⟩
    obtain ⟨index, there⟩ := mem_iff_getElem?.mp inside
    refine ⟨rfl, index, ?_⟩
    rwa [probe_remaining there]

theorem next_fresh (some' : table.entries ≠ []) (small : probe.length ≤ standardVectorSize)
    (inside : ∀ row ∈ probe, row ∈ probes) (clear : plan.ClearGroups (probe.map ProbeRow.keys))
    (counted : Counted plan builds probes table)
    (fit : fits → plan.CountsFit (builds.length + probes.length)) :
    Yields fits (fun out => Stepped plan builds probes table probe (plan.emittedAll builds probe)
        (fun entry => ∃ row ∈ probe, entry ∈ plan.hits table row) out.1 out.2.1 out.2.2)
      ((plan.probe table probe).next plan table probe) := by
  by_cases byPairs : plan.joinType.byPairs = true
  · have opened := funext fun entry => propext (@opens_probe Left plan table builds probe indexed entry)
    have resting : Resting plan table probe (plan.probe table probe) := .inr ⟨rfl, probe_active indexed, byPairs⟩
    obtain ⟨rows, next, marked, computed, stepped⟩ := next_resumed resting counted
    rw [computed]
    rw [pending_probe indexed byPairs, opened] at stepped
    exact stepped
  · have fresh : (plan.probe table probe).finished = false := rfl
    have once : ∀ {rows : List (JoinedRow Left)} {next : ScanStructure} {f},
        plan.joinType.isRightOuter = false → rows = probe.flatMap f →
        (∀ row, f row = plan.emitted builds row) →
        Stepped plan builds probes table probe (plan.emittedAll builds probe)
          (fun entry => ∃ row ∈ probe, entry ∈ plan.hits table row) rows { next with finished := true }
          table := fun plain given same => stepped_finished plain rfl counted (by
      rw [given, funext same, emittedAll])
    unfold next
    cases type : plan.joinType with
    | inner | right | left | outer => exact absurd (by rw [type]; rfl) byPairs
    | mark => exact nextMarkJoin_stepped indexed some' type small inside clear counted fit
    | semi =>
      refine once (by rw [type]; rfl) (nextSemiOrAntiJoin_rows indexed true) fun row => ?_
      rw [emitted, type]
      cases (plan.partners builds row).isEmpty <;> rfl
    | anti =>
      refine once (by rw [type]; rfl) (nextSemiOrAntiJoin_rows indexed false) fun row => ?_
      rw [emitted, type]
      cases (plan.partners builds row).isEmpty <;> rfl
    | single =>
      refine once (by rw [type]; rfl) (nextSingleJoin_rows indexed) fun row => ?_
      rw [emitted, type]

end ScanStructure

end GuinsooDB
