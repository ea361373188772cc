import Mathlib.Algebra.BigOperators.Group.Finset.Piecewise
import GuinsooDB.Join.HashTable

/-!
Following the chains of a vector of rows: no match is passed over and none is found twice.
-/

namespace GuinsooDB

open Finset (range sum_add_distrib sum_congr sum_filter)
open List hiding range

def matchColumns : List JoinCondition → Nat → Key → List Datum → Bool
  | [], _, _, _ => true
  | condition :: rest, column, key, values =>
    matchCell condition (key.getD column none) (values.getD column default) &&
      matchColumns rest (column + 1) key values

namespace ScanStructure

variable {Left : Type} {plan : HashJoin} {table : JoinHashTable} {probe : List (ProbeRow Left)}
  {scan : ScanStructure}

def matchesEntry (plan : HashJoin) (table : JoinHashTable) (probe : List (ProbeRow Left))
    (index entry : Nat) : Bool :=
  matchColumns plan.conditions 0 (probeKeys probe index)
    (((table.entries[entry]?).map JoinEntry.keys).getD [])

def columnsMatch (table : JoinHashTable) (probe : List (ProbeRow Left)) (scan : ScanStructure)
    (conditions : List JoinCondition) (column index : Nat) : Bool :=
  matchColumns conditions column (probeKeys probe index) (scan.pointedKeys table index)

def matchesHere (plan : HashJoin) (table : JoinHashTable) (probe : List (ProbeRow Left))
    (scan : ScanStructure) (index : Nat) : Bool :=
  matchColumns plan.conditions 0 (probeKeys probe index) (scan.pointedKeys table index)

theorem resolveColumns_spec {conditions : List JoinCondition} {column : Nat} {selected noMatch : List Nat} :
    (scan.resolveColumns table probe conditions column selected noMatch).1 =
        selected.filter (columnsMatch table probe scan conditions column) ∧
      ((scan.resolveColumns table probe conditions column selected noMatch).2).Perm
        (noMatch ++ selected.filter (!columnsMatch table probe scan conditions column ·)) := by
  induction conditions generalizing column selected noMatch with
  | nil => simp [resolveColumns, show columnsMatch table probe scan [] column = fun _ => true from rfl]
  | cons condition rest ih =>
    rw [resolveColumns]
    generalize here : (fun index => matchCell condition ((probeKeys probe index).getD column none)
      ((scan.pointedKeys table index).getD column default)) = matched
    have unfolded : columnsMatch table probe scan (condition :: rest) column = fun index =>
        matched index && columnsMatch table probe scan rest (column + 1) index := by
      rw [← here]
      rfl
    have all : selected.filter (columnsMatch table probe scan (condition :: rest) column) =
        (selected.filter matched).filter (columnsMatch table probe scan rest (column + 1)) := by
      simp only [filter_filter, unfolded, Bool.and_comm]
    have missed : (selected.filter (!columnsMatch table probe scan (condition :: rest) column ·)).Perm
        (selected.filter (!matched ·) ++
          (selected.filter matched).filter (!columnsMatch table probe scan rest (column + 1) ·)) := by
      refine (filter_append_perm (!matched ·) _).symm.trans (List.Perm.of_eq ?_)
      rw [filter_filter, filter_filter, filter_filter, unfolded]
      congr 2 <;> funext index <;> cases state : matched index <;> simp [state]
    split
    next none =>
      rw [List.isEmpty_iff] at none
      rw [none] at all missed
      rw [none, all]
      refine ⟨rfl, List.Perm.append_left noMatch ?_⟩
      simpa using missed.symm
    · obtain ⟨first, second⟩ := @ih (column + 1) (selected.filter matched) (noMatch ++ selected.filter (!matched ·))
      refine ⟨first.trans all.symm, second.trans ?_⟩
      rw [append_assoc]
      exact List.Perm.append_left noMatch missed.symm

theorem resolvePredicates_fst : (scan.resolvePredicates plan table probe).1 =
      scan.selected.filter (matchesHere plan table probe scan) :=
  resolveColumns_spec.1

variable {index : Nat}

theorem mem_resolvePredicates_snd : index ∈ (scan.resolvePredicates plan table probe).2 ↔
      index ∈ scan.selected ∧ matchesHere plan table probe scan index = false := by
  rw [resolvePredicates, resolveColumns_spec.2.mem_iff, nil_append, mem_filter, Bool.not_eq_true']
  rfl

variable {index entry : Nat} {rest : List Nat}

theorem matchesHere_cons (there : scan.pointers index = entry :: rest) :
    matchesHere plan table probe scan index = matchesEntry plan table probe index entry := by
  rw [matchesHere, pointedKeys, there]
  rfl

def remaining (plan : HashJoin) (table : JoinHashTable) (probe : List (ProbeRow Left))
    (scan : ScanStructure) (index : Nat) : List Nat :=
  (scan.pointers index).filter (matchesEntry plan table probe index)

structure Active (table : JoinHashTable) (probe : List (ProbeRow Left)) (scan : ScanStructure) :
    Prop where
  distinct : scan.selected.Nodup
  selected : ∀ index, index ∈ scan.selected ↔ scan.pointers index ≠ []
  inside : ∀ index, scan.pointers index ≠ [] → index < probe.length
  valid : ∀ index, ∀ entry ∈ scan.pointers index, entry < table.entries.length
  short : ∀ index, (scan.pointers index).length ≤ table.entries.length

theorem Active.advance_pointers (active : Active table probe scan) (index : Nat) :
    (scan.advancePointers scan.selected).pointers index = (scan.pointers index).tail := by
  rw [advancePointers]
  dsimp only
  split
  · rfl
  next out =>
    rw [active.selected, not_not] at out
    rw [out, tail_nil]

theorem Active.advance (active : Active table probe scan) :
    Active table probe (scan.advancePointers scan.selected) where
  distinct := active.distinct.filter _
  selected := by
    intro index
    rw [active.advance_pointers]
    change index ∈ scan.selected.filter _ ↔ _
    rw [mem_filter, active.selected]
    cases scan.pointers index <;> simp
  inside := by
    intro index some'
    rw [active.advance_pointers] at some'
    exact active.inside index fun none => some' (by rw [none, tail_nil])
  valid := by
    intro index entry listed
    rw [active.advance_pointers] at listed
    exact active.valid index entry (mem_of_mem_tail listed)
  short := by
    intro index
    rw [active.advance_pointers, length_tail]
    exact le_trans (Nat.sub_le _ _) (active.short index)

theorem Active.remaining_advance (active : Active table probe scan) {index : Nat} :
    remaining plan table probe scan index = (if index ∈ scan.selected ∧ matchesHere plan table probe scan index = true
        then (scan.pointers index).take 1 else []) ++
        remaining plan table probe (scan.advancePointers scan.selected) index := by
  have listed := active.selected index
  rw [remaining, remaining, active.advance_pointers]
  cases there : scan.pointers index with
  | nil => simp [there, listed]
  | cons entry rest =>
    rw [matchesHere_cons there, filter_cons]
    cases matchesEntry plan table probe index entry <;> simp [there, listed]

variable {fuel : Nat}

theorem scanInnerJoin_spec (active : Active table probe scan)
    (enough : ∀ index, (scan.pointers index).length ≤ fuel) (some' : scan.selected ≠ []) :
    ∃ result matched, scanInnerJoin plan table probe fuel scan = (result, matched) ∧ Active table probe matched ∧
      (∀ index, remaining plan table probe matched index = remaining plan table probe scan index) ∧
      result = matched.selected.filter (matchesHere plan table probe matched) ∧
      (result = [] → matched.selected = []) ∧ (∀ index, matched.foundMatch index =
        (scan.foundMatch index || (!(decide (plan.joinType = .inner)) && decide (index ∈ result)))) ∧
      matched.finished = scan.finished := by
  induction fuel generalizing scan with
  | zero =>
    obtain ⟨index, listed⟩ := exists_mem_of_ne_nil _ some'
    exact absurd (length_eq_zero_iff.mp (Nat.le_zero.mp (enough index))) ((active.selected index).mp listed)
  | succ fuel ih =>
    rw [scanInnerJoin, resolvePredicates_fst]
    dsimp only
    split
    next none =>
      rw [List.isEmpty_iff] at none
      have same : ∀ index, remaining plan table probe (scan.advancePointers scan.selected) index =
          remaining plan table probe scan index := by
        intro index
        rw [active.remaining_advance, if_neg, nil_append]
        rintro ⟨listed, here⟩
        exact not_mem_nil (none ▸ mem_filter.mpr ⟨listed, here⟩)
      split
      next done =>
        rw [List.isEmpty_iff] at done
        refine ⟨[], _, rfl, active.advance, same, ?_, fun _ => done, fun index => ?_, rfl⟩
        · rw [done, filter_nil]
        · simp [advancePointers]
      rename_i more
      obtain ⟨result, matched, computed, later, kept, shape, exhausted, found, finished⟩ :=
        ih active.advance (fun index => by
          rw [active.advance_pointers, length_tail]
          have := enough index
          omega) (fun none => more (List.isEmpty_iff.mpr none))
      exact ⟨result, matched, computed, later, fun index => (kept index).trans (same index), shape,
        exhausted, found, finished⟩
    next some' =>
      by_cases inner : plan.joinType = .inner
      · rw [if_pos inner]
        refine ⟨_, _, rfl, active, fun _ => rfl, rfl, ?_, ?_, rfl⟩
        · exact fun none => absurd (List.isEmpty_iff.mpr none) some'
        · simp [inner]
      rw [if_neg inner]
      refine ⟨_, _, rfl, ⟨active.distinct, active.selected, active.inside, active.valid,
        active.short⟩, fun _ => rfl, rfl, ?_, ?_, rfl⟩
      · exact fun none => absurd (List.isEmpty_iff.mpr none) some'
      · intro index
        simp [markFound, inner, Bool.or_comm]

def pairRow (plan : HashJoin) (table : JoinHashTable) (probe : List (ProbeRow Left))
    (index entry : Nat) : JoinedRow Left where
  left := probe[index]?
  right := (table.entries[entry]?).map JoinEntry.source
  columns := gatherKey plan.buildTypes (((table.entries[entry]?).map JoinEntry.payload).getD [])

def pairs (plan : HashJoin) (table : JoinHashTable) (probe : List (ProbeRow Left))
    (scan : ScanStructure) : Multiset (JoinedRow Left) :=
  ∑ index ∈ range probe.length,
    ((remaining plan table probe scan index).map (pairRow plan table probe index) : Multiset _)

theorem sum_singletons_of_nodup {Item : Type} {list : List Nat} {count : Nat} {f : Nat → Item}
    (distinct : list.Nodup) (inside : ∀ index ∈ list, index < count) :
    ∑ index ∈ range count, (if index ∈ list then ({f index} : Multiset Item) else 0) = (list.map f : List Item) := by
  have listed : (range count).filter (· ∈ list) = list.toFinset := by
    ext index
    simpa using fun there => inside index there
  rw [← sum_filter, listed, List.sum_toFinset _ distinct]
  have single := Multiset.sum_map_singleton (list.map f : Multiset Item)
  rwa [Multiset.map_coe, map_map, Multiset.sum_coe] at single

/-- What a call for matching pairs leaves: its rows are gone from the chains, and the flags
of rows and entries say what has been found. -/
structure Emitted (plan : HashJoin) (table : JoinHashTable) (probe : List (ProbeRow Left))
    (scan : ScanStructure) (rows : List (JoinedRow Left)) (next : ScanStructure)
    (marked : JoinHashTable) : Prop where
  active : Active table probe next
  balance : (rows : Multiset (JoinedRow Left)) + pairs plan table probe next =
    pairs plan table probe scan
  exhausted : rows = [] → ∀ index, remaining plan table probe scan index = [] ∧
    remaining plan table probe next index = []
  kept : marked = { table with found := marked.found }
  finished : next.finished = scan.finished
  unmatched : plan.joinType ≠ .inner → ∀ index,
    next.foundMatch index = false ∧ remaining plan table probe next index = [] ↔
      scan.foundMatch index = false ∧ remaining plan table probe scan index = []
  flags : plan.joinType.isRightOuter = true → ∀ entry,
    (marked.found entry = true ∨ ∃ index, entry ∈ remaining plan table probe next index) ↔
      (table.found entry = true ∨ ∃ index, entry ∈ remaining plan table probe scan index)

theorem Emitted.nothing (none : ∀ index, remaining plan table probe scan index = []) {next : ScanStructure}
    (nextActive : Active table probe next)
    (same : ∀ index, remaining plan table probe next index = remaining plan table probe scan index)
    (found : ∀ index, next.foundMatch index = scan.foundMatch index)
    (finished : next.finished = scan.finished) :
    Emitted plan table probe scan [] next table where
  active := nextActive
  balance := by
    rw [Multiset.coe_nil, Multiset.zero_add]
    exact sum_congr rfl fun index _ => by rw [same]
  exhausted := fun _ index => ⟨none index, (same index).trans (none index)⟩
  kept := rfl
  finished := finished
  unmatched := fun _ index => by rw [same, found]
  flags := fun _ entry => by simp only [same]

theorem nextInnerJoin_emitted (active : Active table probe scan) :
    ∃ rows next marked, scan.nextInnerJoin plan table probe = (rows, next, marked) ∧
      Emitted plan table probe scan rows next marked := by
  have atEnd : ∀ {other : ScanStructure}, Active table probe other → other.selected = [] →
      ∀ index, remaining plan table probe other index = [] := by
    intro other given none index
    have out : other.pointers index = [] := by
      by_contra more
      exact not_mem_nil (none ▸ (given.selected index).mpr more)
    rw [remaining, out, filter_nil]
  unfold nextInnerJoin
  split
  next none =>
    rw [List.isEmpty_iff] at none
    exact ⟨[], scan, table, rfl, Emitted.nothing (atEnd active none) active (fun _ => rfl) (fun _ => rfl) rfl⟩
  rename_i some'
  obtain ⟨result, matched, computed, later, kept, shape, exhausted, found, finished⟩ :=
    @scanInnerJoin_spec Left plan table probe scan (table.entries.length + 1) active
      (fun index => Nat.le_succ_of_le (active.short index))
      (fun none => some' (List.isEmpty_iff.mpr none))
  rw [computed]
  dsimp only
  split
  next none =>
    rw [List.isEmpty_iff] at none
    subst none
    have over' := atEnd later (exhausted rfl)
    refine ⟨[], matched, table, rfl, Emitted.nothing
      (fun index => (kept index).symm.trans (over' index)) later kept (fun index => ?_) finished⟩
    rw [found index]
    simp
  next more =>
    have member : ∀ index, index ∈ result ↔ index ∈ matched.selected ∧
        matchesHere plan table probe matched index = true := by
      intro index
      rw [shape, mem_filter]
    have heads : ∀ index ∈ result, ∃ entry rest, matched.pointers index = entry :: rest ∧
        ∃ stored, table.entries[entry]? = some stored := by
      intro index listed
      have some' := (later.selected index).mp ((member index).mp listed).1
      obtain ⟨entry, rest, there⟩ := exists_cons_of_ne_nil some'
      have valid := later.valid index entry (there ▸ mem_cons_self)
      exact ⟨entry, rest, there, _, getElem?_eq_getElem valid⟩
    have split : ∀ index, remaining plan table probe matched index =
        (if index ∈ result then (matched.pointers index).take 1 else []) ++
          remaining plan table probe (matched.advancePointers matched.selected) index := by
      intro index
      rw [later.remaining_advance]
      simp only [member]
    have emitted : (result.filterMap (matched.joinedRow plan table probe) : Multiset _) =
        ∑ index ∈ range probe.length, (if index ∈ result then
          {pairRow plan table probe index ((matched.pointers index).headD 0)} else 0) := by
      rw [sum_singletons_of_nodup (shape ▸ later.distinct.filter _) fun index listed =>
        later.inside index ((later.selected index).mp ((member index).mp listed).1)]
      congr 1
      rw [← filterMap_eq_map]
      apply filterMap_congr
      intro index listed
      obtain ⟨entry, rest, there, stored, known⟩ := heads index listed
      simp [joinedRow, pairRow, there, known]
    have whole : pairs plan table probe scan = ∑ index ∈ range probe.length, (if index ∈ result then
          {pairRow plan table probe index ((matched.pointers index).headD 0)} else 0) +
        pairs plan table probe (matched.advancePointers matched.selected) := by
      rw [pairs, pairs, ← sum_add_distrib]
      apply sum_congr rfl
      intro index _
      rw [← kept index, split index]
      split
      next listed =>
        obtain ⟨entry, rest, there, _⟩ := heads index listed
        rw [there]
        rfl
      · rw [nil_append, Multiset.zero_add]
    refine ⟨_, _, _, rfl, ⟨later.advance, ?_, ?_, ?_, finished, ?_, ?_⟩⟩
    · rw [emitted, whole]
    · intro none
      obtain ⟨index, listed⟩ := exists_mem_of_ne_nil result fun empty =>
        more (List.isEmpty_iff.mpr empty)
      obtain ⟨entry, rest, there, stored, known⟩ := heads index listed
      have missing := filterMap_eq_nil_iff.mp none index listed
      simp [joinedRow, there, known] at missing
    · split <;> rfl
    · intro notInner index
      change matched.foundMatch index = false ∧ _ ↔ _
      rw [found index, ← kept index, split index]
      by_cases listed : index ∈ result
      · obtain ⟨entry, rest, there, _⟩ := heads index listed
        simp [listed, there, notInner]
      · simp [listed]
    · intro rightOuter entry
      rw [if_pos rightOuter]
      have passed : (∃ index, entry ∈ remaining plan table probe scan index) ↔
          (∃ index ∈ result, (matched.pointers index).head? = some entry) ∨
            ∃ index, entry ∈ remaining plan table probe (matched.advancePointers matched.selected) index := by
        simp only [← kept, split, mem_append, exists_or]
        refine or_congr ⟨?_, ?_⟩ Iff.rfl
        · rintro ⟨index, listed⟩
          split at listed
          next inside =>
            obtain ⟨first, rest, there, _⟩ := heads index inside
            rw [there, take_succ_cons, take_zero, mem_singleton] at listed
            exact ⟨index, inside, by rw [there, listed]; rfl⟩
          · exact absurd listed not_mem_nil
        · rintro ⟨index, inside, head⟩
          obtain ⟨first, rest, there, _⟩ := heads index inside
          rw [there, head?_cons, Option.some.injEq] at head
          exact ⟨index, by simp [inside, there, head]⟩
      rw [passed, ← or_assoc]
      simp

/-! Looking for the first match only -/

def Pointed (scan : ScanStructure) : Prop := ∀ index ∈ scan.selected, scan.pointers index ≠ []

def searchRound (plan : HashJoin) (table : JoinHashTable) (probe : List (ProbeRow Left))
    (scan : ScanStructure) : ScanStructure :=
  (scan.markFound (scan.resolvePredicates plan table probe).1).advancePointers
    (scan.resolvePredicates plan table probe).2

theorem searchRound_row (listed : index ∈ scan.selected) (there : scan.pointers index = entry :: rest) :
    (matchesEntry plan table probe index entry = true → index ∉ (searchRound plan table probe scan).selected ∧
      (searchRound plan table probe scan).pointers index = entry :: rest ∧
      (searchRound plan table probe scan).foundMatch index = true) ∧
    (matchesEntry plan table probe index entry = false →
      (index ∈ (searchRound plan table probe scan).selected ↔ rest ≠ []) ∧
      (searchRound plan table probe scan).pointers index = rest ∧
      (searchRound plan table probe scan).foundMatch index = scan.foundMatch index) := by
  have matched : index ∈ (scan.resolvePredicates plan table probe).1 ↔
      matchesEntry plan table probe index entry = true := by
    rw [resolvePredicates_fst, mem_filter, matchesHere_cons there]
    exact and_iff_right listed
  have missed : index ∈ (scan.resolvePredicates plan table probe).2 ↔
      matchesEntry plan table probe index entry = false := by
    rw [mem_resolvePredicates_snd, matchesHere_cons there]
    exact and_iff_right listed
  refine ⟨fun found => ?_, fun nothing => ?_⟩
  · simp [searchRound, advancePointers, markFound, missed, matched, found, there]
  · cases rest <;> simp [searchRound, advancePointers, markFound, missed, matched, nothing, there]

theorem searchRound_other (out : index ∉ scan.selected) : index ∉ (searchRound plan table probe scan).selected ∧
      (searchRound plan table probe scan).pointers index = scan.pointers index ∧
      (searchRound plan table probe scan).foundMatch index = scan.foundMatch index := by
  have matched : index ∉ (scan.resolvePredicates plan table probe).1 := by
    rw [resolvePredicates_fst]
    exact fun listed => out (mem_of_mem_filter listed)
  have missed : index ∉ (scan.resolvePredicates plan table probe).2 := by
    rw [mem_resolvePredicates_snd]
    exact fun listed => out listed.1
  simp [searchRound, advancePointers, markFound, missed, matched]

theorem searchRound_selected (pointed : Pointed scan) (listed : index ∈ (searchRound plan table probe scan).selected) :
    index ∈ scan.selected ∧ (searchRound plan table probe scan).pointers index ≠ [] ∧
      (searchRound plan table probe scan).pointers index = (scan.pointers index).tail := by
  by_cases before : index ∈ scan.selected
  · obtain ⟨entry, rest, there⟩ := exists_cons_of_ne_nil (pointed index before)
    obtain ⟨found, nothing⟩ := @searchRound_row Left plan table probe scan index entry rest before there
    cases outcome : matchesEntry plan table probe index entry with
    | true => exact absurd listed (found outcome).1
    | false =>
      obtain ⟨more, pointers, _⟩ := nothing outcome
      rw [pointers, there]
      exact ⟨before, more.mp listed, rfl⟩
  · exact absurd listed (searchRound_other before).1

theorem scanKeyMatches_spec (pointed : Pointed scan)
    (enough : ∀ index ∈ scan.selected, (scan.pointers index).length ≤ fuel) (index : Nat) :
    (scanKeyMatches plan table probe fuel scan).pointers index = (if index ∈ scan.selected then
          (scan.pointers index).dropWhile fun entry => !matchesEntry plan table probe index entry
        else scan.pointers index) ∧ (scanKeyMatches plan table probe fuel scan).foundMatch index =
        (scan.foundMatch index || (decide (index ∈ scan.selected) &&
          (scan.pointers index).any (matchesEntry plan table probe index))) := by
  induction fuel generalizing scan with
  | zero =>
    rw [scanKeyMatches]
    by_cases listed : index ∈ scan.selected
    · exact absurd (length_eq_zero_iff.mp (Nat.le_zero.mp (enough index listed))) (pointed index listed)
    · simp [listed]
  | succ fuel ih =>
    rw [scanKeyMatches]
    split
    next none =>
      rw [List.isEmpty_iff] at none
      simp [none]
    have later := @ih (searchRound plan table probe scan)
      (fun _ listed => (searchRound_selected pointed listed).2.1) (by
        intro other listed
        obtain ⟨before, _, tail⟩ := searchRound_selected pointed listed
        rw [tail, length_tail]
        exact Nat.sub_le_of_le_add (enough other before))
    refine ⟨later.1.trans ?_, later.2.trans ?_⟩
    all_goals
      by_cases before : index ∈ scan.selected
      · obtain ⟨entry, rest, there⟩ := exists_cons_of_ne_nil (pointed index before)
        obtain ⟨found, nothing⟩ := @searchRound_row Left plan table probe scan index entry rest before there
        cases outcome : matchesEntry plan table probe index entry with
        | true => simp [found outcome, before, there, outcome]
        | false =>
          cases rest <;> simp_all [dropWhile_cons]
      · obtain ⟨selected, pointers, flag⟩ := @searchRound_other Left plan table probe scan index before
        simp [selected, pointers, flag, before]

variable {result : List Nat}

theorem scanSingle_fst :
    (scanSingle plan table probe fuel scan result).1 = scanKeyMatches plan table probe fuel scan := by
  induction fuel generalizing scan result with
  | zero => rfl
  | succ fuel ih =>
    rw [scanSingle, scanKeyMatches]
    split
    · rfl
    · exact ih

theorem mem_scanSingle (agree : ∀ index, index ∈ result ↔ scan.foundMatch index = true) (index : Nat) :
    index ∈ (scanSingle plan table probe fuel scan result).2 ↔
      (scanKeyMatches plan table probe fuel scan).foundMatch index = true := by
  induction fuel generalizing scan result with
  | zero => exact agree index
  | succ fuel ih =>
    rw [scanSingle, scanKeyMatches]
    split
    · exact agree index
    · apply ih
      simp [advancePointers, markFound, agree, or_comm]

end ScanStructure

end GuinsooDB
