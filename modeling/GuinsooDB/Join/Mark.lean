import GuinsooDB.Join.Matching

/-!
The MARK join, as it is planned for `IN`, for a correlated `EXISTS` and for a correlated `ANY`.
-/

namespace GuinsooDB

open Outcome List Option ScanStructure

namespace HashJoin

variable {Left : Type} {plan : HashJoin} {builds : List BuildRow} {probes : List (ProbeRow Left)}

theorem emittedAll_mark_iff (mark : plan.joinType = .mark) :
    plan.emittedAll builds probes = (probes.flatMap (plan.sqlRows builds) : List _) ↔
      ∀ row ∈ probes, plan.markOf builds row = plan.sqlMark builds row := by
  rw [emittedAll, Multiset.coe_eq_coe]
  constructor
  · intro same row inside
    have emitted : alone row [plan.markOf builds row] ∈ plan.emitted builds row := by
      simp [HashJoin.emitted, mark]
    have there := mem_sqlRows (same.mem_iff.mp (mem_flatMap.mpr ⟨row, inside, emitted⟩)) rfl
    simp only [sqlRows, mark, mem_singleton] at there
    exact (cons.inj (congrArg JoinedRow.columns there)).1
  · intro each
    refine List.Perm.flatMap_left _ fun row inside => List.Perm.of_eq ?_
    simp only [HashJoin.emitted, sqlRows, mark, each row inside]

variable {row : ProbeRow Left}

theorem partners_found (shaped : plan.Shaped builds probes) (inside : row ∈ probes) (sound : plan.Genuine builds row) :
    (!(plan.partners builds row).isEmpty) = builds.any (plan.sqlMatches row) := by
  rw [partners_isEmpty shaped inside sound, Bool.eq_iff_iff, List.any_eq_true, Bool.not_eq_true', isEmpty_eq_false_iff]
  constructor
  · intro some'
    obtain ⟨build, found⟩ := exists_mem_of_ne_nil _ some'
    exact ⟨build, mem_filter.mp found⟩
  · rintro ⟨build, found⟩
    exact ne_nil_of_mem (mem_filter.mpr found)

theorem keptBuild_eq (mark : plan.joinType = .mark) (build : BuildRow) :
    plan.keptBuild build = keptKey plan.conditions 0 build.keys := by
  rw [keptBuild, mark]
  rfl

theorem sqlMark_found (found : builds.any (plan.sqlMatches row) = true) :
    plan.sqlMark builds row = booleanCell true := if_pos found

theorem sqlMark_unknown (none' : builds.any (plan.sqlMatches row) = false)
    (unknown : ∃ build ∈ builds, plan.truth row build = none) : plan.sqlMark builds row = none := by
  rw [sqlMark, none', if_neg Bool.false_ne_true, if_pos]
  obtain ⟨build, listed, given⟩ := unknown
  exact any_eq_true.mpr ⟨build, listed, beq_iff_eq.mpr given⟩

theorem sqlMark_false (none' : builds.any (plan.sqlMatches row) = false)
    (known : ∀ build ∈ builds, plan.truth row build ≠ none) :
    plan.sqlMark builds row = booleanCell false := by
  rw [sqlMark, none', if_neg Bool.false_ne_true, if_neg]
  rw [List.any_eq_true]
  rintro ⟨build, listed, given⟩
  exact known build listed (beq_iff_eq.mp given)

/-- A table without rows that stands for rows leaves the mark unknown. -/
abbrev Undecided (plan : HashJoin) (builds : List BuildRow) (row : ProbeRow Left) : Prop :=
  builds ≠ [] → plan.keptRows builds = [] → ∃ build ∈ builds, plan.truth row build = none

variable {condition : JoinCondition} {right left : Key} {column : Nat}

theorem sqlTruth_known {conditions : List JoinCondition}
    (all : ∀ condition ∈ conditions, condition.nullValuesAreEqual = true) :
    sqlTruth conditions column left right ≠ none := by
  induction conditions generalizing column with
  | nil => exact some_ne_none _
  | cons condition rest ih =>
    have equal := all condition mem_cons_self
    obtain ⟨later, known⟩ := ne_none_iff_exists.mp
      (@ih (column + 1) fun other listed => all other (mem_cons_of_mem _ listed))
    rw [sqlTruth, ← known]
    rcases left.getD column none with _ | first <;> rcases right.getD column none with _ | second <;>
      cases later <;> simp only [sqlCompare, equal] <;>
      first
      | exact some_ne_none _
      | cases condition.comparison.holds first second <;> exact some_ne_none _

theorem booleanCell_inj {first second : Bool} : booleanCell first = booleanCell second ↔ first = second := by
  cases first <;> cases second <;> decide

theorem markOf_exists (shaped : plan.Shaped builds probes) (mark : plan.joinType = .mark)
    (all : ∀ condition ∈ plan.conditions, condition.nullValuesAreEqual = true)
    (plainCount : plan.correlated = 0) (inside : row ∈ probes) :
    plan.markOf builds row = plan.sqlMark builds row ↔ plan.Genuine builds row ∧ plan.Undecided builds row := by
  have keptAll : ∀ key, keptKey plan.conditions 0 key = true := fun key =>
    keptKey_iff.mpr fun index condition there => .inl (all condition (mem_of_getElem? there))
  have kept : plan.keptRows builds = builds := by
    apply filter_eq_self.mpr
    intro build _
    rw [keptBuild_eq mark, keptAll]
  have known : ∀ build ∈ builds, plan.truth row build ≠ none := fun build _ => sqlTruth_known all
  have code : plan.markOf builds row = booleanCell (!(plan.partners builds row).isEmpty) := by
    unfold markOf
    dsimp only
    rw [kept, HashJoin.keptProbe, keptAll, if_pos plainCount]
    cases builds with
    | nil => rfl
    | cons build rest => simp
  have definition : plan.sqlMark builds row = booleanCell (builds.any (plan.sqlMatches row)) := by
    cases any : builds.any (plan.sqlMatches row) with
    | true => exact sqlMark_found any
    | false => exact sqlMark_false any known
  rw [code, definition, booleanCell_inj]
  constructor
  · intro same
    refine ⟨?_, fun some' none' => absurd (kept.symm.trans none') some'⟩
    rintro ⟨build, listed, joined⟩
    have found : (!(plan.partners builds row).isEmpty) = true := by
      rw [Bool.not_eq_true', isEmpty_eq_false_iff]
      exact ne_nil_of_mem (mem_reverse.mpr (mem_filter.mpr ⟨listed, joined⟩))
    exact any_eq_true.mp (same.symm.trans found)
  · exact fun given => partners_found shaped inside given.1

/-! A correlated ANY -/

theorem sqlAnd_assoc (first second third : Option Bool) :
    sqlAnd (sqlAnd first second) third = sqlAnd first (sqlAnd second third) := by
  rcases first with _ | _ | _ <;> rcases second with _ | _ | _ <;> rcases third with _ | _ | _ <;> rfl

variable {columns : List JoinCondition}

theorem sqlTruth_append {rest : List JoinCondition} : sqlTruth (columns ++ rest) column left right =
      sqlAnd (sqlTruth columns column left right) (sqlTruth rest (column + columns.length) left right) := by
  induction columns generalizing column with
  | nil =>
    rw [nil_append, sqlTruth, length_nil, add_zero]
    rcases sqlTruth rest column left right with _ | _ | _ <;> rfl
  | cons condition columns ih =>
    rw [cons_append, sqlTruth, ih, sqlTruth, sqlAnd_assoc, length_cons, add_assoc, add_comm 1]

theorem sqlCompare_equal (equal : condition.nullValuesAreEqual = true) (left right : Cell) :
    sqlCompare condition left right = some (decide (left = right)) := by
  have comparison := condition.equality equal
  cases left <;> cases right <;> simp [sqlCompare, equal, comparison, ComparisonType.holds]
  rfl

theorem sqlTruth_columns (all : ∀ condition ∈ columns, condition.nullValuesAreEqual = true)
    (leftLong : column + columns.length ≤ left.length)
    (rightLong : column + columns.length ≤ right.length) :
    sqlTruth columns column left right = some (decide
      ((left.drop column).take columns.length = (right.drop column).take columns.length)) := by
  induction columns generalizing column with
  | nil => rw [length_nil, take_zero, take_zero, decide_eq_true rfl]; rfl
  | cons condition rest ih =>
    rw [length_cons] at leftLong rightLong
    have inLeft : column < left.length := by omega
    have inRight : column < right.length := by omega
    rw [sqlTruth, sqlCompare_equal (all condition mem_cons_self),
      @ih (column + 1) (fun other listed => all other (mem_cons_of_mem _ listed))
        (by omega) (by omega), drop_eq_getElem_cons inLeft, drop_eq_getElem_cons inRight,
      length_cons, take_succ_cons, take_succ_cons, getD_eq_getElem?_getD,
      getD_eq_getElem?_getD, getElem?_eq_getElem inLeft, getElem?_eq_getElem inRight,
      getD_some, getD_some]
    by_cases here : left[column] = right[column] <;>
      by_cases later : (left.drop (column + 1)).take rest.length = (right.drop (column + 1)).take rest.length <;>
      simp [here, later, sqlAnd]

theorem rowsOf_correlated (key : Key) : AggregateHashTable.rowsOf (plan.correlatedRows builds) key =
      ((builds.filter fun build => decide (build.keys.take plan.correlated = key)).map fun build =>
        (build.keys.getD plan.correlated none).isSome : List Bool) := by
  simp only [AggregateHashTable.rowsOf, correlatedRows, Multiset.filter_coe, Multiset.map_coe,
    List.filter_map, List.map_map]
  rfl

variable {index : Nat}

theorem clear_column {keys : List Key} {key : Key} (clear : plan.ClearGroups keys)
    (mark : plan.joinType = .mark) (correlated : plan.correlated ≠ 0) (listed : key ∈ keys)
    (long : plan.correlated < key.length) (below : index < plan.correlated)
    (there : plan.conditions[index]? = some condition) :
    Unambiguous condition.type (key.getD index none) := by
  have all := clear mark correlated key listed
  have columns := (List.getElem?_eq_some_iff.mp there).1
  have inTypes : index < plan.counts.groupTypes.length := by
    rw [counts, conditionTypes, length_take, length_map]
    omega
  have inKey : index < (key.take plan.correlated).length := by
    rw [length_take]
    omega
  have given := all.get inTypes inKey
  simp only [counts, conditionTypes, get_eq_getElem, getElem_take, getElem_map,
    (List.getElem?_eq_some_iff.mp there).2] at given
  rwa [getD_eq_getElem?_getD, getElem?_eq_getElem (by omega)]

section Any

variable {condition : JoinCondition} {columns : List JoinCondition}
  (split : plan.conditions = columns ++ [condition])
  (all : ∀ column ∈ columns, column.nullValuesAreEqual = true)
  (strict : condition.nullValuesAreEqual = false) (counted : plan.correlated = columns.length)

include split counted

theorem any_length : plan.conditions.length = plan.correlated + 1 := by
  rw [split, length_append, counted]
  rfl

theorem any_last : plan.conditions[plan.correlated]? = some condition := by
  rw [split, counted, getElem?_concat_length]

include all strict

theorem any_column {other : JoinCondition} (there : plan.conditions[index]? = some other) :
    other.nullValuesAreEqual = true ↔ index < plan.correlated := by
  constructor
  · intro equal
    have within := (List.getElem?_eq_some_iff.mp there).1
    rw [any_length split counted] at within
    refine Nat.lt_of_le_of_ne (Nat.le_of_lt_succ within) fun same => ?_
    rw [same, any_last split counted] at there
    cases there
    rw [strict] at equal
    cases equal
  · intro below
    rw [counted] at below
    rw [split, getElem?_append_left below] at there
    exact all other (mem_of_getElem? there)

theorem any_keptKey (key : Key) : keptKey plan.conditions 0 key = (key.getD plan.correlated none).isSome := by
  rw [Bool.eq_iff_iff, keptKey_iff]
  constructor
  · intro each
    have here := (each plan.correlated condition (any_last split counted)).resolve_left (by
      rw [strict]
      exact Bool.false_ne_true)
    rwa [zero_add] at here
  intro value index other there
  have within := (List.getElem?_eq_some_iff.mp there).1
  rw [any_length split counted] at within
  by_cases below : index < plan.correlated
  · exact .inl ((any_column split all strict counted there).mpr below)
  · have same : 0 + index = plan.correlated := by omega
    exact .inr (same ▸ value)

variable {row : ProbeRow Left}

theorem any_sound (shaped : plan.Shaped builds probes) (mark : plan.joinType = .mark)
    (clearBuild : plan.ClearGroups (builds.map BuildRow.keys))
    (clear : plan.ClearGroups (probes.map ProbeRow.keys)) (inside : row ∈ probes) :
    plan.Genuine builds row := by
  rintro ⟨build, listed, joined⟩
  have size := any_length split counted
  have rowSize := shaped.probeKeys row inside
  have buildSize := shaped.buildKeys build listed
  refine ⟨build, listed, matches_of_joins buildSize (by rw [mark]; rfl) (fun index other there equal => ?_) joined⟩
  rw [zero_add]
  have below := (any_column split all strict counted there).mp equal
  exact ⟨clear_column clear mark (by omega) (mem_map_of_mem inside) (by omega) below there,
    clear_column clearBuild mark (by omega) (mem_map_of_mem listed) (by omega) below there⟩

variable {build : BuildRow}

section

variable (rowSize : row.keys.length = plan.conditions.length)
  (buildSize : build.keys.length = plan.conditions.length)
include rowSize buildSize

omit strict in
theorem any_truth : plan.truth row build = if build.keys.take plan.correlated = row.keys.take plan.correlated then
        sqlCompare condition (row.keys.getD plan.correlated none)
          (build.keys.getD plan.correlated none) else some false := by
  have size := any_length split counted
  rw [truth, split, sqlTruth_append, sqlTruth_columns all (by omega) (by omega), ← counted,
    zero_add, drop_zero, drop_zero, sqlTruth, sqlTruth]
  by_cases group : build.keys.take plan.correlated = row.keys.take plan.correlated
  · rw [if_pos group, decide_eq_true group.symm]
    rcases sqlCompare condition (row.keys.getD plan.correlated none)
      (build.keys.getD plan.correlated none) with _ | _ | _ <;> rfl
  · rw [if_neg group, decide_eq_false (Ne.symm group)]
    rfl

theorem any_unknown : plan.truth row build = none ↔ build.keys.take plan.correlated = row.keys.take plan.correlated ∧
        ((row.keys.getD plan.correlated none).isSome = false ∨
          (build.keys.getD plan.correlated none).isSome = false) := by
  rw [any_truth split all counted rowSize buildSize]
  by_cases group : build.keys.take plan.correlated = row.keys.take plan.correlated
  · rw [if_pos group]
    rcases row.keys.getD plan.correlated none with _ | first <;>
      rcases build.keys.getD plan.correlated none with _ | second <;>
      simp [sqlCompare, strict, group]
  · simp [group]

theorem any_matched (matched : plan.sqlMatches row build = true) :
    build.keys.take plan.correlated = row.keys.take plan.correlated ∧
      (row.keys.getD plan.correlated none).isSome = true ∧
      (build.keys.getD plan.correlated none).isSome = true := by
  have given := beq_iff_eq.mp matched
  rw [any_truth split all counted rowSize buildSize] at given
  by_cases group : build.keys.take plan.correlated = row.keys.take plan.correlated
  · rw [if_pos group] at given
    obtain ⟨left, right, _⟩ := sqlCompare_true given
    rw [strict] at left right
    exact ⟨group, left.resolve_left Bool.false_ne_true, right.resolve_left Bool.false_ne_true⟩
  · rw [if_neg group] at given
    cases given

end

theorem markOf_strict (shaped : plan.Shaped builds probes) (mark : plan.joinType = .mark)
    (clearBuild : plan.ClearGroups (builds.map BuildRow.keys))
    (clear : plan.ClearGroups (probes.map ProbeRow.keys)) (inside : row ∈ probes) :
    plan.markOf builds row = plan.sqlMark builds row ↔ plan.Genuine builds row ∧ plan.Undecided builds row := by
  have rowSize := shaped.probeKeys row inside
  have sound := any_sound split all strict counted shaped mark clearBuild clear inside
  have kept build := (keptBuild_eq mark build).trans (any_keptKey split all strict counted build.keys)
  have unknown := fun build listed => @any_unknown Left plan condition columns split all strict counted
    row build rowSize (shaped.buildKeys build listed)
  have lastValid : (row.keys.getLast?.getD none).isSome = (row.keys.getD plan.correlated none).isSome := by
    rw [getLast?_eq_getElem?, rowSize, any_length split counted, Nat.add_sub_cancel, getD_eq_getElem?_getD]
  rw [and_iff_right sound]
  generalize group : (builds.filter fun build =>
    decide (build.keys.take plan.correlated = row.keys.take plan.correlated)) = members
  have member : ∀ build, build ∈ members ↔ build ∈ builds ∧
      build.keys.take plan.correlated = row.keys.take plan.correlated := by
    intro build
    rw [← group, mem_filter, decide_eq_true_iff]
  -- Without correlated columns all rows are one group, whose NULLs are the rows that are not kept.
  have code (some' : plan.keptRows builds ≠ []) : plan.markOf builds row =
      if members.length = 0 || ((row.keys.getD plan.correlated none).isSome &&
        (builds.any (plan.sqlMatches row) || members.length ≤
          (members.map fun build => (build.keys.getD plan.correlated none).isSome).count true)) then
        booleanCell (builds.any (plan.sqlMatches row)) else none := by
    unfold markOf
    rw [partners_found shaped inside sound, if_neg (by simpa using some')]
    split
    next simple =>
      have whole : members = builds := by simp [← group, simple]
      have valid : (builds.map fun build => (build.keys.getD plan.correlated none).isSome).count true =
          (plan.keptRows builds).length := by
        rw [keptRows, ← countP_eq_length_filter, count, countP_map]
        exact countP_congr fun build _ => by simp [kept]
      have nonempty : builds ≠ [] := fun nothing => some' (by rw [nothing]; rfl)
      rw [whole, valid, HashJoin.keptProbe, any_keptKey split all strict counted]
      simp [nonempty, ← decide_not]
    · rw [lastValid, rowsOf_correlated, countGroup, group, Multiset.coe_card, Multiset.coe_count, length_map]
  cases any : builds.any (plan.sqlMatches row) with
  | true =>
    obtain ⟨build, listed, matched⟩ := any_eq_true.mp any
    obtain ⟨same, left, right⟩ := any_matched split all strict counted rowSize (shaped.buildKeys build listed) matched
    have some' : plan.keptRows builds ≠ [] := ne_nil_of_mem (mem_filter.mpr ⟨listed, (kept build).trans right⟩)
    rw [sqlMark_found any, code some', any, left, Bool.true_or, Bool.and_true, Bool.or_true, if_pos rfl]
    exact iff_of_true rfl fun _ none' => absurd none' some'
  | false =>
    by_cases empty : plan.keptRows builds = []
    · unfold markOf
      rw [empty, isEmpty_nil, if_pos rfl, length_nil]
      cases builds with
      | nil => exact iff_of_true rfl fun some' => absurd rfl some'
      | cons build rest =>
        constructor
        · intro same _ _
          by_contra known
          rw [sqlMark_false any fun other listed given => known ⟨other, listed, given⟩] at same
          cases same
        · intro given
          exact (sqlMark_unknown any (given (cons_ne_nil _ _) empty)).symm
    · refine iff_of_true ?_ fun _ none' => absurd none' empty
      rw [code empty, any]
      by_cases nulls : ∃ build ∈ builds, plan.truth row build = none
      · rw [sqlMark_unknown any nulls, if_neg]
        obtain ⟨build, listed, given⟩ := nulls
        obtain ⟨same, side⟩ := (unknown build listed).mp given
        have inGroup := (member build).mpr ⟨listed, same⟩
        rw [Bool.or_eq_true, Bool.and_eq_true, Bool.false_or, decide_eq_true_iff, decide_eq_true_iff]
        rintro (none' | ⟨left, counts⟩)
        · rw [length_eq_zero_iff.mp none'] at inGroup
          cases inGroup
        rcases side with noLeft | noRight
        · rw [noLeft] at left
          cases left
        have full := le_antisymm (count_le_length (a := true)
          (l := members.map fun build => (build.keys.getD plan.correlated none).isSome))
          (by rwa [length_map])
        have here := count_eq_length.mp full _ (mem_map_of_mem inGroup)
        rw [noRight] at here
        cases here
      · have known : ∀ build ∈ builds, plan.truth row build ≠ none :=
          fun build listed given => nulls ⟨build, listed, given⟩
        rw [sqlMark_false any known, if_pos]
        rw [Bool.or_eq_true, Bool.and_eq_true, Bool.false_or, decide_eq_true_iff, decide_eq_true_iff]
        by_cases none' : members = []
        · exact .inl (length_eq_zero_iff.mpr none')
        right
        obtain ⟨first, inGroup⟩ := exists_mem_of_ne_nil _ none'
        have valid : ∀ build ∈ members, (row.keys.getD plan.correlated none).isSome = true ∧
            (build.keys.getD plan.correlated none).isSome = true := by
          intro build there
          obtain ⟨listed, same⟩ := (member build).mp there
          have given := known build listed
          rw [ne_eq, unknown build listed, and_iff_right same, not_or, Bool.not_eq_false, Bool.not_eq_false] at given
          exact given
        refine ⟨(valid first inGroup).1, le_of_eq ?_⟩
        rw [← length_map (f := fun build => (build.keys.getD plan.correlated none).isSome)]
        refine (count_eq_length.mpr fun value listed => ?_).symm
        obtain ⟨build, there, rfl⟩ := mem_map.mp listed
        exact (valid build there).2.symm

end Any

end HashJoin

end GuinsooDB
