import GuinsooDB.Join.Emission

/-!
The hash join against the nested-loop definition. A condition with NULL is unknown, unless NULL
values are equal under it; the rows of the result come from the conditions alone, with no hash
and with no value that stands for NULL.
-/

namespace GuinsooDB

open Outcome Bool List Option

def sqlCompare (condition : JoinCondition) (left right : Cell) : Option Bool :=
  match left, right with
  | some first, some second => some (condition.comparison.holds first second)
  | none, none => if condition.nullValuesAreEqual then some true else none
  | _, _ => if condition.nullValuesAreEqual then some false else none

def sqlAnd : Option Bool → Option Bool → Option Bool
  | some false, _ => some false
  | _, some false => some false
  | some true, some true => some true
  | _, _ => none

def sqlTruth : List JoinCondition → Nat → Key → Key → Option Bool
  | [], _, _, _ => some true
  | condition :: rest, column, left, right =>
    sqlAnd (sqlCompare condition (left.getD column none) (right.getD column none))
      (sqlTruth rest (column + 1) left right)

namespace HashJoin

variable {Left : Type} {plan : HashJoin} {builds : List BuildRow} {probes : List (ProbeRow Left)}

def truth (plan : HashJoin) (row : ProbeRow Left) (build : BuildRow) : Option Bool :=
  sqlTruth plan.conditions 0 row.keys build.keys

def sqlMatches (plan : HashJoin) (row : ProbeRow Left) (build : BuildRow) : Bool :=
  plan.truth row build == some true

def sqlPair (row : ProbeRow Left) (build : BuildRow) : JoinedRow Left where
  left := some row
  right := some build
  columns := build.payload

def sqlMark (plan : HashJoin) (builds : List BuildRow) (row : ProbeRow Left) : Cell :=
  if builds.any (plan.sqlMatches row) then ScanStructure.booleanCell true
  else if builds.any fun build => plan.truth row build == none then none
  else ScanStructure.booleanCell false

def sqlRows (plan : HashJoin) (builds : List BuildRow) (row : ProbeRow Left) :
    List (JoinedRow Left) :=
  let found := builds.filter (plan.sqlMatches row)
  match plan.joinType with
  | .inner | .right => found.map (sqlPair row)
  | .left | .outer => found.map (sqlPair row) ++
      if found.isEmpty then [alone row (ScanStructure.nullColumns plan)] else []
  | .semi => if found.isEmpty then [] else [alone row []]
  | .anti => if found.isEmpty then [alone row []] else []
  | .mark => [alone row [plan.sqlMark builds row]]
  | .single => []

def sqlUnmatched (plan : HashJoin) (builds : List BuildRow) (probes : List (ProbeRow Left)) :
    List (JoinedRow Left) :=
  (builds.filter fun build => !probes.any fun row => plan.sqlMatches row build).map fun build =>
    { left := none, right := some build, columns := build.payload }

def SingleRow (plan : HashJoin) (builds : List BuildRow) (row : ProbeRow Left)
    (joined : JoinedRow Left) : Prop :=
  (∃ build ∈ builds, plan.sqlMatches row build = true ∧ joined = sqlPair row build) ∨
    (∀ build ∈ builds, plan.sqlMatches row build = false) ∧
      joined = alone row (ScanStructure.nullColumns plan)

def NestedLoop (plan : HashJoin) (builds : List BuildRow) (probes : List (ProbeRow Left))
    (output : Multiset (JoinedRow Left)) : Prop :=
  match plan.joinType with
  | .single => Multiset.Rel (plan.SingleRow builds) probes output
  | .right | .outer =>
    output = (probes.flatMap (plan.sqlRows builds) ++ plan.sqlUnmatched builds probes : List _)
  | _ => output = (probes.flatMap (plan.sqlRows builds) : List _)

/-! Rows that match are joined -/

variable {condition : JoinCondition}

theorem sqlCompare_true {left right : Cell} (holds : sqlCompare condition left right = some true) :
    (condition.nullValuesAreEqual = true ∨ left.isSome = true) ∧
      (condition.nullValuesAreEqual = true ∨ right.isSome = true) ∧
      matchCell condition left (store condition.type right) = true ∧
      (condition.comparison = .equal → left = right) := by
  cases left with
  | none =>
    cases right with
    | none =>
      have equal : condition.nullValuesAreEqual = true := by
        by_contra strict
        simp [sqlCompare, strict] at holds
      exact ⟨.inl equal, .inl equal, isNullValue_nullValue _, fun _ => rfl⟩
    | some second => simp [sqlCompare] at holds
  | some first =>
    cases right with
    | none => simp [sqlCompare] at holds
    | some second =>
      have compared : condition.comparison.holds first second = true := by
        simpa [sqlCompare] using holds
      refine ⟨.inr rfl, .inr rfl, compared, fun equal => ?_⟩
      rw [equal] at compared
      exact congrArg some (eq_of_beq compared)

variable {column : Nat} {key : Key}

theorem storeKey_getD {types : List PhysicalType} (columns : key.length = types.length)
    {type : PhysicalType} (there : types[column]? = some type) :
    (storeKey types key).getD column default = store type (key.getD column none) := by
  have inside := (List.getElem?_eq_some_iff.mp there).1
  have within : column < key.length := by omega
  rw [storeKey, List.getD_eq_getElem?_getD, List.getElem?_zipWith, there,
    getD_eq_getElem?_getD, getElem?_eq_getElem within]
  rfl

def EachColumn (conditions : List JoinCondition) (column : Nat) (p : JoinCondition → Nat → Prop) :
    Prop :=
  ∀ index condition, conditions[index]? = some condition → p condition (column + index)

theorem eachColumn_cons {rest : List JoinCondition} {p : JoinCondition → Nat → Prop} :
    EachColumn (condition :: rest) column p ↔ p condition column ∧ EachColumn rest (column + 1) p := by
  constructor
  · intro each
    refine ⟨each 0 condition rfl, fun index other there => ?_⟩
    rw [add_assoc, add_comm 1]
    exact each (index + 1) other there
  rintro ⟨first, later⟩ index other there
  cases index with
  | zero =>
    cases there
    exact first
  | succ index =>
    have here := later index other there
    rwa [add_assoc, add_comm 1] at here

theorem sqlAnd_eq_true {first second : Option Bool} :
    sqlAnd first second = some true ↔ first = some true ∧ second = some true := by
  rcases first with _ | _ | _ <;> rcases second with _ | _ | _ <;> decide

variable {left right : Key} {conditions : List JoinCondition}

theorem sqlTruth_eq_true :
    sqlTruth conditions column left right = some true ↔ EachColumn conditions column fun condition index =>
        sqlCompare condition (left.getD index none) (right.getD index none) = some true := by
  induction conditions generalizing column with
  | nil => exact ⟨(fun _ index condition there => nomatch there), fun _ => rfl⟩
  | cons condition rest ih => rw [sqlTruth, sqlAnd_eq_true, ih, eachColumn_cons]

theorem matchColumns_iff {stored : List Datum} :
    matchColumns conditions column left stored = true ↔ EachColumn conditions column
      fun condition index => matchCell condition (left.getD index none) (stored.getD index default) =
        true := by
  induction conditions generalizing column with
  | nil => exact ⟨(fun _ index condition there => nomatch there), fun _ => rfl⟩
  | cons condition rest ih => rw [matchColumns, and_eq_true, ih, eachColumn_cons]

theorem keptKey_iff : keptKey conditions column key = true ↔ EachColumn conditions column
      fun condition index => condition.nullValuesAreEqual = true ∨ (key.getD index none).isSome = true := by
  induction conditions generalizing column with
  | nil => exact ⟨(fun _ index condition there => nomatch there), fun _ => rfl⟩
  | cons condition rest ih =>
    rw [keptKey, and_eq_true, or_eq_true, ih, eachColumn_cons]

structure Shaped (plan : HashJoin) (builds : List BuildRow) (probes : List (ProbeRow Left)) :
    Prop where
  buildKeys : ∀ build ∈ builds, build.keys.length = plan.conditions.length
  payloads : ∀ build ∈ builds, build.payload.length = plan.buildTypes.length
  probeKeys : ∀ row ∈ probes, row.keys.length = plan.conditions.length

variable {build : BuildRow}

theorem stored_value (columns : build.keys.length = plan.conditions.length) {index : Nat}
    (there : plan.conditions[index]? = some condition) :
    (storeKey plan.conditionTypes build.keys).getD (0 + index) default =
      store condition.type (build.keys.getD (0 + index) none) := by
  rw [zero_add]
  apply storeKey_getD
  · rw [columns, conditionTypes, length_map]
  · rw [conditionTypes, getElem?_map, there]
    rfl

theorem hashKeys_congr (leftColumns : left.length = plan.conditions.length)
    (rightColumns : right.length = plan.conditions.length)
    (same : ∀ index condition, plan.conditions[index]? = some condition →
      condition.comparison = .equal → left.getD (0 + index) none = right.getD (0 + index) none) :
    plan.hashKeys left = plan.hashKeys right := by
  unfold hashKeys hashKey
  congr 1
  apply ext_getElem?
  intro index
  rw [storeKey, storeKey, getElem?_zipWith, getElem?_zipWith]
  by_cases below : index < plan.equalities
  · have inside : index < plan.conditions.length := lt_of_lt_of_le below plan.bounded
    have there := getElem?_eq_getElem inside
    have agree := same index _ there ((plan.leading index _ there).mpr below)
    have inLeft := getElem?_eq_getElem (l := left) (leftColumns ▸ inside)
    have inRight := getElem?_eq_getElem (l := right) (rightColumns ▸ inside)
    rw [zero_add, getD_eq_getElem?_getD, getD_eq_getElem?_getD, inLeft, inRight] at agree
    rw [inLeft, inRight]
    simp only [getD_some] at agree
    rw [agree]
  · have none : (plan.conditionTypes.take plan.equalities)[index]? = none := by
      rw [getElem?_eq_none_iff, length_take]
      omega
    rw [none]

variable {row : ProbeRow Left}

theorem joins_of_matches (leftColumns : row.keys.length = plan.conditions.length)
    (rightColumns : build.keys.length = plan.conditions.length)
    (matched : plan.sqlMatches row build = true) : plan.joins builds row build = true := by
  have each := fun index condition there =>
    sqlCompare_true (sqlTruth_eq_true.mp (eq_of_beq matched) index condition there)
  have keptRow : plan.keptProbe row = true :=
    keptKey_iff.mpr fun index condition there => (each index condition there).1
  have keptOther : plan.keptBuild build = true := by
    rw [keptBuild, keptKey_iff.mpr fun index condition there => (each index condition there).2.1, Bool.or_true]
  have columns : matchColumns plan.conditions 0 row.keys (storeKey plan.conditionTypes build.keys) = true := by
    refine matchColumns_iff.mpr fun index condition there => ?_
    dsimp only
    rw [stored_value rightColumns there]
    exact (each index condition there).2.2.1
  rw [joins, keptRow, keptOther, hashKeys_congr leftColumns rightColumns
    fun index condition there => (each index condition there).2.2.2, columns]
  simp

theorem matches_of_joins (rightColumns : build.keys.length = plan.conditions.length)
    (plain : plan.joinType.isRightOuter = false)
    (clear : EachColumn plan.conditions 0 fun condition index =>
      condition.nullValuesAreEqual = true → Unambiguous condition.type (row.keys.getD index none) ∧
        Unambiguous condition.type (build.keys.getD index none))
    (joined : plan.joins builds row build = true) : plan.sqlMatches row build = true := by
  simp only [joins, keptProbe, keptBuild, plain, Bool.false_or, Bool.and_eq_true] at joined
  obtain ⟨⟨⟨keptRow, keptOther⟩, _⟩, columns⟩ := joined
  refine beq_iff_eq.mpr (sqlTruth_eq_true.mpr fun index condition there => ?_)
  have compared := matchColumns_iff.mp columns index condition there
  dsimp only at compared ⊢
  rw [stored_value rightColumns there] at compared
  cases equal : condition.nullValuesAreEqual with
  | false =>
    have left := keptKey_iff.mp keptRow index condition there
    have right := keptKey_iff.mp keptOther index condition there
    dsimp only at left right
    rw [equal] at left right
    obtain ⟨first, leftValue⟩ := isSome_iff_exists.mp (left.resolve_left false_ne_true)
    obtain ⟨second, rightValue⟩ := isSome_iff_exists.mp (right.resolve_left false_ne_true)
    rw [leftValue, rightValue] at compared ⊢
    exact congrArg some compared
  | true =>
    obtain ⟨clearLeft, clearRight⟩ := clear index condition there equal
    have comparison := condition.equality equal
    have stored : compareStored condition.type (row.keys.getD (0 + index) none)
        (store condition.type (build.keys.getD (0 + index) none)) = true := by
      unfold matchCell at compared
      rw [comparison] at compared
      exact compared
    rw [(compareStored_store clearLeft clearRight).mp stored]
    cases build.keys.getD (0 + index) none with
    | none => simp [sqlCompare, equal]
    | some value => simp [sqlCompare, comparison, ComparisonType.holds]

end HashJoin

end GuinsooDB
