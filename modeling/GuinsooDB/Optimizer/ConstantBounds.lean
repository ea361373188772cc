import GuinsooDB.Optimizer.ZonemapChecks

/-!
The comparisons of an expression with constants, which `FilterCombiner` keeps in a list without
redundant entries. `none` is the result UNSATISFIABLE.
-/

namespace GuinsooDB

open List

variable {V : Type} [LinearOrder V]

namespace ComparisonType

def isGreaterThan (comparison : ComparisonType) : Prop :=
  comparison = greaterThan ∨ comparison = greaterThanOrEqualTo

def isLessThan (comparison : ComparisonType) : Prop :=
  comparison = lessThan ∨ comparison = lessThanOrEqualTo

instance : DecidablePred isGreaterThan := fun _ => inferInstanceAs (Decidable (_ ∨ _))

instance : DecidablePred isLessThan := fun _ => inferInstanceAs (Decidable (_ ∨ _))

theorem isGreaterThan_of_not {comparison : ComparisonType} (equal : comparison ≠ .equal)
    (notEqual : comparison ≠ .notEqual) (upper : ¬comparison.isLessThan) : comparison.isGreaterThan := by
  cases comparison <;> simp_all [isLessThan, isGreaterThan]

end ComparisonType

structure ExpressionValueInformation (V : Type) where
  constant : V
  comparison : ComparisonType

inductive ValueComparisonResult where
  | pruneLeft
  | pruneRight
  | unsatisfiableCondition
  | pruneNothing

def invertValueComparisonResult : ValueComparisonResult → ValueComparisonResult
  | .pruneRight => .pruneLeft
  | .pruneLeft => .pruneRight
  | result => result

namespace ExpressionValueInformation

/-- A comparison with NULL is not true. -/
def Holds (info : ExpressionValueInformation V) (value : Option V) : Prop :=
  ∃ given ∈ value, info.comparison.relates given info.constant = true

variable (left right info : ExpressionValueInformation V)

/-- Left is an equality. The switch runs the comparison of the right side on both constants. -/
def compareEqual : ValueComparisonResult :=
  if right.comparison.relates left.constant right.constant then .pruneRight else .unsatisfiableCondition

/-- Left is an inequality. The switch has the negation of each comparison of the right side. -/
def compareNotEqual : ValueComparisonResult :=
  if right.comparison.relates left.constant right.constant then .pruneNothing else .pruneLeft

/-- Two bounds of one side, of which `strict` is the strict comparison and `inclusive` the other. -/
def compareBounds (strict inclusive : ComparisonType) : ValueComparisonResult :=
  if strict.relates left.constant right.constant then .pruneRight
  else if strict.relates right.constant left.constant then .pruneLeft
  else if left.comparison = inclusive then .pruneLeft
  else .pruneRight

/-- Left is an upper bound and right a lower one. -/
def compareRange : ValueComparisonResult :=
  if left.constant ≥ right.constant then .pruneNothing else .unsatisfiableCondition

def compareValueInformation : ValueComparisonResult :=
  if left.comparison = .equal then compareEqual left right
  else if right.comparison = .equal then invertValueComparisonResult (compareEqual right left)
  else if left.comparison = .notEqual then compareNotEqual left right
  else if right.comparison = .notEqual then invertValueComparisonResult (compareNotEqual right left)
  else if left.comparison.isGreaterThan ∧ right.comparison.isGreaterThan then
    compareBounds left right .greaterThan .greaterThanOrEqualTo
  else if left.comparison.isLessThan ∧ right.comparison.isLessThan then
    compareBounds left right .lessThan .lessThanOrEqualTo
  else if left.comparison.isLessThan then compareRange left right
  else invertValueComparisonResult (compareRange right left)

def SameSide : Prop :=
  (left.comparison.isGreaterThan ∧ right.comparison.isGreaterThan) ∨
    (left.comparison.isLessThan ∧ right.comparison.isLessThan)

def Justifies : ValueComparisonResult → Prop
  | .pruneLeft => ∀ value, right.Holds value → left.Holds value
  | .pruneRight => ∀ value, left.Holds value → right.Holds value
  | .unsatisfiableCondition => ∀ value, left.Holds value → ¬right.Holds value
  | .pruneNothing => ¬SameSide left right

variable {left right}

theorem Justifies.invert {result : ValueComparisonResult} (justified : Justifies right left result) :
    Justifies left right (invertValueComparisonResult result) := by
  cases result with
  | pruneLeft | pruneRight => exact justified
  | unsatisfiableCondition => exact fun value first second => justified value second first
  | pruneNothing => exact fun same => justified (same.imp .symm .symm)

theorem justifies_compareEqual (equal : left.comparison = .equal) : Justifies left right (compareEqual left right) := by
  rw [compareEqual]
  split <;> simp_all [Justifies, Holds, ComparisonType.relates]

theorem justifies_compareNotEqual (notEqual : left.comparison = .notEqual) :
    Justifies left right (compareNotEqual left right) := by
  rw [compareNotEqual]
  split
  · simp [Justifies, SameSide, notEqual, ComparisonType.isGreaterThan, ComparisonType.isLessThan]
  rename_i excluded
  rintro _ ⟨value, rfl, holds⟩
  refine ⟨value, rfl, ?_⟩
  simp only [notEqual, ComparisonType.relates, decide_eq_true_eq]
  rintro rfl
  exact excluded holds

theorem justifies_compareBounds {strict inclusive : ComparisonType}
    (side : (strict, inclusive) ∈ [(.greaterThan, .greaterThanOrEqualTo), (.lessThan, .lessThanOrEqualTo)])
    (first : left.comparison = strict ∨ left.comparison = inclusive)
    (second : right.comparison = strict ∨ right.comparison = inclusive) :
    Justifies left right (compareBounds left right strict inclusive) := by
  simp only [mem_cons, Prod.mk.injEq, not_mem_nil, or_false] at side
  rw [compareBounds]
  rcases side with ⟨rfl, rfl⟩ | ⟨rfl, rfl⟩ <;> split_ifs <;> rintro _ ⟨value, rfl, holds⟩ <;>
    refine ⟨value, rfl, ?_⟩ <;> grind [ComparisonType.relates]

theorem justifies_compareRange (upper : left.comparison.isLessThan) (lower : right.comparison.isGreaterThan) :
    Justifies left right (compareRange left right) := by
  rw [compareRange]
  split
  · rintro (⟨above, _⟩ | ⟨_, below⟩)
    · rcases upper with upper | upper <;> simp [upper, ComparisonType.isGreaterThan] at above
    · rcases lower with lower | lower <;> simp [lower, ComparisonType.isLessThan] at below
  · rintro _ ⟨value, rfl, below⟩ ⟨_, ⟨⟩, above⟩
    rcases upper with upper | upper <;> rcases lower with lower | lower <;>
      simp [upper, lower, ComparisonType.relates] at below above <;> grind

theorem justifies_compareValueInformation : Justifies left right (compareValueInformation left right) := by
  rw [compareValueInformation]
  split_ifs with equal other notEqual another lower upper least
  · exact justifies_compareEqual equal
  · exact (justifies_compareEqual other).invert
  · exact justifies_compareNotEqual notEqual
  · exact (justifies_compareNotEqual another).invert
  · exact justifies_compareBounds (by simp) lower.1 lower.2
  · exact justifies_compareBounds (by simp) upper.1 upper.2
  · exact justifies_compareRange least
      (ComparisonType.isGreaterThan_of_not other another fun most => upper ⟨least, most⟩)
  · have above := ComparisonType.isGreaterThan_of_not equal notEqual least
    have below := mt (ComparisonType.isGreaterThan_of_not other another) fun most => lower ⟨above, most⟩
    exact (justifies_compareRange (not_not.mp below) above).invert

end ExpressionValueInformation

open ExpressionValueInformation

def addConstantComparison : List (ExpressionValueInformation V) → ExpressionValueInformation V →
    Option (List (ExpressionValueInformation V))
  | [], info => some [info]
  | first :: rest, info =>
    match compareValueInformation first info with
    | .pruneLeft => addConstantComparison rest info
    | .pruneRight => some (first :: rest)
    | .unsatisfiableCondition => none
    | .pruneNothing => (addConstantComparison rest info).map (first :: ·)

/-- An insertion leaves the same conjunction, and no second bound of a side. -/
theorem addConstantComparison_step (list : List (ExpressionValueInformation V)) (info : ExpressionValueInformation V) :
    match addConstantComparison list info with
    | none => ∀ value, (∀ entry ∈ list, entry.Holds value) → ¬info.Holds value
    | some result => (∀ value, (∀ entry ∈ result, entry.Holds value) ↔
        (∀ entry ∈ list, entry.Holds value) ∧ info.Holds value) ∧
      result ⊆ info :: list ∧ (list.Pairwise (¬SameSide · ·) → result.Pairwise (¬SameSide · ·)) := by
  induction list with
  | nil => simp [addConstantComparison]
  | cons first rest ih =>
    have spec := @justifies_compareValueInformation _ _ first info
    rw [addConstantComparison]
    -- the result of the comparison says which of the two conditions follows from the other
    cases compared : compareValueInformation first info <;> rw [compared] at spec <;>
      cases added : addConstantComparison rest info <;> rw [added] at ih <;>
      simp [Justifies] at spec ⊢ <;> grind

/-- Insertions in any order: UNSATISFIABLE means that no value meets all comparisons, and else the list
is met by exactly the values that meet them. It has at most one bound of each side. -/
theorem addConstantComparison_run (infos : List (ExpressionValueInformation V)) :
    match infos.foldlM addConstantComparison [] with
    | none => ∀ value, ¬∀ info ∈ infos, info.Holds value
    | some result => (∀ value, (∀ entry ∈ result, entry.Holds value) ↔ ∀ info ∈ infos, info.Holds value) ∧
      result.Pairwise (¬SameSide · ·) := by
  induction infos using reverseRecOn with
  | nil => simp
  | append_singleton infos info ih =>
    rw [foldlM_append]
    cases before : infos.foldlM addConstantComparison [] with
    | none =>
      rw [before] at ih
      exact fun value all => ih value fun entry member => all entry (mem_append_left _ member)
    | some list =>
      rw [before] at ih
      have step := addConstantComparison_step list info
      simp only [Option.bind_eq_bind, Option.bind_some, foldlM_cons, foldlM_nil, bind_pure]
      cases added : addConstantComparison list info <;> rw [added] at step <;>
        simp only [forall_mem_append, forall_mem_singleton, ← ih.1]
      · exact fun value both => step value both.1 both.2
      · exact ⟨step.1, step.2.2 ih.2⟩

end GuinsooDB
