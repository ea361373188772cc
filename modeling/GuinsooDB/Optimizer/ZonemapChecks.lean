import Mathlib.Order.WithBot
import GuinsooDB.Library.ThreeValued
import GuinsooDB.Optimizer.MoveConstants

/-!
`GenerateZonemapChecks`: bounds of columns that follow from the remaining filters of a scan and
are executed as filters of its rows. NULL is below all values, so it can become the lower bound
of an OR.
-/

namespace GuinsooDB

open ThreeValued Option List

/-! `⊥` is NULL. -/

variable {V : Type} [LinearOrder V] [OrderBot V]

/-- The children of an AND or OR are merged one after the other, as by binary operators. An IN
list has constants and other expressions. -/
inductive RemainingFilter (V : Type) where
  | or (left right : RemainingFilter V)
  | and (left right : RemainingFilter V)
  | isIn (binding : Nat) (operands : List (V ⊕ ((Nat → V) → V)))
  | compare (binding : Nat) (comparison : ComparisonType) (constant : V) (constantLeft : Bool)
  | other (value : (Nat → V) → Option Bool)

structure ColumnBounds (V : Type) where
  min : Option V
  max : Option V

structure TableFilter (V : Type) where
  constant : V
  comparison : ComparisonType
  column : Nat

namespace ComparisonType

def relates (left right : V) : ComparisonType → Bool
  | equal => left = right
  | notEqual => left ≠ right
  | greaterThan => right < left
  | greaterThanOrEqualTo => right ≤ left
  | lessThan => left < right
  | lessThanOrEqualTo => left ≤ right

def evaluate (comparison : ComparisonType) (left right : V) : Option Bool :=
  if left = ⊥ ∨ right = ⊥ then none else some (comparison.relates left right)

def bounds (constant : V) : ComparisonType → Option (ColumnBounds V)
  | equal => some ⟨constant, constant⟩
  | lessThan | lessThanOrEqualTo => some ⟨none, constant⟩
  | greaterThan | greaterThanOrEqualTo => some ⟨constant, none⟩
  | notEqual => none

end ComparisonType

def TableFilter.Accepts (filter : TableFilter V) (row : Nat → V) : Prop :=
  filter.comparison.evaluate (row filter.column) filter.constant = some true

def ColumnBounds.and (first second : ColumnBounds V) : ColumnBounds V :=
  ⟨merge Max.max first.min second.min, merge Min.min first.max second.max⟩

def ColumnBounds.or (first second : ColumnBounds V) : ColumnBounds V :=
  ⟨map₂ Min.min first.min second.min, map₂ Max.max first.max second.max⟩

/-- The loop over an IN list: whether it met an expression, and the bounds unless it met NULL. -/
def scanOperands : List (V ⊕ ((Nat → V) → V)) → Option (ColumnBounds V) →
    Bool × Option (ColumnBounds V)
  | [], bounds => (false, bounds.getD ⟨none, none⟩)
  | .inr _ :: _, bounds => (true, bounds.getD ⟨none, none⟩)
  | .inl constant :: rest, bounds =>
    if constant = ⊥ then (false, none)
    else scanOperands rest (merge .or bounds (some ⟨constant, constant⟩))

namespace RemainingFilter

variable (columnIds : Nat → Nat) (row : Nat → V) (column : Nat)

def value : RemainingFilter V → Option Bool
  | or left right => disj [left.value, right.value]
  | and left right => conj [left.value, right.value]
  | isIn binding operands => disj (operands.map fun operand =>
      ComparisonType.equal.evaluate (row (columnIds binding)) (operand.elim id (· row)))
  | compare binding comparison constant constantLeft =>
    if constantLeft then comparison.evaluate constant (row (columnIds binding))
    else comparison.evaluate (row (columnIds binding)) constant
  | other value => value row

/-- `MergeAnd` and `MergeOr` work column by column. -/
def findZonemapChecks : RemainingFilter V → Option (ColumnBounds V)
  | or left right => map₂ .or left.findZonemapChecks right.findZonemapChecks
  | and left right => merge .and left.findZonemapChecks right.findZonemapChecks
  | isIn binding operands => if columnIds binding = column then (scanOperands operands none).2 else none
  | compare binding comparison constant constantLeft =>
    if columnIds binding = column then
      (if constantLeft then comparison.flip else comparison).bounds constant
    else none
  | other _ => none

def notConstants : RemainingFilter V → List Nat
  | or left right | and left right => left.notConstants ++ right.notConstants
  | isIn binding operands => if (scanOperands operands none).1 then [columnIds binding] else []
  | _ => []

/-- The checks of one column. All remaining filters are merged like the children of an AND. -/
def generateZonemapChecks (first : RemainingFilter V) (rest : List (RemainingFilter V))
    (pushedFilters : List Nat) : List (TableFilter V) :=
  let filter := rest.foldl and first
  if column ∈ filter.notConstants columnIds ∨ column ∈ pushedFilters.map columnIds then []
  else
    match filter.findZonemapChecks columnIds column with
    | none => []
    | some bounds =>
      bounds.min.toList.map (⟨·, .greaterThanOrEqualTo, column⟩) ++
        bounds.max.toList.map (⟨·, .lessThanOrEqualTo, column⟩)

def nullBound : RemainingFilter V → Option Bool
  | or left right => map₂ (· || ·) left.nullBound right.nullBound
  | and left right => merge (· && ·) left.nullBound right.nullBound
  | isIn binding operands =>
    bif columnIds binding = column && !operands.isEmpty &&
      operands.all (Sum.elim (· ≠ ⊥) fun _ => true) then some false else none
  | compare binding comparison constant constantLeft =>
    if columnIds binding = column ∧ (if constantLeft then comparison.flip else comparison) ∈
      [.equal, .greaterThan, .greaterThanOrEqualTo] then some (constant = ⊥) else none
  | other _ => none

/-- An IN list on the column has an expression that no NULL precedes. -/
def vetoes : RemainingFilter V → Bool
  | or left right | and left right => left.vetoes || right.vetoes
  | isIn binding operands => columnIds binding = column &&
      (operands.find? (Sum.elim (· = ⊥) fun _ => true)).any Sum.isRight
  | _ => false

/-- Rows that make all filters TRUE pass the filters of the scan. -/
def Necessary (first : RemainingFilter V) (rest : List (RemainingFilter V))
    (pushedFilters : List Nat) : Prop :=
  ∀ row, (∀ filter ∈ first :: rest, filter.value columnIds row = some true) →
    ∀ column, ∀ check ∈ generateZonemapChecks columnIds column first rest pushedFilters,
      check.Accepts row

variable {columnIds row column} {filter : RemainingFilter V} {comparison : ComparisonType}
  {bounds first second : ColumnBounds V} {start : Option (ColumnBounds V)} {left right : V}
  {operands : List (V ⊕ ((Nat → V) → V))}

theorem evaluate_eq_true : comparison.evaluate left right = some true ↔
    left ≠ ⊥ ∧ right ≠ ⊥ ∧ comparison.relates left right = true := by
  simp [ComparisonType.evaluate, and_assoc]

theorem evaluate_flip : comparison.flip.evaluate left right = comparison.evaluate right left := by
  cases comparison <;>
    simp [ComparisonType.evaluate, ComparisonType.flip, ComparisonType.relates, or_comm, eq_comm]

def Within (row : Nat → V) (column : Nat) (bounds : ColumnBounds V) : Prop :=
  row column ≠ ⊥ ∧ (∀ low ∈ bounds.min, low ≤ row column) ∧ ∀ high ∈ bounds.max, row column ≤ high

theorem Within.or (within : Within row column first ∨ Within row column second) :
    Within row column (first.or second) := by
  rcases first with ⟨_ | _, _ | _⟩ <;> rcases second with ⟨_ | _, _ | _⟩ <;>
    simp [Within, ColumnBounds.or] at within ⊢ <;> tauto

theorem Within.and (within : Within row column first) (also : Within row column second) :
    Within row column (first.and second) := by
  rcases first with ⟨_ | _, _ | _⟩ <;> rcases second with ⟨_ | _, _ | _⟩ <;>
    simp_all [Within, ColumnBounds.and]

theorem within_bounds {constant : V} (found : comparison.bounds constant = some bounds)
    (holds : comparison.evaluate (row column) constant = some true) : Within row column bounds := by
  obtain ⟨proper, -, related⟩ := evaluate_eq_true.mp holds
  cases comparison <;> cases found <;> simp_all [Within, ComparisonType.relates, le_of_lt]

theorem scanOperands_within (constants : (scanOperands operands start).1 = false)
    (holds : (∃ bounds ∈ start, Within row column bounds) ∨ ∃ operand ∈ operands,
      ComparisonType.equal.evaluate (row column) (operand.elim id (· row)) = some true)
    (found : (scanOperands operands start).2 = some bounds) : Within row column bounds := by
  induction operands generalizing start with
  | nil =>
    obtain ⟨bounds, rfl, within⟩ : ∃ bounds ∈ start, Within row column bounds := by simpa using holds
    cases found
    exact within
  | cons operand rest ih =>
    cases operand with
    | inr => cases constants
    | inl constant =>
      rw [scanOperands] at constants found
      split at found
      · cases found
      rename_i proper
      rw [if_neg proper] at constants
      refine ih constants ?_ found
      rcases holds with ⟨_, rfl, within⟩ | ⟨operand, listed, same⟩
      · exact .inl ⟨_, rfl, .or (.inl within)⟩
      rcases mem_cons.mp listed with rfl | later
      · have within : Within row column ⟨constant, constant⟩ := within_bounds (by rfl) same
        cases start with
        | none => exact .inl ⟨_, rfl, within⟩
        | some => exact .inl ⟨_, rfl, .or (.inr within)⟩
      · exact .inr ⟨operand, later, same⟩

theorem scanOperands_null (constants : (scanOperands operands start).1 = false)
    (proper : ∀ bounds ∈ start, ∃ low, bounds.min = some low ∧ low ≠ ⊥) :
    ((scanOperands operands start).2.bind ColumnBounds.min).map (decide <| · = ⊥) =
      bif (start.isSome || !operands.isEmpty) && operands.all (Sum.elim (· ≠ ⊥) fun _ => true) then
        some false else none := by
  induction operands generalizing start with
  | nil =>
    cases start with
    | none => rfl
    | some bounds =>
      obtain ⟨low, found, proper⟩ := proper bounds rfl
      simp [scanOperands, found, proper]
  | cons operand rest ih =>
    cases operand with
    | inr => cases constants
    | inl constant =>
      rw [scanOperands] at constants ⊢
      split at constants
      next null =>
        simp [null]
      rename_i value
      rw [if_neg value, ih constants]
      · cases start <;> simp [value]
      cases start with
      | none => simp [value]
      | some bounds =>
        obtain ⟨low, found, proper⟩ := proper bounds rfl
        simp [ColumnBounds.or, found, proper, value]

theorem scanOperands_fst : (scanOperands operands start).1 =
    (operands.find? (Sum.elim (· = ⊥) fun _ => true)).any Sum.isRight := by
  induction operands generalizing start with
  | nil => rfl
  | cons operand rest ih =>
    cases operand with
    | inr => rfl
    | inl constant => by_cases null : constant = ⊥ <;> simp [scanOperands, null, ih]

theorem mem_notConstants : column ∈ filter.notConstants columnIds ↔ filter.vetoes columnIds column = true := by
  induction filter with
  | isIn => simp [notConstants, vetoes, scanOperands_fst, @eq_comm _ column, and_comm]
  | _ => simp_all [notConstants, vetoes]

theorem value_and {left right : RemainingFilter V} : (and left right).value columnIds row = some true ↔
      left.value columnIds row = some true ∧ right.value columnIds row = some true := by
  simpa [Reaches, value] using @reaches_conj true [left.value columnIds row, right.value columnIds row]

theorem within_of_value (holds : filter.value columnIds row = some true)
    (constants : column ∉ filter.notConstants columnIds)
    (found : filter.findZonemapChecks columnIds column = some bounds) : Within row column bounds := by
  induction filter generalizing bounds with
  | or left right leftWithin rightWithin =>
    simp only [notConstants, mem_append, not_or] at constants
    obtain ⟨first, second, hasFirst, hasSecond, rfl⟩ := map₂_eq_some_iff.mp found
    have either : left.value columnIds row = some true ∨ right.value columnIds row = some true := by
      simpa [Reaches, eq_comm] using (@reaches_disj true _).mp holds
    exact .or (either.imp (leftWithin · constants.1 hasFirst) (rightWithin · constants.2 hasSecond))
  | and left right leftWithin rightWithin =>
    simp only [notConstants, mem_append, not_or] at constants
    have both := value_and.mp holds
    rw [findZonemapChecks] at found
    cases hasLeft : left.findZonemapChecks columnIds column <;>
      cases hasRight : right.findZonemapChecks columnIds column <;> rw [hasLeft, hasRight] at found <;>
        cases found
    · exact rightWithin both.2 constants.2 hasRight
    · exact leftWithin both.1 constants.1 hasLeft
    · exact .and (leftWithin both.1 constants.1 hasLeft) (rightWithin both.2 constants.2 hasRight)
  | isIn binding operands =>
    simp only [findZonemapChecks, ite_none_right_eq_some] at found
    obtain ⟨rfl, found⟩ := found
    refine scanOperands_within (by simpa [notConstants] using constants) (.inr ?_) found
    simpa [Reaches] using (@reaches_disj true _).mp holds
  | compare binding comparison constant constantLeft =>
    simp only [findZonemapChecks, ite_none_right_eq_some] at found
    obtain ⟨rfl, found⟩ := found
    refine within_bounds found ?_
    cases constantLeft with
    | false => exact holds
    | true => exact evaluate_flip.trans holds
  | other => cases found

theorem nullBound_eq (constants : column ∉ filter.notConstants columnIds) : filter.nullBound columnIds column =
      ((filter.findZonemapChecks columnIds column).bind ColumnBounds.min).map (decide <| · = ⊥) := by
  induction filter with
  | or left right leftBound rightBound | and left right leftBound rightBound =>
    simp only [notConstants, mem_append, not_or] at constants
    rw [nullBound, findZonemapChecks, leftBound constants.1, rightBound constants.2]
    rcases left.findZonemapChecks columnIds column with _ | ⟨_ | _, _⟩ <;>
      rcases right.findZonemapChecks columnIds column with _ | ⟨_ | _, _⟩ <;>
        simp [ColumnBounds.or, ColumnBounds.and]
  | isIn binding operands =>
    by_cases same : columnIds binding = column
    · have spec := @scanOperands_null _ _ _ none operands (by simpa [notConstants, same] using constants) (by simp)
      simp [nullBound, findZonemapChecks, same, spec]
    · simp [nullBound, findZonemapChecks, same]
  | compare binding comparison constant constantLeft =>
    by_cases same : columnIds binding = column <;> cases constantLeft <;> cases comparison <;>
      simp [nullBound, findZonemapChecks, ComparisonType.bounds, ComparisonType.flip, same]
  | other => rfl

theorem value_foldl {first : RemainingFilter V} {rest : List (RemainingFilter V)} :
    (rest.foldl and first).value columnIds row = some true ↔
      ∀ filter ∈ first :: rest, filter.value columnIds row = some true := by
  induction rest generalizing first with
  | nil => simp
  | cons next rest ih => simp [ih, value_and, and_assoc]

end RemainingFilter

end GuinsooDB
