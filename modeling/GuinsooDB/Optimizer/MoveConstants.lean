import Mathlib.Algebra.Order.Ring.Int
import GuinsooDB.Join.HashTable

/-!
`MoveConstantsRule`: a constant moves from an arithmetic expression to the other side of its
comparison. The new constant is computed as a hugeint and narrowed to the type of the comparison,
for the small types without a check.
-/

namespace GuinsooDB

open Option

inductive IntegerType where
  | tinyint
  | smallint
  | integer
  | bigint
  | hugeint
  | utinyint
  | usmallint
  | uinteger
  | ubigint
  deriving DecidableEq

namespace IntegerType

def bits : IntegerType → Nat
  | .tinyint | .utinyint => 8
  | .smallint | .usmallint => 16
  | .integer | .uinteger => 32
  | .bigint | .ubigint => 64
  | .hugeint => 128

def isSigned : IntegerType → Bool
  | .tinyint | .smallint | .integer | .bigint | .hugeint => true
  | .utinyint | .usmallint | .uinteger | .ubigint => false

/-- `NumericLimits`: the lowest number of a signed type stands for NULL. -/
def Contains (type : IntegerType) (value : Int) : Prop :=
  if type.isSigned then -2 ^ (type.bits - 1) < value ∧ value < 2 ^ (type.bits - 1)
  else 0 ≤ value ∧ value < 2 ^ type.bits

/-- The number changes when it is stored in the type without a check. -/
def Wraps (type : IntegerType) (value : Int) : Prop :=
  type ∈ [.tinyint, .smallint, .integer] ∧
    ¬ (-2 ^ (type.bits - 1) ≤ value ∧ value < 2 ^ (type.bits - 1))

def numeric (type : IntegerType) (value : Int) : Option Int :=
  if type = .hugeint then some value
  else if -2 ^ 63 < value ∧ value < 2 ^ 63 then
    match type with
    | .bigint => some value
    | .tinyint | .smallint | .integer => some (value.bmod (2 ^ type.bits))
    | _ => none
  else none

end IntegerType

/-! The upper and lower words of a hugeint are its quotient and remainder by `2 ^ 64`. -/

def Hugeint.add (left right : Int) : Option Int :=
  let overflow := (left % 2 ^ 64 + right % 2 ^ 64) / 2 ^ 64
  if 0 ≤ right / 2 ^ 64 ∧ 2 ^ 63 - 1 - right / 2 ^ 64 - overflow < left / 2 ^ 64 ∨
      right / 2 ^ 64 < 0 ∧ left / 2 ^ 64 < -2 ^ 63 - right / 2 ^ 64 - overflow ∨
      left + right = -2 ^ 127 then none
  else some (left + right)

def Hugeint.subtract (left right : Int) : Option Int :=
  let underflow := if left % 2 ^ 64 < right % 2 ^ 64 then 1 else 0
  if 0 ≤ right / 2 ^ 64 ∧ left / 2 ^ 64 < -2 ^ 63 + right / 2 ^ 64 + underflow ∨
      right / 2 ^ 64 < 0 ∧ 2 ^ 63 - 1 + right / 2 ^ 64 + underflow - 1 ≤ left / 2 ^ 64 ∨
      left - right = -2 ^ 127 then none
  else some (left - right)

def binaryValueOperation (operation : Int → Int → Option Int) (type : IntegerType) :
    Option Int → Option Int → Option (Option Int)
  | some left, some right =>
    if type.isSigned then ((operation left right).bind type.numeric).map some else none
  | _, _ => some none

def ComparisonType.flip : ComparisonType → ComparisonType
  | .equal => .equal
  | .notEqual => .notEqual
  | .greaterThan => .lessThan
  | .greaterThanOrEqualTo => .lessThanOrEqualTo
  | .lessThan => .greaterThan
  | .lessThanOrEqualTo => .greaterThanOrEqualTo

def ComparisonType.isEquality (comparison : ComparisonType) : Bool :=
  comparison = .equal ∨ comparison = .notEqual

@[simp] theorem ComparisonType.isEquality_flip (comparison : ComparisonType) :
    comparison.flip.isEquality = comparison.isEquality := by
  cases comparison <;> rfl

/-- The order of the operands matters for the difference only. -/
inductive ArithmeticOperator where
  | plus
  | minusConstant
  | constantMinus
  | times

/-- `inner` is the constant of the arithmetic expression, `outer` the one of the comparison. -/
structure ArithmeticComparison where
  type : IntegerType
  operator : ArithmeticOperator
  inner : Option Int
  outer : Option Int
  comparison : ComparisonType
  constantLeft : Bool
  innerContained : ∀ value ∈ inner, type.Contains value
  outerContained : ∀ value ∈ outer, type.Contains value

namespace ArithmeticComparison

variable (expression : ArithmeticComparison)

def arithmetic (child inner : Int) : Int :=
  match expression.operator with
  | .plus => child + inner
  | .minusConstant => child - inner
  | .constantMinus => inner - child
  | .times => child * inner

def sides (comparison : ComparisonType) (value constant : Int) : Bool :=
  if expression.constantLeft then comparison.holds (.number constant) (.number value)
  else comparison.holds (.number value) (.number constant)

def compared (comparison : ComparisonType) (value constant : Option Int) : Option Bool :=
  value.bind fun value => constant.map (expression.sides comparison value)

def original (child : Option Int) : Option Bool :=
  expression.compared expression.comparison
    (child.bind fun child => expression.inner.map (expression.arithmetic child)) expression.outer

def move (comparison : ComparisonType) (operation : Int → Int → Option Int)
    (left right : Option Int) : Option (Option (ComparisonType × Option Int)) :=
  (binaryValueOperation operation expression.type left right).map fun constant =>
    some (comparison, constant)

/-- `MoveConstantsRule::Apply`: the new comparison and its constant, or no change. -/
def apply : Option (Option (ComparisonType × Option Int)) :=
  let { type, operator, inner, outer, comparison, .. } := expression
  match operator with
  | .plus => expression.move comparison Hugeint.subtract outer inner
  | .minusConstant => expression.move comparison Hugeint.add outer inner
  | .constantMinus => expression.move comparison.flip Hugeint.subtract inner outer
  | .times =>
    if inner = some 0 then some none
    else
      (binaryValueOperation (fun left right => some (left.tmod right)) type outer inner).bind
        fun remainder =>
          if remainder ≠ some 0 then some none
          else
            expression.move (if inner.any (· < 0) then comparison.flip else comparison)
              (fun left right => some (left.tdiv right)) outer inner

def exact (inner outer : Int) : Int :=
  match expression.operator with
  | .plus => outer - inner
  | .minusConstant => outer + inner
  | .constantMinus => inner - outer
  | .times => outer.tdiv inner

def Fits : Prop :=
  ∀ inner ∈ expression.inner, ∀ outer ∈ expression.outer,
    expression.type.Wraps (expression.exact inner outer) → expression.comparison.isEquality = true

/-- Where the rule changes the comparison, it has the same value for every child for which the
arithmetic does not overflow. -/
def Preserved : Prop :=
  ∀ comparison constant, expression.apply = some (some (comparison, constant)) →
    ∀ child : Option Int, (∀ value ∈ child, expression.type.Contains value ∧
      ∀ inner ∈ expression.inner, expression.type.Contains (expression.arithmetic value inner)) →
        expression.compared comparison child constant = expression.original child

def scale (inner : Int) : Int :=
  match expression.operator with
  | .plus | .minusConstant => 1
  | .constantMinus => -1
  | .times => inner

variable {expression} {type : IntegerType} {comparison : ComparisonType}
  {child inner outer moved value : Int}

open IntegerType

/-! Comparisons of integers -/

theorem sides_scaled {constant factor : Int} (nonzero : factor ≠ 0)
    (scaled : value - constant = factor * (child - moved)) :
    expression.sides comparison value constant =
      expression.sides (if factor < 0 then comparison.flip else comparison) child moved := by
  have equal : value = constant ↔ child = moved := by
    rw [← sub_eq_zero, scaled, mul_eq_zero, sub_eq_zero]
    simp [nonzero]
  have less : value < constant ↔ if factor < 0 then moved < child else child < moved := by
    rw [← sub_neg, scaled, mul_neg_iff]
    split <;> omega
  rw [sides, sides]
  by_cases negative : factor < 0
  · rw [if_pos negative] at less ⊢
    cases comparison <;> cases expression.constantLeft <;>
      simp [ComparisonType.flip, ComparisonType.holds, Datum.less, bne] <;> omega
  · rw [if_neg negative] at less ⊢
    cases comparison <;> cases expression.constantLeft <;>
      simp [ComparisonType.holds, Datum.less, bne] <;> omega

theorem sides_between {first second : Int} (between : first < child ∧ child < second ∨ second < child ∧ child < first) :
    expression.sides comparison child first = expression.sides comparison child second ↔
      comparison.isEquality = true := by
  rw [sides, sides]
  cases comparison <;> cases expression.constantLeft <;>
    simp [ComparisonType.holds, ComparisonType.isEquality, Datum.less, bne] <;> omega

/-! The new constant -/

section Signed

variable (signed : type.isSigned = true)
include signed

theorem numeric_cases (contained : type.Contains child) (above : child - value < 2 ^ type.bits)
    (below : value - child < 2 ^ type.bits) (narrowed : type.numeric value = some moved) :
    ¬ type.Wraps value ∧ moved = value ∨
      type.Wraps value ∧ (moved < child ∧ child < value ∨ value < child ∧ child < moved) := by
  cases type <;>
    simp [numeric, Contains, Wraps, bits, isSigned, Int.bmod_def] at * <;> omega

theorem contains_of_natAbs_le (contained : type.Contains outer)
    (below : value.natAbs ≤ outer.natAbs) : type.Contains value ∧ ¬ type.Wraps value := by
  cases type <;>
    simp [Contains, Wraps, bits, isSigned] at * <;>
    omega

theorem contains_sub_lt (contained : type.Contains child) (other : type.Contains value) :
    child - value < 2 ^ type.bits := by
  cases type <;> simp [Contains, bits, isSigned] at * <;> omega

end Signed

variable {constant : Option Int}

theorem move_some {operation : Int → Int → Option Int} {target : ComparisonType}
    (applied : expression.move target operation (some child) (some outer) = some (some (comparison, constant))) :
    expression.type.isSigned = true ∧ comparison = target ∧ ∃ value moved,
      operation child outer = some value ∧ expression.type.numeric value = some moved ∧ constant = some moved := by
  by_cases signed : expression.type.isSigned <;>
    simp only [move, binaryValueOperation, signed, if_true, if_false, Bool.false_eq_true,
      map_eq_some_iff, bind_eq_some_iff, some.injEq, Prod.mk.injEq,
      map_none, reduceCtorEq] at applied
  obtain ⟨_, ⟨moved, ⟨value, operated, narrowed⟩, rfl⟩, rfl, rfl⟩ := applied
  exact ⟨signed, rfl, value, moved, operated, narrowed, rfl⟩

theorem near_exact (signed : expression.type.isSigned = true)
    (childContained : expression.type.Contains child) (outerContained : expression.type.Contains outer)
    (contained : expression.type.Contains (expression.arithmetic child inner)) :
    child - expression.exact inner outer < 2 ^ expression.type.bits ∧
      expression.exact inner outer - child < 2 ^ expression.type.bits := by
  have first := contains_sub_lt signed contained outerContained
  have second := contains_sub_lt signed outerContained contained
  rw [arithmetic] at first second
  rw [exact]
  cases operator : expression.operator with
  | plus | minusConstant | constantMinus =>
    simp only [operator] at first second ⊢
    omega
  | times =>
    have quotient := (contains_of_natAbs_le signed outerContained
      ((Int.natAbs_tdiv outer inner).trans_le (Nat.div_le_self _ _))).1
    exact ⟨contains_sub_lt signed childContained quotient, contains_sub_lt signed quotient childContained⟩

theorem Hugeint.small {left right : Int} (leftSmall : left.natAbs < 2 ^ 31)
    (rightSmall : right.natAbs < 2 ^ 31) : Hugeint.add left right = some (left + right) ∧
      Hugeint.subtract left right = some (left - right) := by
  constructor
  · rw [Hugeint.add, if_neg (by omega)]
  · rw [Hugeint.subtract, if_neg (by split <;> omega)]

theorem small_of_wraps (wraps : type.Wraps moved) : type.isSigned = true ∧
    (∀ value, type.Contains value → value.natAbs < 2 ^ 31) ∧
      ∀ value : Int, value.natAbs < 2 ^ 32 → type.numeric value = some (value.bmod (2 ^ type.bits)) := by
  have listed := wraps.1
  cases type <;> simp at listed <;> refine ⟨rfl, fun value contained => ?_, fun value small => ?_⟩ <;>
    simp [Contains, isSigned, bits, numeric] at * <;>
    omega

structure Shift (expression : ArithmeticComparison) (comparison : ComparisonType)
    (inner outer moved : Int) : Prop where
  signed : expression.type.isSigned = true
  narrowed : expression.type.numeric (expression.exact inner outer) = some moved
  nonzero : expression.scale inner ≠ 0
  compared : comparison =
    if expression.scale inner < 0 then expression.comparison.flip else expression.comparison
  scaled : ∀ child, expression.arithmetic child inner - outer =
    expression.scale inner * (child - expression.exact inner outer)

section Constants

variable (hasInner : expression.inner = some inner) (hasOuter : expression.outer = some outer)
include hasInner hasOuter

theorem apply_shift (applied : expression.apply = some (some (comparison, constant))) :
    ∃ moved, constant = some moved ∧ Shift expression comparison inner outer moved := by
  obtain ⟨type, operator, _, _, _, _, _, contained⟩ := expression
  cases hasInner
  cases hasOuter
  cases operator with
  | plus | minusConstant | constantMinus =>
    obtain ⟨signed, rfl, _, moved, operated, narrowed, rfl⟩ := move_some applied
    simp only [Hugeint.add, Hugeint.subtract, ite_none_left_eq_some, some.injEq] at operated
    obtain ⟨-, rfl⟩ := operated
    refine ⟨moved, rfl, signed, narrowed, ?_, ?_, ?_⟩ <;> simp [scale, arithmetic, exact]
    omega
  | times =>
    simp only [apply, some.injEq] at applied
    split at applied
    · cases applied
    rename_i nonzero
    obtain ⟨remainder, divided, applied⟩ := bind_eq_some_iff.mp applied
    split at applied
    · cases applied
    rename_i clean
    obtain ⟨signed, rfl, _, moved, quotient, narrowed, rfl⟩ := move_some applied
    cases quotient
    have zero : outer.tmod inner = 0 := by
      have small := contains_of_natAbs_le signed (contained outer rfl)
        ((Int.natAbs_tmod outer inner).trans_le (Nat.mod_le _ _))
      have narrow : type.numeric (outer.tmod inner) = some 0 := by
        simp_all [binaryValueOperation]
      have near := contains_sub_lt signed small.1 small.1
      simpa [small.2, eq_comm] using numeric_cases signed small.1 near near narrow
    have whole := Int.mul_tdiv_add_tmod outer inner
    refine ⟨moved, rfl, signed, narrowed, nonzero, ?_, fun child => ?_⟩
    · by_cases negative : inner < 0 <;> simp [scale, negative]
    · simp only [arithmetic, scale, exact, mul_sub, mul_comm child]
      omega

theorem compared_shift (shift : Shift expression comparison inner outer moved)
    (childContained : expression.type.Contains child)
    (contained : expression.type.Contains (expression.arithmetic child inner)) :
    expression.compared comparison (some child) (some moved) = expression.original (some child) ↔
      (expression.type.Wraps (expression.exact inner outer) → expression.comparison.isEquality = true) := by
  obtain ⟨above, below⟩ := near_exact shift.signed childContained (expression.outerContained outer hasOuter) contained
  simp only [compared, original, hasInner, hasOuter, bind_some, map_some,
    sides_scaled shift.nonzero (shift.scaled child), ← shift.compared, some.injEq]
  rcases numeric_cases shift.signed childContained above below shift.narrowed with
    ⟨plain, rfl⟩ | ⟨wraps, between⟩
  · simp [plain]
  · rw [sides_between between, shift.compared]
    split <;> simp [wraps]

theorem apply_wraps (wraps : expression.type.Wraps (expression.exact inner outer)) :
    (∃ comparison constant, expression.apply = some (some (comparison, constant))) ∧
      ∃ child, expression.type.Contains child ∧ expression.arithmetic child inner = 0 := by
  obtain ⟨signed, small, numeric⟩ := small_of_wraps wraps
  have innerContained := expression.innerContained inner hasInner
  have outerContained := expression.outerContained outer hasOuter
  have innerSmall := small inner innerContained
  have outerSmall := small outer outerContained
  have added := Hugeint.small outerSmall innerSmall
  have subtracted := Hugeint.small innerSmall outerSmall
  have first := numeric (outer + inner) (by omega)
  have second := numeric (outer - inner) (by omega)
  have third := numeric (inner - outer) (by omega)
  cases operator : expression.operator with
  | plus =>
    refine ⟨?_, -inner, ?_, by simp [arithmetic, operator]⟩
    · simp [apply, operator, hasInner, hasOuter, move, binaryValueOperation, signed, added, second]
    · exact (contains_of_natAbs_le signed innerContained (by simp)).1
  | minusConstant | constantMinus =>
    refine ⟨?_, inner, innerContained, by simp [arithmetic, operator]⟩
    simp [apply, operator, hasInner, hasOuter, move, binaryValueOperation, signed, added, subtracted, first, third]
  | times =>
    rw [exact, operator] at wraps
    exact absurd wraps (contains_of_natAbs_le signed outerContained
      ((Int.natAbs_tdiv outer inner).trans_le (Nat.div_le_self _ _))).2

end Constants

theorem apply_null (null : expression.inner = none ∨ expression.outer = none)
    (applied : expression.apply = some (some (comparison, constant))) : constant = none := by
  cases operator : expression.operator <;> cases inner : expression.inner <;>
    cases outer : expression.outer <;> simp_all [apply, move, binaryValueOperation]

end ArithmeticComparison

end GuinsooDB
