import Mathlib.Algebra.BigOperators.Group.List.Basic
import Mathlib.Algebra.Order.Ring.Int
import GuinsooDB.Transaction.Manager

/-!
`SUM`: the state has 64 or 128 bits, and an overflow of it is not noticed. The state of 64 bits
is also chosen from statistics.
-/

namespace GuinsooDB

open Option Int List

namespace Hugeint

def Contains (value : Int) : Prop := value.natAbs < 2 ^ 127

instance : DecidablePred Contains := fun _ => Nat.decLt _ _

/-- `AddInPlace`, without the flag that `+=` drops. -/
def addInPlace (left right : Int) : Int :=
  let overflow := (left % 2 ^ 64 + right % 2 ^ 64) / 2 ^ 64
  if 0 ≤ right / 2 ^ 64 ∧ 2 ^ 63 - 1 - right / 2 ^ 64 - overflow < left / 2 ^ 64 ∨
      right / 2 ^ 64 < 0 ∧ left / 2 ^ 64 < -2 ^ 63 - right / 2 ^ 64 - overflow then left
  else left + right

def multiply (left right : Int) : Option Int :=
  if Contains (left * right) then some (left * right) else none

def addValue (result value : Int) (positive : Bool) : Int :=
  let lower := (result % 2 ^ 64 + value) % 2 ^ 64
  let carry := if decide (lower < value) = positive then if positive then 1 else -1 else 0
  (result / 2 ^ 64 + carry).bmod (2 ^ 64) * 2 ^ 64 + lower

theorem addInPlace_eq {left right : Int} (fits : Contains (left + right)) : addInPlace left right = left + right := by
  simp only [Contains, addInPlace] at *
  omega

end Hugeint

inductive SumOperation where
  | integer
  | toHugeint
  | hugeint

namespace SumOperation

def addNumber (value input : Int) : SumOperation → Int
  | integer => (value + input).bmod (2 ^ 64)
  | toHugeint => Hugeint.addValue value (input % 2 ^ 64) (0 ≤ input)
  | hugeint => Hugeint.addInPlace value input

def addConstant (value input : Int) (count : Nat) : SumOperation → Option Int
  | integer => some ((value + input * count).bmod (2 ^ 64))
  | toHugeint =>
    if 0 ≤ input ∧ input < (2 ^ 64 - 1) / standardVectorSize then
      some (Hugeint.addValue value (input * count % 2 ^ 64) true)
    else if count < 8 then some ((toHugeint.addNumber · input)^[count] value)
    else (Hugeint.multiply input count).map (Hugeint.addInPlace value)
  | hugeint => (Hugeint.multiply input count).map (Hugeint.addInPlace value)

def combine (target source : Int) : SumOperation → Int
  | integer => (target + source).bmod (2 ^ 64)
  | toHugeint | hugeint => Hugeint.addInPlace target source

def Takes (input : Int) : SumOperation → Prop
  | integer | toHugeint => input.natAbs < 2 ^ 63
  | hugeint => Hugeint.Contains input

def InRange (value : Int) : SumOperation → Prop
  | integer => -2 ^ 63 ≤ value ∧ value < 2 ^ 63
  | toHugeint | hugeint => Hugeint.Contains value

variable {operation : SumOperation} {value input : Int} {count : Nat}

theorem inRange_bmod : integer.InRange (value.bmod (2 ^ 64)) := by
  simp only [InRange, bmod_def]
  omega

theorem bmod_eq (fits : integer.InRange value) : value.bmod (2 ^ 64) = value := by
  simp only [InRange, bmod_def] at *
  omega

theorem addNumber_eq (held : operation.InRange value) (taken : operation.Takes input)
    (fits : operation.InRange (value + input)) : operation.addNumber value input = value + input := by
  cases operation with
  | integer => exact bmod_eq fits
  | toHugeint =>
    simp only [InRange, Takes, Hugeint.Contains, addNumber, Hugeint.addValue, bmod_def] at *
    by_cases positive : 0 ≤ input <;> simp only [positive, decide_true, decide_false] <;>
      split <;> simp at * <;> omega
  | hugeint => exact Hugeint.addInPlace_eq fits

theorem addNumber_iterate (held : toHugeint.InRange value) (taken : toHugeint.Takes input)
    (fits : toHugeint.InRange (value + input * count)) :
    (toHugeint.addNumber · input)^[count] value = value + input * count := by
  induction count generalizing value with
  | zero => simp
  | succ count ih =>
    have expand : value + input * (count + 1 : Nat) = value + input + input * count := by
      push_cast [mul_add]
      omega
    rw [expand] at fits ⊢
    have between : toHugeint.InRange (value + input) := by
      simp only [InRange, Hugeint.Contains] at *
      rcases le_total 0 input with positive | negative
      · have rising := mul_nonneg positive (natCast_nonneg count)
        omega
      · have falling := mul_nonneg (neg_nonneg.mpr negative) (natCast_nonneg count)
        rw [neg_mul] at falling
        omega
    rw [Function.iterate_succ_apply, addNumber_eq held taken between, ih between fits]

/-- The step is exact as far as the state can hold the sum. -/
structure Adds (operation : SumOperation) (sum : Int) (product : Int) (added : Option Int) : Prop where
  raises : ¬ Hugeint.Contains product → added = none
  returns : Hugeint.Contains product → ∃ total, added = some total ∧
    (operation.InRange sum → total = sum) ∧ (operation = integer → operation.InRange total)

theorem contains_mul (taken : input.natAbs < 2 ^ 63) (small : count ≤ standardVectorSize) :
    Hugeint.Contains (input * count) := by
  rw [Hugeint.Contains, natAbs_mul, natAbs_natCast]
  exact (Nat.mul_le_mul taken.le small).trans_lt (by decide)

theorem adds_number (held : operation.InRange value) (taken : operation.Takes input) :
    operation.Adds (value + input) input (some (operation.addNumber value input)) := by
  refine ⟨fun large => absurd ?_ large, fun _ => ⟨_, rfl, addNumber_eq held taken, ?_⟩⟩
  · cases operation <;> simp only [Takes, Hugeint.Contains] at * <;> omega
  · rintro rfl
    exact inRange_bmod

theorem adds_multiplied (kind : operation ≠ integer) : operation.Adds (value + input * count)
    (input * count) ((Hugeint.multiply input count).map (Hugeint.addInPlace value)) := by
  refine ⟨fun large => by rw [Hugeint.multiply, if_neg large, map_none], fun small => ?_⟩
  rw [Hugeint.multiply, if_pos small, map_some]
  refine ⟨_, rfl, fun fits => Hugeint.addInPlace_eq ?_, fun same => absurd same kind⟩
  cases operation with
  | integer => exact absurd rfl kind
  | _ => exact fits

theorem adds_constant (held : operation.InRange value) (taken : operation.Takes input)
    (small : count ≤ standardVectorSize) : operation.Adds (value + input * count) (input * count)
      (operation.addConstant value input count) := by
  cases operation with
  | integer =>
    exact ⟨fun large => absurd (contains_mul taken small) large, fun _ => ⟨_, rfl, bmod_eq, fun _ => inRange_bmod⟩⟩
  | toHugeint =>
    have product := contains_mul taken small
    rw [addConstant]
    split
    next low =>
      refine ⟨fun large => absurd product large, fun _ => ⟨_, rfl, fun fits => ?_, by simp⟩⟩
      have bound : input * count < 2 ^ 64 := by
        have := mul_le_mul low.2.le (ofNat_le.mpr small) (natCast_nonneg _) (by decide)
        exact this.trans_lt (by decide)
      have positive := mul_nonneg low.1 (natCast_nonneg count)
      simp only [InRange, Hugeint.Contains, Hugeint.addValue, bmod_def] at *
      split <;> simp at * <;> omega
    · split
      · exact ⟨fun large => absurd product large, fun _ => ⟨_, rfl, addNumber_iterate held taken, by simp⟩⟩
      · exact adds_multiplied (by simp)
  | hugeint => exact adds_multiplied (by simp)

theorem combine_eq (fits : operation.InRange (value + input)) : operation.combine value input = value + input := by
  cases operation with
  | integer => exact bmod_eq fits
  | _ => exact Hugeint.addInPlace_eq fits

end SumOperation

/-- How a state came about: row by row, by a constant vector at once, or from two states. -/
inductive SumHistory where
  | initial
  | operation (history : SumHistory) (cell : Option Int) (constant : Option (Fin (standardVectorSize + 1)))
  | combine (target source : SumHistory)

namespace SumHistory

def execute (kind : SumOperation) : SumHistory → Option (Int × Bool)
  | initial => some (0, false)
  | operation history none _ => history.execute kind
  | operation history (some input) constant =>
    (history.execute kind).bind fun state =>
      (constant.elim (some (kind.addNumber state.1 input)) (kind.addConstant state.1 input ·)).map
        (·, true)
  | combine target source =>
    (target.execute kind).bind fun state => (source.execute kind).map fun other =>
      (kind.combine state.1 other.1, other.2 || state.2)

def finalize (kind : SumOperation) (history : SumHistory) : Option (Option Int) :=
  (history.execute kind).map fun state => if state.2 then some state.1 else none

def times (constant : Option (Fin (standardVectorSize + 1))) : Nat := constant.elim 1 (·.val)

def values : SumHistory → List Int
  | initial => []
  | operation history cell constant => history.values ++ cell.toList.flatMap (.replicate (times constant))
  | combine target source => target.values ++ source.values

def expected (history : SumHistory) : Option (Option Int) :=
  if history.values = [] then some none
  else if Hugeint.Contains history.values.sum then some (some history.values.sum)
  else none

def Everywhere (property : SumHistory → Prop) : SumHistory → Prop
  | initial => property initial
  | operation history cell constant =>
    property (operation history cell constant) ∧ history.Everywhere property
  | combine target source => property (combine target source) ∧
      target.Everywhere property ∧ source.Everywhere property

def Takes (property : Int → Prop) : SumHistory → Prop
  | initial => True
  | operation history cell _ => history.Takes property ∧ ∀ input ∈ cell, property input
  | combine target source => target.Takes property ∧ source.Takes property

def touched : SumHistory → Bool
  | initial => false
  | operation history cell _ => cell.isSome || history.touched
  | combine target source => source.touched || target.touched

def overflows : SumHistory → Bool
  | initial => false
  | operation history cell constant =>
    history.overflows || cell.any fun input => ¬ Hugeint.Contains (input * times constant)
  | combine target source => target.overflows || source.overflows

def Fits (kind : SumOperation) (history : SumHistory) : Prop :=
  (history.touched = true → history.values ≠ []) ∧
    if history.overflows then ¬ Hugeint.Contains history.values.sum
    else kind.InRange history.values.sum

variable {kind : SumOperation} {history : SumHistory}

structure Settled (kind : SumOperation) (history : SumHistory) : Prop where
  executed : history.execute kind =
    bif history.overflows then none else some (history.values.sum, history.touched)
  held : history.overflows = false → kind.InRange history.values.sum

structure Reached (kind : SumOperation) (history : SumHistory) (value : Int) : Prop where
  executed : history.execute kind =
    bif history.overflows then none else some (value, history.touched)
  exact : history.overflows = false → kind.InRange history.values.sum → value = history.values.sum
  wrapped : history.overflows = false → kind = .integer → kind.InRange value

theorem values_eq_nil (untouched : history.touched = false) : history.values = [] := by
  induction history with
  | initial => rfl
  | operation history cell constant ih => simp_all [touched, values]
  | combine target source ih other => simp_all [touched, values]

section Reached

variable {value : Int} (reached : Reached kind history value)
include reached

theorem Reached.finalize_iff : history.finalize kind = history.expected ↔ history.Fits kind := by
  have empty : history.values = [] → history.values.sum = 0 := fun nil => by simp [nil]
  have zero : Hugeint.Contains 0 := by decide
  have small : kind.InRange history.values.sum → Hugeint.Contains history.values.sum := by
    cases kind <;> simp only [SumOperation.InRange, Hugeint.Contains] <;> omega
  have exact := reached.exact
  have wrapped := reached.wrapped
  rw [finalize, reached.executed, expected, Fits]
  generalize history.values.sum = sum at *
  cases overflows : history.overflows with
  | true => by_cases nil : history.values = [] <;> simp [nil, empty, zero]
  | false =>
    cases touched : history.touched with
    | false =>
      have nil := values_eq_nil touched
      cases kind <;> simp [nil, empty, SumOperation.InRange, zero]
    | true =>
      by_cases nil : history.values = []
      · simp [nil]
      by_cases representable : Hugeint.Contains sum
      · have range (same : value = sum) : kind.InRange sum := by
          cases kind with
          | integer => exact same ▸ wrapped overflows rfl
          | _ => exact representable
        simpa [nil, representable] using ⟨range, exact overflows⟩
      · simpa [nil, representable] using mt small representable

theorem Reached.settled (held : history.overflows = false → kind.InRange history.values.sum) :
    Settled kind history := by
  refine ⟨?_, held⟩
  rw [reached.executed]
  cases ok : history.overflows with
  | true => rfl
  | false => rw [reached.exact ok (held ok)]

end Reached

theorem reached_initial : Reached kind initial 0 := by
  refine ⟨rfl, fun _ _ => rfl, ?_⟩
  rintro - rfl
  simp [SumOperation.InRange]

theorem Settled.add (settled : Settled kind history) {cell : Option Int}
    (taken : ∀ input ∈ cell, kind.Takes input) (constant : Option (Fin (standardVectorSize + 1))) :
    ∃ value, Reached kind (operation history cell constant) value := by
  obtain ⟨executed, held⟩ := settled
  cases cell with
  | none =>
    refine ⟨history.values.sum, by simpa [execute, overflows, touched], by simp [values], ?_⟩
    rintro ok rfl
    exact held (by simpa [overflows] using ok)
  | some input =>
    cases ok : history.overflows with
    | true => exact ⟨0, by simp [execute, executed, overflows, ok], by simp [overflows, ok], by simp [overflows, ok]⟩
    | false =>
      have adds : kind.Adds (history.values.sum + input * times constant) (input * times constant)
          (constant.elim (some (kind.addNumber history.values.sum input))
            (kind.addConstant history.values.sum input ·)) := by
        cases constant with
        | none => simpa [times] using SumOperation.adds_number (held ok) (taken input rfl)
        | some count =>
          exact SumOperation.adds_constant (held ok) (taken input rfl) (Nat.le_of_lt_succ count.isLt)
      have sum : (operation history (some input) constant).values.sum =
          history.values.sum + input * times constant := by simp [values, mul_comm]
      by_cases product : Hugeint.Contains (input * times constant)
      · obtain ⟨total, added, exact, wrapped⟩ := adds.returns product
        refine ⟨total, ?_, fun _ => sum ▸ exact, fun _ => wrapped⟩
        simp [execute, executed, overflows, touched, ok, added, product]
      · have raises := adds.raises product
        refine ⟨0, ?_, by simp [overflows, product], by simp [overflows, product]⟩
        simp [execute, executed, overflows, ok, raises, product]

theorem Settled.combine {target source : SumHistory} (first : Settled kind target)
    (second : Settled kind source) : ∃ value, Reached kind (.combine target source) value := by
  refine ⟨kind.combine target.values.sum source.values.sum, ?_, ?_, ?_⟩
  · cases ok : target.overflows <;> cases other : source.overflows <;>
      simp [execute, first.executed, second.executed, overflows, touched, ok, other]
  · intro _ fits
    simp only [values, sum_append] at fits ⊢
    exact SumOperation.combine_eq fits
  · rintro - rfl
    exact SumOperation.inRange_bmod

theorem settled_of_inherited {property : SumHistory → Prop}
    (before : ∀ {history cell constant}, property (operation history cell constant) → property history)
    (parts : ∀ {target source}, property (.combine target source) → property target ∧ property source)
    (held : ∀ {part}, property part → part.overflows = false → kind.InRange part.values.sum)
    (taken : history.Takes kind.Takes) (holds : property history) : Settled kind history := by
  induction history with
  | initial => exact reached_initial.settled (held holds)
  | operation history cell constant ih =>
    obtain ⟨value, reached⟩ := (ih taken.1 (before holds)).add taken.2 constant
    exact reached.settled (held holds)
  | combine target source ih other =>
    obtain ⟨value, reached⟩ := (ih taken.1 (parts holds).1).combine (other taken.2 (parts holds).2)
    exact reached.settled (held holds)

theorem settled_of_fits (taken : history.Takes kind.Takes) (fits : history.Everywhere (Fits kind)) :
    Settled kind history := by
  refine settled_of_inherited And.right And.right (fun {part} fits ok => ?_) taken fits
  have fit : part.Fits kind := by cases part <;> simp_all [Everywhere]
  simpa [Fits, ok] using fit.2

/-- Whether an error or the exact sum is returned is decided at the first part that does not fit. -/
theorem everywhere_iff (taken : history.Takes kind.Takes) :
    history.Everywhere (fun part => part.finalize kind = part.expected) ↔ history.Everywhere (Fits kind) := by
  induction history with
  | initial => exact reached_initial.finalize_iff
  | operation history cell constant ih =>
    rw [Everywhere, Everywhere, ih taken.1, and_congr_left_iff]
    intro fits
    obtain ⟨value, reached⟩ := (settled_of_fits taken.1 fits).add taken.2 constant
    exact reached.finalize_iff
  | combine target source ih other =>
    rw [Everywhere, Everywhere, ih taken.1, other taken.2, and_congr_left_iff]
    intro fits
    obtain ⟨value, reached⟩ := (settled_of_fits taken.1 fits.1).combine (settled_of_fits taken.2 fits.2)
    exact reached.finalize_iff

def sumPropagateStats (min max : Int) (maxCardinality : Nat) : Bool :=
  -- The cardinality is unsigned, the constructor of `hugeint_t` takes it as signed.
  let cardinality := (maxCardinality : Int).bmod (2 ^ 64)
  decide (max * cardinality < 2 ^ 63 - 1) && decide (-(2 ^ 63 - 1) < min * cardinality)

theorem execute_integer : history.execute .integer = some (history.values.sum.bmod (2 ^ 64), history.touched) := by
  induction history with
  | initial => rfl
  | operation history cell constant ih =>
    cases cell <;> cases constant <;> simp [execute, ih, values, touched, times, SumOperation.addNumber,
      SumOperation.addConstant, mul_comm]
  | combine target source ih other =>
    simp [execute, ih, other, values, touched, SumOperation.combine]

variable {values : List Int} {min max : Int}

theorem sum_bounds {length : Nat} (short : values.length ≤ length)
    (inside : ∀ value ∈ values, min ≤ value ∧ value ≤ max) (low : min ≤ 0) (high : 0 ≤ max) :
    min * length ≤ values.sum ∧ values.sum ≤ max * length := by
  induction values generalizing length with
  | nil => simp [mul_nonneg high, mul_nonpos_of_nonpos_of_nonneg low]
  | cons value values ih =>
    obtain ⟨length, rfl⟩ : ∃ before, length = before + 1 := ⟨length - 1, by simp at short; omega⟩
    have rest := ih (Nat.le_of_succ_le_succ short) fun other mem => inside other (.tail _ mem)
    have here := inside value (.head _)
    rw [sum_cons]
    push_cast [mul_add]
    omega

theorem Takes.of_mem {property : Int → Prop} (taken : history.Takes property) :
    ∀ value ∈ history.values, property value := by
  induction history with
  | initial => simp [values]
  | operation history cell constant ih =>
    cases cell <;> simp_all [values, Takes, or_imp]
  | combine target source ih other => simp_all [values, Takes, or_imp]

theorem execute_toHugeint (taken : history.Takes SumOperation.toHugeint.Takes)
    (short : history.values.length < 2 ^ 64) :
    history.execute .toHugeint = some (history.values.sum, history.touched) := by
  have exact : history.overflows = false := by
    clear short
    induction history with
    | initial => rfl
    | operation history cell constant ih =>
      have small : times constant ≤ standardVectorSize := by
        cases constant with
        | none => simp [times, standardVectorSize]
        | some count => exact Nat.le_of_lt_succ count.isLt
      have product (input) (mem : input ∈ cell) := SumOperation.contains_mul (taken.2 input mem) small
      cases cell <;> simp_all [overflows, ih taken.1]
    | combine target source ih other => simp [overflows, ih taken.1, other taken.2]
  have settled : Settled .toHugeint history := by
    let property (part : SumHistory) := part.Takes SumOperation.toHugeint.Takes ∧ part.values.length < 2 ^ 64
    refine @settled_of_inherited _ _ property ?_ ?_ ?_ taken ⟨taken, short⟩
    · rintro history cell constant ⟨taken, short⟩
      simp only [values, length_append] at short
      exact ⟨taken.1, by omega⟩
    · rintro target source ⟨taken, short⟩
      simp only [values, length_append] at short
      exact ⟨⟨taken.1, by omega⟩, taken.2, by omega⟩
    · rintro part ⟨taken, short⟩ -
      have inside (value) (mem : value ∈ part.values) : -2 ^ 63 ≤ value ∧ value ≤ 2 ^ 63 - 1 := by
        have small := taken.of_mem value mem
        simp only [SumOperation.Takes] at small
        omega
      have bounds := sum_bounds (Nat.le_sub_one_of_lt short) inside (by omega) (by omega)
      simp only [SumOperation.InRange, Hugeint.Contains]
      omega
  rw [settled.executed, exact, cond_false]

theorem inRange_of_chosen {maxCardinality : Nat}
    (inside : ∀ value ∈ values, min ≤ value ∧ value ≤ max) (short : values.length ≤ maxCardinality)
    (small : maxCardinality < 2 ^ 63) (chosen : sumPropagateStats min max maxCardinality = true) :
    SumOperation.integer.InRange values.sum := by
  have signed : (maxCardinality : Int).bmod (2 ^ 64) = maxCardinality := SumOperation.bmod_eq ⟨by omega, by omega⟩
  simp only [sumPropagateStats, signed, Bool.and_eq_true, decide_eq_true_eq] at chosen
  have wider (value) (mem : value ∈ values) : Min.min min 0 ≤ value ∧ value ≤ Max.max max 0 :=
    (inside value mem).imp (inf_le_left.trans ·) (le_sup_left.trans' ·)
  have bounds := sum_bounds short wider inf_le_right le_sup_right
  constructor
  · rcases le_total min 0 with low | low <;> simp [low] at bounds <;> omega
  · rcases le_total max 0 with high | high <;> simp [high] at bounds <;> omega

end SumHistory
end GuinsooDB
