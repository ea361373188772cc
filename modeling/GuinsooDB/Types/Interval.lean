import Mathlib.Data.Prod.Lex
import Mathlib.Order.Basic

/-! Intervals and their comparison. `GreaterThan` first moves whole months and days out of the smaller
fields, `Equals` compares the fields as they are stored. -/

namespace GuinsooDB

structure Interval where
  months : Int
  days : Int
  micros : Int
  deriving DecidableEq

open Int (tdiv_mul_add_tmod lt_tmod_of_pos tmod_lt_of_pos tmod_nonneg neg_tmod)

namespace Interval

def daysPerMonth : Int := 30

def microsPerDay : Int := 86400000000

def microsPerMonth : Int := microsPerDay * daysPerMonth

/-- The divisions are those of the source, towards zero, so an interval's fields keep their signs. -/
def normalizeIntervalEntries (input : Interval) : Int × Int × Int :=
  let extraMonthsDays := input.days.tdiv daysPerMonth
  let extraMonthsMicros := input.micros.tdiv microsPerMonth
  let days := input.days - extraMonthsDays * daysPerMonth
  let micros := input.micros - extraMonthsMicros * microsPerMonth
  let extraDaysMicros := micros.tdiv microsPerDay
  (input.months + extraMonthsDays + extraMonthsMicros, days + extraDaysMicros,
    micros - extraDaysMicros * microsPerDay)

def equals (left right : Interval) : Bool :=
  left.months == right.months && left.days == right.days && left.micros == right.micros

def greaterThan (left right : Interval) : Bool :=
  let (leftMonths, leftDays, leftMicros) := normalizeIntervalEntries left
  let (rightMonths, rightDays, rightMicros) := normalizeIntervalEntries right
  if leftMonths > rightMonths then true
  else if leftMonths < rightMonths then false
  else if leftDays > rightDays then true
  else if leftDays < rightDays then false
  else leftMicros > rightMicros

def greaterThanEquals (left right : Interval) : Bool :=
  greaterThan left right || equals left right

variable {left right : Interval}

theorem equals_iff : equals left right ↔ left = right := by
  obtain ⟨leftMonths, leftDays, leftMicros⟩ := left
  obtain ⟨rightMonths, rightDays, rightMicros⟩ := right
  simp [equals, and_assoc]

/-- The normalised entries, compared from the months down. -/
def rank (interval : Interval) : Int ×ₗ Int ×ₗ Int :=
  let (months, days, micros) := normalizeIntervalEntries interval
  toLex (months, toLex (days, micros))

theorem greaterThan_iff : greaterThan left right ↔ rank right < rank left := by
  simp only [greaterThan, rank, Prod.Lex.toLex_lt_toLex]
  grind

theorem greaterThanEquals_iff : greaterThanEquals left right ↔ rank right < rank left ∨ left = right := by
  rw [greaterThanEquals, Bool.or_eq_true, greaterThan_iff, equals_iff]

theorem tmod_spec (value : Int) {divisor : Int} (positive : 0 < divisor) :
    value = value.tdiv divisor * divisor + value.tmod divisor ∧ -divisor < value.tmod divisor ∧
    value.tmod divisor < divisor ∧ (0 ≤ value → 0 ≤ value.tmod divisor) ∧ (value ≤ 0 → value.tmod divisor ≤ 0) := by
  refine ⟨(tdiv_mul_add_tmod value divisor).symm, lt_tmod_of_pos value positive, tmod_lt_of_pos value positive,
    tmod_nonneg divisor, fun negative => ?_⟩
  have above := tmod_nonneg divisor (show 0 ≤ -value by omega)
  rw [neg_tmod] at above
  omega

/-- Taking out months first and then days takes out the same days as taking out days at once. -/
theorem tdiv_split (micros : Int) : (micros - micros.tdiv microsPerMonth * microsPerMonth).tdiv microsPerDay =
    micros.tdiv microsPerDay - micros.tdiv microsPerMonth * daysPerMonth := by
  have months := tmod_spec micros (show 0 < microsPerMonth by decide)
  have days := tmod_spec micros (show 0 < microsPerDay by decide)
  have rest := tmod_spec (micros - micros.tdiv microsPerMonth * microsPerMonth) (show 0 < microsPerDay by decide)
  simp only [microsPerMonth, microsPerDay, daysPerMonth] at *
  omega

theorem rank_eq_iff : rank left = rank right ↔
    left.months + left.days.tdiv daysPerMonth + left.micros.tdiv microsPerMonth =
      right.months + right.days.tdiv daysPerMonth + right.micros.tdiv microsPerMonth ∧
    left.months * daysPerMonth + left.days + left.micros.tdiv microsPerDay =
      right.months * daysPerMonth + right.days + right.micros.tdiv microsPerDay ∧
    left.micros.tmod microsPerDay = right.micros.tmod microsPerDay := by
  simp only [rank, normalizeIntervalEntries, EmbeddingLike.apply_eq_iff_eq, Prod.mk.injEq, tdiv_split]
  rw [Int.tmod_def, Int.tmod_def]
  simp only [microsPerMonth, microsPerDay, daysPerMonth]
  omega

/-- What sorting, joins, minima and zonemaps take for granted of any three intervals. -/
structure Ordered (first second third : Interval) : Prop where
  exactlyOne :
    greaterThan first second ∧ ¬ equals first second ∧ ¬ greaterThan second first ∨
    ¬ greaterThan first second ∧ equals first second ∧ ¬ greaterThan second first ∨
    ¬ greaterThan first second ∧ ¬ equals first second ∧ greaterThan second first
  greaterTrans : greaterThan first second → greaterThan second third → greaterThan first third
  atLeastTrans : greaterThanEquals first second → greaterThanEquals second third → greaterThanEquals first third
  atLeast : greaterThanEquals first second ↔ greaterThan first second ∨ equals first second

theorem exactlyOne_iff (first second : Interval) :
    (rank second < rank first ∧ ¬ first = second ∧ ¬ rank first < rank second ∨
      ¬ rank second < rank first ∧ first = second ∧ ¬ rank first < rank second ∨
      ¬ rank second < rank first ∧ ¬ first = second ∧ rank first < rank second) ↔
    (rank first = rank second → first = second) := by
  obtain less | same | more := lt_trichotomy (rank first) (rank second)
  · have differ : first ≠ second := fun same => less.ne (congrArg rank same)
    simp [less, less.le, less.ne, differ]
  · simp [same]
  · have differ : first ≠ second := fun same => more.ne' (congrArg rank same)
    simp [more, more.le, more.ne', differ]

end Interval
end GuinsooDB
