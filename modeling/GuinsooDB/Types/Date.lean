import Mathlib.Algebra.Order.Ring.Int

/-! Calendar dates. Day numbers are counted from the first of January 1970. Years are shifted into the
400 years that follow it, after which leap years repeat. -/

namespace GuinsooDB

structure Date where
  year : Int
  month : Nat
  day : Nat
  deriving DecidableEq

namespace Date

def minYear : Int := -290307
def maxYear : Int := 294247

def isLeapYear (year : Int) : Bool :=
  year % 4 = 0 ∧ (year % 100 ≠ 0 ∨ year % 400 = 0)

/-- `NORMAL_DAYS` and `LEAP_DAYS`. -/
def days (leap : Bool) : List Nat :=
  if leap then [0, 31, 29, 31, 30, 31, 30, 31, 31, 30, 31, 30, 31]
  else [0, 31, 28, 31, 30, 31, 30, 31, 31, 30, 31, 30, 31]

/-- `CUMULATIVE_DAYS` and `CUMULATIVE_LEAP_DAYS`. -/
def cumulativeDays (leap : Bool) : List Nat :=
  if leap then [0, 31, 60, 91, 121, 152, 182, 213, 244, 274, 305, 335, 366]
  else [0, 31, 59, 90, 120, 151, 181, 212, 243, 273, 304, 334, 365]

/-- `MONTH_PER_DAY_OF_YEAR` and `LEAP_MONTH_PER_DAY_OF_YEAR`. -/
def monthPerDayOfYear (leap : Bool) : List Nat :=
  (days leap).zipIdx.flatMap fun (count, month) => .replicate count month

/-- `CUMULATIVE_YEAR_DAYS`, the days before each year from 1970 to 2370. -/
def cumulativeYearDays (offset : Nat) : Int :=
  365 * offset + (offset + 1) / 4 - (offset + 69) / 100 + (offset + 369) / 400

def isValid (date : Date) : Bool :=
  1 ≤ date.month ∧ date.month ≤ 12 ∧ minYear ≤ date.year ∧ date.year ≤ maxYear ∧
    1 ≤ date.day ∧ date.day ≤ (days (isLeapYear date.year)).getD date.month 0

/-- The loops `while (x < low)` and `while (x >= low + period)`; only one of them is entered. -/
def shift (low : Int) (period step : Nat) [NeZero period] (x y : Int) : Int × Int :=
  if x < low then shift low period step (x + period) (y - step)
  else if x ≥ low + period then shift low period step (x - period) (y + step)
  else (x, y)
termination_by ((low - x).toNat, (x - low).toNat)
decreasing_by
  all_goals have := Nat.pos_of_neZero period
  · exact .left _ _ (by omega)
  · rw [show (low - (x - period)).toNat = (low - x).toNat by omega]
    exact .right _ (by omega)

/-- The loop that corrects the estimated offset of the year. -/
def decrement (n : Int) : Nat → Nat
  | 0 => 0
  | offset + 1 => if n < cumulativeYearDays (offset + 1) then decrement n offset else offset + 1

def extractYearOffset (n : Int) : Int × Int × Nat :=
  let (n, year) := shift 0 146097 400 n 1970
  let offset := decrement n (n / 365).toNat
  (n, year + offset, offset)

def convert (n : Int) : Date :=
  let (n, year, offset) := extractYearOffset n
  let day := (n - cumulativeYearDays offset).toNat
  let leap := cumulativeYearDays (offset + 1) - cumulativeYearDays offset == 366
  let month := (monthPerDayOfYear leap).getD day 0
  ⟨year, month, day - (cumulativeDays leap).getD (month - 1) 0 + 1⟩

def fromDate (date : Date) : Option Int :=
  if date.isValid then
    let (year, n) := shift 1970 400 146097 date.year 0
    some (n + cumulativeYearDays (year - 1970).toNat +
      (cumulativeDays (isLeapYear year)).getD (date.month - 1) 0 + (date.day - 1))
  else none

end Date
end GuinsooDB
