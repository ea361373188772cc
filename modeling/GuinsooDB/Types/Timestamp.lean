import GuinsooDB.Types.Interval
import GuinsooDB.Types.Date

/-! Dates, times and timestamps plus intervals. A timestamp is taken apart, and its date and its time of
day are added to on their own: what the time carries does not reach the date, and no sum is checked. -/

namespace GuinsooDB.Timestamp

open Option

open Interval (microsPerDay tmod_spec)

/-- What is left of a number in a word of so many bits. -/
def wrap (bits : Nat) (value : Int) : Int :=
  (value + 2 ^ (bits - 1)) % 2 ^ bits - 2 ^ (bits - 1)

abbrev Fits (bits : Nat) (value : Int) : Prop :=
  -2 ^ (bits - 1) ≤ value ∧ value < 2 ^ (bits - 1)

def getDate (timestamp : Int) : Int :=
  let negative : Int := if timestamp < 0 then 1 else 0
  (timestamp + negative).tdiv microsPerDay - negative

def convert (timestamp : Int) : Int × Int :=
  (getDate timestamp, timestamp - getDate timestamp * microsPerDay)

def fromDatetime (date time : Int) : Int :=
  wrap 64 (date * microsPerDay + time)

/-- `FromDate` throws for a day that the month does not have. -/
def addMonths (date months : Int) : Option Int :=
  let ⟨year, month, day⟩ := Date.convert date
  let yearDiff := months.tdiv 12
  let year := year + yearDiff
  let month : Int := month + (months - yearDiff * 12)
  if month > 12 then Date.fromDate ⟨year + 1, (month - 12).toNat, day⟩
  else if month ≤ 0 then Date.fromDate ⟨year - 1, (month + 12).toNat, day⟩
  else Date.fromDate ⟨year, month.toNat, day⟩

def addDate (date : Int) (interval : Interval) : Option Int := do
  let result ← if interval.months ≠ 0 then addMonths date interval.months else some date
  let result := if interval.days ≠ 0 then wrap 32 (result + interval.days) else result
  return if interval.micros ≠ 0 then wrap 32 (result + interval.micros.tdiv microsPerDay) else result

def addTime (time : Int) (interval : Interval) : Int :=
  let diff := interval.micros - interval.micros.tdiv microsPerDay * microsPerDay
  let time := time + diff
  if time ≥ microsPerDay then time - microsPerDay
  else if time < 0 then time + microsPerDay
  else time

def add (timestamp : Int) (interval : Interval) : Option Int := do
  let (date, time) := convert timestamp
  let newDate ← addDate date interval
  return fromDatetime newDate (addTime time interval)

def subtract (timestamp : Int) (interval : Interval) : Option Int :=
  add timestamp ⟨wrap 32 (-interval.months), wrap 32 (-interval.days), wrap 64 (-interval.micros)⟩

def total (timestamp : Int) (interval : Interval) : Int :=
  timestamp + interval.days * microsPerDay + interval.micros

/-- The time of day before it is brought back into the day. -/
def dayTime (timestamp : Int) (interval : Interval) : Int :=
  timestamp % microsPerDay + interval.micros.tmod microsPerDay

theorem microsPerDay_pos : 0 < microsPerDay := by decide

theorem getDate_eq (timestamp : Int) : getDate timestamp = timestamp / 86400000000 := by
  simp only [getDate]
  split
  · have parts := tmod_spec (timestamp + 1) microsPerDay_pos
    simp only [microsPerDay] at *
    omega
  · have parts := tmod_spec (timestamp + 0) microsPerDay_pos
    simp only [microsPerDay] at *
    omega

theorem wrap_of_fits {bits : Nat} {value : Int} (width : bits = 32 ∨ bits = 64) (fits : Fits bits value) :
    wrap bits value = value := by
  obtain rfl | rfl := width
  all_goals
    simp only [wrap, Fits] at *
    omega

variable {timestamp date time : Int} {interval : Interval}

theorem addTime_eq : addTime time interval = if 86400000000 ≤ time + interval.micros.tmod microsPerDay
      then time + interval.micros.tmod microsPerDay - 86400000000
    else if time + interval.micros.tmod microsPerDay < 0
      then time + interval.micros.tmod microsPerDay + 86400000000
    else time + interval.micros.tmod microsPerDay := by
  have rest : interval.micros - interval.micros.tdiv microsPerDay * microsPerDay =
      interval.micros.tmod microsPerDay := by rw [Int.tmod_def, Int.mul_comm]
  simp only [addTime, rest]
  rfl

section

variable (monthless : interval.months = 0)
include monthless

theorem addDate_eq (first : Fits 32 (date + interval.days))
    (second : Fits 32 (date + interval.days + interval.micros.tdiv microsPerDay)) :
    addDate date interval = some (date + interval.days + interval.micros.tdiv microsPerDay) := by
  have dated : (if interval.days ≠ 0 then wrap 32 (date + interval.days) else date) = date + interval.days := by
    split
    · exact wrap_of_fits (by decide) first
    · omega
  simp only [addDate, if_neg (not_not.mpr monthless), bind_eq_bind, bind_some, dated]
  split
  · exact congrArg some (wrap_of_fits (by decide) second)
  · next none =>
      rw [not_not.mp none, Int.zero_tdiv, add_zero]
      rfl

/-- What the time of day carries is lost. -/
theorem add_eq (first : Fits 32 (timestamp / 86400000000 + interval.days))
    (second : Fits 32 (timestamp / 86400000000 + interval.days + interval.micros.tdiv microsPerDay)) :
    add timestamp interval = some (wrap 64 (total timestamp interval +
      if 86400000000 ≤ dayTime timestamp interval then -86400000000
      else if dayTime timestamp interval < 0 then 86400000000 else 0)) := by
  have parts := (tmod_spec interval.micros microsPerDay_pos).1
  simp only [add, convert, getDate_eq]
  rw [addDate_eq monthless first second, addTime_eq]
  refine congrArg some (congrArg (wrap 64) ?_)
  simp only [total, dayTime, microsPerDay] at *
  split_ifs <;> omega

theorem add_isSome : ∃ sum, add timestamp interval = some sum := by
  simp [add, addDate, monthless]

end

/-- What the sums promise for an interval without months: exact results that can be taken back, and an
error where they do not fit. -/
structure Exact (timestamp date time : Int) (interval : Interval) : Prop where
  added : Fits 64 (total timestamp interval) →
    add timestamp interval = some (total timestamp interval) ∧
    (add timestamp interval).bind (subtract · interval) = some timestamp
  refused : ¬ Fits 64 (total timestamp interval) → add timestamp interval = none
  dated : Fits 32 (date + interval.days) → addDate date ⟨0, interval.days, 0⟩ = some (date + interval.days)
  dateRefused : ¬ Fits 32 (date + interval.days) → addDate date ⟨0, interval.days, 0⟩ = none
  timed : addTime time interval = (time + interval.micros) % microsPerDay

theorem addTime_mod (low : 0 ≤ time) (high : time < 86400000000) :
    addTime time interval = (time + interval.micros) % microsPerDay := by
  obtain ⟨parts, small, large, -⟩ := tmod_spec interval.micros microsPerDay_pos
  rw [addTime_eq]
  simp only [microsPerDay] at *
  split_ifs <;> omega

section

variable (monthless : interval.months = 0) (micros : Fits 64 interval.micros)
  (fits : Fits 64 (total timestamp interval))
include monthless micros fits

theorem add_iff : add timestamp interval = some (total timestamp interval) ↔ 0 ≤ dayTime timestamp interval ∧
    dayTime timestamp interval < microsPerDay := by
  obtain ⟨parts, small, large, -⟩ := tmod_spec interval.micros microsPerDay_pos
  simp only [Fits, total, dayTime, microsPerDay] at *
  rw [add_eq monthless (by simp only [Fits]; omega) (by simp only [Fits, microsPerDay]; omega), some_inj]
  simp only [wrap, total, dayTime, microsPerDay]
  split_ifs <;> omega

/-- The lowest interval is its own opposite, so that its time of day is subtracted twice. -/
theorem subtract_iff (whole : Fits 64 timestamp) (above : 0 ≤ dayTime timestamp interval)
    (below : dayTime timestamp interval < microsPerDay) :
    subtract (total timestamp interval) interval = some timestamp ↔
      (interval.micros = -2 ^ 63 → 28909551616 ≤ timestamp % microsPerDay) := by
  obtain ⟨parts, small, large, signed, unsigned⟩ := tmod_spec interval.micros microsPerDay_pos
  simp only [Fits, total, dayTime, microsPerDay] at *
  have opposite : wrap 32 (-interval.days) = -interval.days := wrap_of_fits (by decide) (by simp only [Fits]; omega)
  have time : (timestamp + interval.days * 86400000000 + interval.micros) % 86400000000 =
      timestamp % 86400000000 + interval.micros.tmod 86400000000 := by omega
  by_cases lowest : interval.micros = -2 ^ 63
  · have negated : wrap 64 (-interval.micros) = interval.micros := by rw [lowest]; rfl
    have rest : interval.micros.tmod 86400000000 = -14454775808 := by rw [lowest]; rfl
    rw [subtract, opposite, negated, add_eq (by rw [monthless]; rfl) (by simp only [Fits]; omega)
      (by simp only [Fits, microsPerDay]; omega), some_inj]
    simp only [total, dayTime, microsPerDay, time, rest]
    simp only [lowest, wrap, forall_true_left]
    split_ifs <;> omega
  · have negated : wrap 64 (-interval.micros) = -interval.micros :=
      wrap_of_fits (by decide) (by simp only [Fits]; omega)
    rw [subtract, opposite, negated, add_eq (by rw [monthless]; rfl) (by simp only [Fits]; omega)
      (by simp only [Fits, microsPerDay, Int.neg_tdiv]; omega)]
    simp only [total, dayTime, microsPerDay, time, Int.neg_tmod, lowest, IsEmpty.forall_iff, iff_true]
    rw [if_neg (by omega), if_neg (by omega)]
    refine congrArg some (Eq.trans (congrArg _ ?_) (wrap_of_fits (by decide) whole))
    omega

end

theorem exact_iff (monthless : interval.months = 0) (whole : Fits 64 timestamp) (low : 0 ≤ time)
    (high : time < microsPerDay) (micros : Fits 64 interval.micros) :
    Exact timestamp date time interval ↔ Fits 64 (total timestamp interval) ∧ Fits 32 (date + interval.days) ∧
      0 ≤ dayTime timestamp interval ∧
      dayTime timestamp interval < microsPerDay ∧
      (interval.micros = -2 ^ 63 → 28909551616 ≤ timestamp % microsPerDay) := by
  constructor
  · intro exact
    have fits : Fits 64 (total timestamp interval) := by
      by_contra outside
      obtain ⟨sum, added⟩ := @add_isSome timestamp interval monthless
      rw [exact.refused outside] at added
      cases added
    have dated : Fits 32 (date + interval.days) := by
      by_contra outside
      have refused := exact.dateRefused outside
      simp [addDate] at refused
    obtain ⟨added, back⟩ := exact.added fits
    obtain ⟨above, below⟩ := (add_iff monthless micros fits).mp added
    rw [added, bind_some, subtract_iff monthless micros fits whole above below] at back
    exact ⟨fits, dated, above, below, back⟩
  · rintro ⟨fits, dated, above, below, lowest⟩
    have added := (add_iff monthless micros fits).mpr ⟨above, below⟩
    have back := (subtract_iff monthless micros fits whole above below).mpr lowest
    refine ⟨fun _ => ⟨added, by rw [added]; exact back⟩, fun outside => absurd fits outside, fun _ => ?_,
      fun outside => absurd dated outside, addTime_mod low high⟩
    have sum := @addDate_eq date ⟨0, interval.days, 0⟩ rfl dated
    rw [Int.zero_tdiv, add_zero] at sum
    exact sum dated

theorem exact_second : Exact 0 0 0 ⟨0, 1, 1⟩ := (exact_iff rfl (by decide) (by decide) (by decide) (by decide)).mpr
    ⟨by decide, by decide, by decide, by decide, by decide⟩

/-- Two hours after eleven in the evening it is one o'clock of the same day, and the day after the last
one is the first. -/
theorem carry_lost : add 82800000000 ⟨0, 0, 7200000000⟩ = some 3600000000 ∧
    addDate (2 ^ 31 - 1) ⟨0, 1, 0⟩ = some (-2 ^ 31) := by
  decide

end GuinsooDB.Timestamp
