import GuinsooDB.Optimizer.MoveConstants

/-!
# Casts between integers

A hugeint whose upper word is -1 is compared with the maximum of the target alone, so that an
unsigned target takes negative numbers.
-/

namespace GuinsooDB.IntegerType

open Option

def digits (type : IntegerType) : Nat :=
  if type.isSigned then type.bits - 1 else type.bits

def maximum (type : IntegerType) : Int :=
  2 ^ type.digits - 1

def lowest (type : IntegerType) : Int :=
  if type.isSigned then -2 ^ type.digits else 0

/-- `NumericLimits::Minimum`, for hugeints one above the lowest in both words. -/
def minimum (type : IntegerType) : Int :=
  if type = .hugeint then (-2 ^ 63 + 1) * 2 ^ 64 + 1
  else if type.isSigned then type.lowest + 1 else type.lowest

def convert (type : IntegerType) (value : Int) : Int :=
  if type.isSigned then value.bmod (2 ^ type.bits) else value % 2 ^ type.bits

def tryCastWithOverflowCheck (source target : IntegerType) (value : Int) : Option Int :=
  if source.isSigned ≠ target.isSigned then
    if source.isSigned then
      if source.digits > target.digits then
        if value < 0 ∨ value > source.convert target.maximum then none
        else some (target.convert value)
      else if value < 0 ∨ target.convert value > target.maximum then none
      else some (target.convert value)
    else if source.digits > target.digits then
      if value ≤ source.convert target.maximum then some (target.convert value) else none
    else if target.convert value ≤ target.maximum then some (target.convert value)
    else none
  else if value < target.minimum ∨ value > target.maximum then none
  else some (target.convert value)

def hugeintTryCastInteger (target : IntegerType) (value : Int) : Option Int :=
  if value / 2 ^ 64 = 0 then
    if value % 2 ^ 64 ≤ target.maximum then some (target.convert (value % 2 ^ 64)) else none
  else if value / 2 ^ 64 = -1 then
    if value % 2 ^ 64 > 2 ^ 64 - 1 - target.maximum then
      some (target.convert (-target.convert (2 ^ 64 - 1 - value % 2 ^ 64 + 1)))
    else none
  else none

def hugeintConvertInteger (value : Int) : Int :=
  (if value < 0 then -1 else 0) * 2 ^ 64 + value % 2 ^ 64

/-- `TryCast::Operation`, which only checks where the target lacks a number of the source. -/
def tryCast (source target : IntegerType) (value : Int) : Option Int :=
  if source = .hugeint then
    if target = .hugeint then some value else target.hugeintTryCastInteger value
  else if target = .hugeint then some (hugeintConvertInteger value)
  else if source.digits ≤ target.digits ∧ (target.isSigned ∨ ¬ source.isSigned) then
    some (target.convert value)
  else source.tryCastWithOverflowCheck target value

abbrev InLimits (type : IntegerType) (value : Int) : Prop :=
  type.minimum ≤ value ∧ value ≤ type.maximum

/-- The limits of the source lie within those of the target. -/
abbrev Within (source target : IntegerType) : Prop :=
  target.minimum ≤ source.minimum ∧ source.maximum ≤ target.maximum

/-- The cast succeeds exactly within the limits of the target, and with the same number; cast to
a wider type and back, the number is itself again. -/
def Faithful (source target : IntegerType) (value : Int) : Prop :=
  (∀ result, source.tryCast target value = some result ↔
    target.InLimits value ∧ result = value) ∧
  (source.Within target →
    (source.tryCast target value).bind (target.tryCast source) = some value)

variable {source target : IntegerType} {value : Int}

theorem lowest_le_minimum : source.lowest ≤ source.minimum := by
  cases source <;> decide

theorem maximum_pos : 0 < source.maximum := by
  cases source <;> decide

theorem minimum_of_unsigned (unsigned : target.isSigned = false) : target.minimum = 0 := by
  cases target <;> first | rfl | exact nomatch unsigned

theorem tryCast_eq (above : source.lowest ≤ value) (below : value ≤ source.maximum) :
    source.tryCast target value = if source = target ∨ target.InLimits value then some value
      else if source = .hugeint ∧ target.isSigned = false ∧ -target.maximum ≤ value ∧ value < 0
      then some (value + target.maximum + 1)
      else none := by
  cases source <;> cases target <;>
    simp [tryCast, tryCastWithOverflowCheck, hugeintTryCastInteger, hugeintConvertInteger,
      InLimits, minimum, maximum, lowest, convert, digits, isSigned, bits, Int.bmod_def] at * <;>
    grind

theorem tryCast_of_inLimits (inSource : source.InLimits value) (inTarget : target.InLimits value) :
    source.tryCast target value = some value := by
  rw [tryCast_eq (lowest_le_minimum.trans inSource.1) inSource.2, if_pos (.inr inTarget)]

theorem faithful_iff (above : source.lowest ≤ value) (below : value ≤ source.maximum) :
    Faithful source target value ↔
      ¬ (source.Within target ∧ value < source.minimum) ∧
      ¬ (source = .hugeint ∧ target.isSigned = false ∧ -target.maximum ≤ value ∧ value < 0) := by
  have cast := @tryCast_eq source target value above below
  constructor
  · rintro ⟨exactly, back⟩
    constructor
    · rintro ⟨within, low⟩
      obtain ⟨middle, there, again⟩ := bind_eq_some_iff.mp (back within)
      obtain ⟨inTarget, rfl⟩ := (exactly middle).mp there
      rw [tryCast_eq (lowest_le_minimum.trans inTarget.1) inTarget.2] at again
      have outside : ¬ source.InLimits middle := fun inSource => low.not_ge inSource.1
      have other : target ≠ source := by
        rintro rfl
        exact outside inTarget
      rw [if_neg (by simp [other, outside])] at again
      split at again
      · have positive := @maximum_pos source
        have same := some.inj again
        omega
      · cases again
    · rintro ⟨rfl, unsigned, negative⟩
      have outside : ¬ target.InLimits value := fun inTarget =>
        negative.2.not_ge (minimum_of_unsigned unsigned ▸ inTarget.1)
      have other : hugeint ≠ target := by
        rintro rfl
        cases unsigned
      rw [if_neg (by simp [other, outside]), if_pos ⟨rfl, unsigned, negative⟩] at cast
      exact outside ((exactly _).mp cast).1
  · rintro ⟨notLow, notNegative⟩
    have inSource (within : source.Within target) : source.InLimits value :=
      ⟨not_lt.mp fun low => notLow ⟨within, low⟩, below⟩
    have inTarget (within : source.Within target) : target.InLimits value :=
      ⟨within.1.trans (inSource within).1, below.trans within.2⟩
    refine ⟨fun result => ?_, fun within => ?_⟩
    · rw [cast, if_neg notNegative]
      have same (equal : source = target) : target.InLimits value :=
        inTarget (equal ▸ ⟨le_rfl, le_rfl⟩)
      grind
    · rw [tryCast_of_inLimits (inSource within) (inTarget within)]
      exact tryCast_of_inLimits (inTarget within) (inSource within)

/-- A signed number of 32 bits in 8 bits. -/
theorem faithful_tinyint : Faithful .integer .tinyint (-127) :=
  (faithful_iff (by decide) (by decide)).mpr (by decide)

theorem unfaithful_utinyint :
    tryCast .hugeint .utinyint (-1) = some 255 ∧ ¬ Faithful .hugeint .utinyint (-1) := by
  refine ⟨by decide, fun faithful => ?_⟩
  exact absurd ((faithful.1 255).mp (by decide)).2 (by decide)

end GuinsooDB.IntegerType
