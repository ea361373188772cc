import Mathlib.Data.List.Lex
import Mathlib.Data.Set.Insert
import Mathlib.Order.Fin.Basic
import Mathlib.Order.MinMax
import Mathlib.Order.WithBot

/-! Statistics of columns: what they say about a set of values, merging them, and their form on disk. -/

namespace GuinsooDB

open List

inductive StatisticsType
  | bit | numeric | varchar | interval | other

/-- The bytes that statistics keep of a string. -/
abbrev StringPrefix := {bytes : List (Fin 256) // bytes.length = 8}

variable {Number : Type} [LinearOrder Number] {type : StatisticsType}

/-- What statistics hold beside their validity statistics; `⊥` is NULL. -/
inductive StatisticsData (Number : Type) : StatisticsType → Type
  | validity (hasNull : Bool) : StatisticsData Number .bit
  | numeric (min max : WithBot Number) : StatisticsData Number .numeric
  | string (min max : StringPrefix) (hasUnicode : Bool) (maxStringLength : Nat) (hasOverflowStrings : Bool) :
    StatisticsData Number .varchar
  | interval : StatisticsData Number .interval
  | other : StatisticsData Number .other

/-- `validityStats` is the `has_null` of the validity statistics, if there are any. Validity
statistics themselves have none. -/
structure BaseStatistics (Number : Type) (type : StatisticsType) where
  validityStats : Option Bool
  data : StatisticsData Number type
  own : type = .bit → validityStats = none

inductive StatisticsItem (Number : Type)
  | flag (value : Bool)
  | data (bytes : StringPrefix)
  | length (value : Nat)
  | value (value : WithBot Number)

def canHaveNull (validityStats : Option Bool) : Bool := validityStats.getD true

def ValidityStatistics.combine : Option Bool → Option Bool → Option Bool
  | none, none => none
  | none, right => right
  | left, none => left
  | some left, some right => some (left || right)

def stringValueComparison : List (Fin 256) → List (Fin 256) → Int
  | byte :: data, other :: comparison =>
    if byte < other then -1 else if byte > other then 1 else stringValueComparison data comparison
  | _, _ => 0

theorem zero_lt_256 : 0 < 256 := by decide

def constructValue (string : List (Fin 256)) : StringPrefix :=
  ⟨string.take 8 ++ replicate (8 - string.length) ⟨0, zero_lt_256⟩, by
    rw [length_append, length_take, length_replicate]
    omega⟩

def StatisticsData.merge : StatisticsData Number type → StatisticsData Number type → StatisticsData Number type
  | validity hasNull, validity otherNull => validity (hasNull || otherNull)
  | numeric min max, numeric otherMin otherMax =>
    numeric (if otherMin < min then otherMin else min) (if otherMax > max then otherMax else max)
  | string min max unicode length overflow, string otherMin otherMax otherUnicode otherLength otherOverflow =>
    string (if stringValueComparison otherMin min < 0 then otherMin else min)
      (if stringValueComparison otherMax max > 0 then otherMax else max) (unicode || otherUnicode)
      (Max.max length otherLength) (overflow || otherOverflow)
  | interval, interval => interval
  | other, other => other

namespace BaseStatistics

def mergeValidity : Option Bool → Option Bool → Option Bool
  | validityStats, none => validityStats
  | some hasNull, some otherNull => some (hasNull || otherNull)
  | none, some otherNull => some otherNull

def merge (statistics other : BaseStatistics Number type) : BaseStatistics Number type where
  validityStats := mergeValidity statistics.validityStats other.validityStats
  data := statistics.data.merge other.data
  own bit := by rw [statistics.own bit, other.own bit]; rfl

def serialize (statistics : BaseStatistics Number type) : List (StatisticsItem Number) :=
  .flag (canHaveNull statistics.validityStats) ::
    match statistics.data with
    | .validity hasNull => [.flag hasNull]
    | .numeric min max => [.value min, .value max]
    | .string min max unicode length overflow => [.data min, .data max, .flag unicode, .length length, .flag overflow]
    | .interval | .other => []

def deserialize : (type : StatisticsType) → List (StatisticsItem Number) → Option (BaseStatistics Number type)
  | .bit, [.flag _, .flag hasNull] => some ⟨none, .validity hasNull, fun _ => rfl⟩
  | .numeric, [.flag nullable, .value min, .value max] =>
    some ⟨if nullable then none else some nullable, .numeric min max, nofun⟩
  | .varchar, [.flag nullable, .data min, .data max, .flag unicode, .length length, .flag overflow] =>
    some ⟨if nullable then none else some nullable, .string min max unicode length overflow, nofun⟩
  | .interval, [.flag nullable] => some ⟨if nullable then none else some nullable, .interval, nofun⟩
  | _, _ => none

end BaseStatistics

/-! The values that statistics allow -/

inductive StatisticsValue (Number : Type)
  | null
  | number (value : Number)
  | string (bytes : List (Fin 256))
  | other

-- Which strings count as unicode, and which are written to overflow blocks.
variable (unicode overflow : List (Fin 256) → Bool)

def StatisticsData.Allows : StatisticsData Number type → StatisticsValue Number → Prop
  | validity hasNull, .null => hasNull = true
  | numeric min max, .number value => min ≤ value ∧ (max = ⊥ ∨ ↑value ≤ max)
  | string min max hasUnicode maxLength hasOverflow, .string bytes =>
    (min ≤ constructValue bytes ∧ constructValue bytes ≤ max) ∧ (unicode bytes = true → hasUnicode = true) ∧
      bytes.length ≤ maxLength ∧ (overflow bytes = true → hasOverflow = true)
  | validity _, .other | interval, .other | other, .other => True
  | numeric _ _, .null | string _ _ _ _ _, .null | interval, .null | other, .null => True
  | _, _ => False

namespace BaseStatistics

def Bounds (statistics : BaseStatistics Number type) (values : Set (StatisticsValue Number)) : Prop :=
  ∀ value ∈ values, (value = .null → canHaveNull statistics.validityStats = true) ∧
    statistics.data.Allows unicode overflow value

/-- The merged statistics and the combined validity bound all that either of them bounds, and what is read
back bounds what was written. -/
def UpperBound (first second : BaseStatistics Number type) : Prop :=
  ∀ values others, first.Bounds unicode overflow values → second.Bounds unicode overflow others →
    (first.merge second).Bounds unicode overflow (values ∪ others) ∧
    (.null ∈ values ∪ others →
      canHaveNull (ValidityStatistics.combine first.validityStats second.validityStats) = true) ∧
    ∃ restored, deserialize type first.serialize = some restored ∧ restored.Bounds unicode overflow values

end BaseStatistics

/-- An unknown maximum is below all values, so the other one has to bound what it allows. -/
def StatisticsData.Comparable : StatisticsData Number type → StatisticsData Number type → Prop
  | numeric min max, numeric otherMin otherMax =>
    (max = ⊥ → otherMax ≠ ⊥ → ∀ value : Number, min ≤ value → ↑value ≤ otherMax) ∧
    (otherMax = ⊥ → max ≠ ⊥ → ∀ value : Number, otherMin ≤ value → ↑value ≤ max)
  | other, other => False
  | _, _ => True

def KnownAlike (validityStats other : Option Bool) : Prop :=
  ¬(validityStats = none ∧ other = some false) ∧ ¬(validityStats = some false ∧ other = none)

/-! Merging -/

theorem stringValueComparison_lt {data comparison : List (Fin 256)} (lengths : data.length = comparison.length) :
    (stringValueComparison data comparison < 0 ↔ data < comparison) ∧
    (stringValueComparison data comparison > 0 ↔ comparison < data) := by
  induction data generalizing comparison with
  | nil =>
    cases comparison with
    | nil => simp [stringValueComparison]
    | cons other comparison => cases lengths
  | cons byte data ih =>
    cases comparison with
    | nil => cases lengths
    | cons other comparison =>
      have rest := ih (Nat.succ.inj lengths)
      rw [stringValueComparison, cons_lt_cons_iff, cons_lt_cons_iff]
      rcases lt_trichotomy byte other with less | same | greater
      · simp [less, less.ne', less.not_gt]
      · simp [same, rest]
      · simp [greater, greater.ne', greater.not_gt]

variable {unicode overflow}

section

variable {Bound : Type} [LinearOrder Bound] {first second : Bound} {replaced : Prop} [Decidable replaced]

theorem smaller_le (less : replaced ↔ second < first) :
    (if replaced then second else first) ≤ first ∧ (if replaced then second else first) ≤ second := by
  split
  next taken => exact ⟨(less.mp taken).le, le_rfl⟩
  next kept => exact ⟨le_rfl, not_lt.mp (kept ∘ less.mpr)⟩

theorem le_larger (less : replaced ↔ first < second) :
    first ≤ (if replaced then second else first) ∧ second ≤ (if replaced then second else first) :=
  @smaller_le Boundᵒᵈ _ first second replaced _ less

end

theorem StatisticsData.allows_merge {data otherData : StatisticsData Number type} {value : StatisticsValue Number}
    (comparable : data.Comparable otherData)
    (allowed : data.Allows unicode overflow value ∨ otherData.Allows unicode overflow value) :
    (data.merge otherData).Allows unicode overflow value := by
  cases data with
  | validity hasNull =>
    cases otherData
    cases value <;> simp_all [Allows, merge]
  | numeric min max =>
    cases otherData with | numeric otherMin otherMax =>
    cases value with
    | number value =>
      obtain ⟨low, otherLow⟩ := smaller_le (Iff.refl (otherMin < min))
      obtain ⟨high, otherHigh⟩ := le_larger (Iff.refl (max < otherMax))
      have unknown : max = ⊥ → otherMax = ⊥ → (if otherMax > max then otherMax else max) = ⊥ := by
        rintro rfl rfl
        exact if_neg (lt_irrefl _)
      rcases allowed with ⟨above, none | below⟩ | ⟨above, none | below⟩
      · refine ⟨low.trans above, (em (otherMax = ⊥)).imp (unknown none) fun known => ?_⟩
        exact (comparable.1 none known value above).trans otherHigh
      · exact ⟨low.trans above, .inr (below.trans high)⟩
      · refine ⟨otherLow.trans above, (em (max = ⊥)).imp (unknown · none) fun known => ?_⟩
        exact (comparable.2 none known value above).trans high
      · exact ⟨otherLow.trans above, .inr (below.trans otherHigh)⟩
    | _ => simp_all [Allows, merge]
  | string min max hasUnicode maxLength hasOverflow =>
    cases otherData with | string otherMin otherMax otherUnicode otherLength otherOverflow =>
    cases value with
    | string bytes =>
      obtain ⟨low, otherLow⟩ := @smaller_le _ _ min _ _ _ (stringValueComparison_lt (otherMin.2.trans min.2.symm)).1
      obtain ⟨high, otherHigh⟩ := @le_larger _ _ max _ _ _ (stringValueComparison_lt (otherMax.2.trans max.2.symm)).2
      simp only [merge, Allows, Bool.or_eq_true, le_max_iff]
      rcases allowed with ⟨⟨above, below⟩, inUnicode, short, long⟩ | ⟨⟨above, below⟩, inUnicode, short, long⟩
      · exact ⟨⟨low.trans above, below.trans high⟩, .inl ∘ inUnicode, .inl short, .inl ∘ long⟩
      · exact ⟨⟨otherLow.trans above, below.trans otherHigh⟩, .inr ∘ inUnicode, .inr short, .inr ∘ long⟩
    | _ => simp_all [Allows, merge]
  | interval =>
    cases otherData
    cases value <;> simp_all [Allows, merge]
  | other =>
    cases otherData
    cases comparable

namespace BaseStatistics

theorem canHaveNull_merge {validityStats other : Option Bool} (alike : KnownAlike validityStats other)
    (nullable : canHaveNull validityStats = true ∨ canHaveNull other = true) :
    canHaveNull (mergeValidity validityStats other) = true ∧
      canHaveNull (ValidityStatistics.combine validityStats other) = true := by
  rcases validityStats with _ | _ | _ <;> rcases other with _ | _ | _ <;>
    simp_all [KnownAlike, canHaveNull, mergeValidity, ValidityStatistics.combine]

theorem deserialize_serialize {statistics : BaseStatistics Number type} {values : Set (StatisticsValue Number)}
    (known : type ≠ .other) (bounds : statistics.Bounds unicode overflow values) :
    ∃ restored, deserialize type statistics.serialize = some restored ∧ restored.Bounds unicode overflow values := by
  have validity : canHaveNull (if canHaveNull statistics.validityStats then none else
      some (canHaveNull statistics.validityStats)) = canHaveNull statistics.validityStats := by
    split
    next nullable => rw [nullable, canHaveNull, Option.getD_none]
    next => rfl
  obtain ⟨validityStats, data, own⟩ := statistics
  cases data with
  | other => exact absurd rfl known
  | validity hasNull => exact ⟨_, rfl, own rfl ▸ bounds⟩
  | _ =>
    refine ⟨_, rfl, fun value inside => ⟨fun null => ?_, (bounds value inside).2⟩⟩
    exact validity.trans ((bounds value inside).1 null)

theorem bounds_null {statistics : BaseStatistics Number type} (unknown : statistics.validityStats = none)
    (column : type ≠ .bit) : statistics.Bounds unicode overflow {.null} := by
  rintro _ rfl
  refine ⟨fun _ => by rw [unknown]; rfl, ?_⟩
  cases statistics with | mk _ data _ =>
  cases data with
  | validity _ => exact absurd rfl column
  | _ => trivial

/-- Merging is an upper bound unless one validity is unknown and the other one is known to have no NULL, or one
maximum is unknown and the other one does not bound what its statistics allow. -/
theorem upperBound_iff {first second : BaseStatistics Number type} : first.UpperBound unicode overflow second ↔
    KnownAlike first.validityStats second.validityStats ∧ first.data.Comparable second.data := by
  constructor
  · intro upper
    have left (value) (bounds : first.Bounds unicode overflow {value}) := upper {value} ∅ bounds nofun
    have right (value) (bounds : second.Bounds unicode overflow {value}) := upper ∅ {value} nofun bounds
    refine ⟨⟨?_, ?_⟩, ?_⟩
    · rintro ⟨unknown, valid⟩
      have combined := (left .null (bounds_null unknown fun bit => by simp [second.own bit] at valid)).2.1 (.inl rfl)
      simp [unknown, valid, canHaveNull, ValidityStatistics.combine] at combined
    · rintro ⟨valid, unknown⟩
      have combined := (right .null (bounds_null unknown fun bit => by simp [first.own bit] at valid)).2.1 (.inr rfl)
      simp [unknown, valid, canHaveNull, ValidityStatistics.combine] at combined
    obtain ⟨validityStats, data, own⟩ := first
    obtain ⟨otherStats, otherData, otherOwn⟩ := second
    cases data with
    | numeric min max =>
      cases otherData with | numeric otherMin otherMax =>
      constructor
      · rintro rfl known value above
        have allowed := ((left (.number value) ?_).1 _ (.inl rfl)).2.2
        · rw [if_pos (bot_lt_iff_ne_bot.mpr known)] at allowed
          exact allowed.resolve_left known
        · rintro _ rfl
          exact ⟨nofun, above, .inl rfl⟩
      · rintro rfl known value above
        have allowed := ((right (.number value) ?_).1 _ (.inr rfl)).2.2
        · rw [if_neg not_lt_bot] at allowed
          exact allowed.resolve_left known
        · rintro _ rfl
          exact ⟨nofun, above, .inl rfl⟩
    | other =>
      obtain ⟨_, restored, _⟩ := (upper ∅ ∅ nofun nofun).2.2
      cases restored
    | _ =>
      cases otherData
      trivial
  · rintro ⟨alike, comparable⟩ values others bounds otherBounds
    have nullable : .null ∈ values ∪ others →
        canHaveNull first.validityStats = true ∨ canHaveNull second.validityStats = true := by
      rintro (inside | inside)
      · exact .inl ((bounds _ inside).1 rfl)
      · exact .inr ((otherBounds _ inside).1 rfl)
    refine ⟨fun value inside => ⟨?_, StatisticsData.allows_merge comparable ?_⟩, ?_, ?_⟩
    · rintro rfl
      exact (canHaveNull_merge alike (nullable inside)).1
    · exact inside.imp (fun inside => (bounds value inside).2) fun inside => (otherBounds value inside).2
    · exact fun inside => (canHaveNull_merge alike (nullable inside)).2
    · refine deserialize_serialize ?_ bounds
      rintro rfl
      cases first with | mk _ data _ =>
      cases second with | mk _ otherData _ =>
      cases data
      cases otherData
      cases comparable

/-- Merged with statistics without NULLs, unknown validity is lost. -/
theorem merge_unknown_not_upperBound : ¬(⟨none, .interval, nofun⟩ : BaseStatistics Nat .interval).UpperBound
    (fun _ => false) (fun _ => false) ⟨some false, .interval, nofun⟩ := by
  intro upper
  cases ((upper _ ∅ (bounds_null rfl nofun) nofun).1 .null (.inl rfl)).1 rfl

end BaseStatistics

end GuinsooDB
