import Mathlib.Data.List.Basic
import Mathlib.Data.Nat.Bitwise

/-!
Values as the hash tables store them. NULL has no bit of its own there: each physical type
has one value that stands for it.
-/

namespace GuinsooDB

open List

inductive PhysicalType where
  | bool
  | int8
  | int16
  | int32
  | int64
  | uint8
  | uint16
  | uint32
  | uint64
  | int128
  | varchar
  deriving Repr, DecidableEq

/-- Dates and times are integers. VARCHAR and BLOB are strings of bytes. -/
inductive Datum where
  | number (value : Int)
  | bytes (data : List UInt8)
  deriving Repr, DecidableEq

instance : Inhabited Datum := ⟨.number 0⟩

/-- A cell of a vector; `none` is NULL. -/
abbrev Cell := Option Datum

def nullValue : PhysicalType → Datum
  | .bool => .number (-128)
  | .int8 => .number (-128)
  | .int16 => .number (-32768)
  | .int32 => .number (-2147483648)
  | .int64 => .number (-9223372036854775808)
  | .uint8 => .number 0
  | .uint16 => .number 0
  | .uint32 => .number 0
  | .uint64 => .number 0
  | .int128 => .number (-170141183460469231731687303715884105728)
  | .varchar => .bytes [128]

def isNullValue (type : PhysicalType) (value : Datum) : Bool :=
  match type, value with
  | .varchar, .bytes data => data.head? == some 128
  | _, _ => value == nullValue type

def store (type : PhysicalType) (cell : Cell) : Datum := cell.getD (nullValue type)

def gather (type : PhysicalType) (value : Datum) : Cell :=
  if isNullValue type value then none else some value

def compareStored (type : PhysicalType) (cell : Cell) (value : Datum) : Bool :=
  match cell with
  | none => isNullValue type value
  | some given => given == value

def Unambiguous (type : PhysicalType) (cell : Cell) : Prop :=
  ∀ value, cell = some value → isNullValue type value = false

instance (type : PhysicalType) (cell : Cell) : Decidable (Unambiguous type cell) :=
  match cell with
  | none => isTrue fun _ same => nomatch same
  | some value => decidable_of_iff (isNullValue type value = false)
      ⟨fun plain _ same => Option.some.inj same ▸ plain, fun clear => clear value rfl⟩

theorem isNullValue_nullValue (type : PhysicalType) : isNullValue type (nullValue type) = true := by
  cases type <;> rfl

variable {type : PhysicalType} {cell : Cell}

theorem gather_store (clear : Unambiguous type cell) : gather type (store type cell) = cell := by
  cases cell with
  | none => simp [gather, store, isNullValue_nullValue]
  | some value => simp [gather, store, clear value rfl]

theorem gather_unambiguous {type : PhysicalType} {value : Datum} : Unambiguous type (gather type value) := by
  intro given same
  unfold gather at same
  split at same
  · cases same
  next plain =>
    cases same
    simpa using plain

theorem compareStored_store {other : Cell} (clear : Unambiguous type cell) (otherClear : Unambiguous type other) :
    compareStored type cell (store type other) = true ↔ cell = other := by
  cases cell with
  | none =>
    cases other with
    | none => simp [compareStored, store, isNullValue_nullValue]
    | some value => simp [compareStored, store, otherClear value rfl]
  | some given =>
    cases other with
    | none =>
      have apart : given ≠ nullValue type := by
        intro same
        have plain := clear given rfl
        rw [same, isNullValue_nullValue] at plain
        cases plain
      simp [compareStored, store, apart]
    | some value => simp [compareStored, store]

/-! Keys of several columns -/

abbrev Key := List Cell

def storeKey (types : List PhysicalType) (key : Key) : List Datum := zipWith store types key

def gatherKey (types : List PhysicalType) (values : List Datum) : Key :=
  zipWith gather types values

def UnambiguousKey (types : List PhysicalType) (key : Key) : Prop :=
  List.Forall₂ Unambiguous types key

instance (types : List PhysicalType) (key : Key) : Decidable (UnambiguousKey types key) :=
  inferInstanceAs (Decidable (List.Forall₂ Unambiguous types key))

def compareKey : List PhysicalType → Key → List Datum → Bool
  | type :: types, cell :: key, value :: values =>
    compareStored type cell value && compareKey types key values
  | _, _, _ => true

variable {types : List PhysicalType} {key : Key}

theorem gatherKey_storeKey (clear : UnambiguousKey types key) : gatherKey types (storeKey types key) = key := by
  induction clear with
  | nil => rfl
  | @cons type cell rest cells first _ ih =>
    change gather type (store type cell) :: gatherKey rest (storeKey rest cells) = _
    rw [gather_store first, ih]

theorem compareKey_storeKey {other : Key} (clear : UnambiguousKey types key) (otherClear : UnambiguousKey types other) :
    compareKey types key (storeKey types other) = true ↔ key = other := by
  induction clear generalizing other with
  | nil =>
    cases otherClear
    simp [compareKey]
  | @cons type cell rest cells first _ ih =>
    cases otherClear with
    | @cons _ otherCell _ otherCells otherFirst otherLater =>
      change (compareStored type cell (store type otherCell) &&
        compareKey rest cells (storeKey rest otherCells)) = true ↔ _
      rw [Bool.and_eq_true, compareStored_store first otherFirst, ih otherLater, cons.injEq]

theorem gatherKey_unambiguous {values : List Datum} (columns : (gatherKey types values).length = types.length) :
    UnambiguousKey types (gatherKey types values) := by
  induction types generalizing values with
  | nil => exact List.Forall₂.nil
  | cons type rest ih =>
    cases values with
    | nil => cases columns
    | cons value values =>
      exact List.Forall₂.cons (gather_unambiguous) (ih (Nat.succ.inj columns))

def combineHashScalar (first second : Nat) : Nat :=
  first * 13787848793156543929 % 18446744073709551616 ^^^ second

def hashStored (hash : PhysicalType → Datum → Nat) (types : List PhysicalType)
    (values : List Datum) : Nat :=
  match zipWith hash types values with
  | [] => 0
  | first :: rest => rest.foldl combineHashScalar first

def hashKey (hash : PhysicalType → Datum → Nat) (types : List PhysicalType) (key : Key) : Nat :=
  hashStored hash types (storeKey types key)

end GuinsooDB
