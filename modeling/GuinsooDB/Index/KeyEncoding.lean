import Mathlib.Data.List.Lex
import GuinsooDB.Index.TableIndex

/-!
The byte keys of index columns and of compound indexes, and what must hold of them for a radix
tree: different rows have different keys, no key continues another one, and the order of the keys
is the order of the rows.
-/

namespace GuinsooDB

open List

/-! Keys in which a byte decides -/

/-- At the first byte in which the keys differ, the first one is less. -/
inductive DecidedBefore : List Byte → List Byte → Prop
  | here {first second : Byte} {key other : List Byte} (less : first < second) :
    DecidedBefore (first :: key) (second :: other)
  | later {byte : Byte} {key other : List Byte} (decided : DecidedBefore key other) :
    DecidedBefore (byte :: key) (byte :: other)

namespace Key

/-- The loop of the comparison operators, with what they return at a difference, and at the end
for the lengths. -/
def compareLoop (atByte : Byte → Byte → Bool) (atEnd : Nat → Nat → Bool) :
    List Byte → List Byte → Bool
  | byte :: key, other :: rest =>
    if byte = other then compareLoop atByte atEnd key rest else atByte byte other
  | key, rest => atEnd key.length rest.length

def greater : List Byte → List Byte → Bool :=
  compareLoop (fun first second => first > second) fun length other => length > other

def less : List Byte → List Byte → Bool :=
  compareLoop (fun first second => first < second) fun length other => length < other

def greaterEqual : List Byte → List Byte → Bool :=
  compareLoop (fun first second => first > second) fun length other => length ≥ other

end Key

namespace DecidedBefore

variable {key other : List Byte}

variable (decided : DecidedBefore key other)
include decided

theorem append (rest otherRest : List Byte) : DecidedBefore (key ++ rest) (other ++ otherRest) := by
  induction decided with
  | here less => exact .here less
  | later _ ih => exact .later ih

theorem append_left (shared : List Byte) : DecidedBefore (shared ++ key) (shared ++ other) := by
  induction shared with
  | nil => exact decided
  | cons byte rest ih => exact .later ih

theorem not_isPrefix : ¬key <+: other ∧ ¬other <+: key := by
  induction decided with
  | here less => simp [cons_prefix_cons, less.ne, less.ne']
  | later _ ih => simpa [cons_prefix_cons] using ih

theorem compareLoop (atByte : Byte → Byte → Bool) (atEnd : Nat → Nat → Bool) :
    ∃ first second, first < second ∧ Key.compareLoop atByte atEnd key other = atByte first second ∧
      Key.compareLoop atByte atEnd other key = atByte second first := by
  induction decided with
  | here less => exact ⟨_, _, less, by simp [Key.compareLoop, less.ne, less.ne']⟩
  | later _ ih => simpa [Key.compareLoop] using ih

theorem less : Key.less key other = true ∧ Key.less other key = false := by
  obtain ⟨first, second, before, forth, back⟩ := decided.compareLoop (· < ·) (· < ·)
  exact ⟨forth.trans (decide_eq_true before), back.trans (decide_eq_false before.asymm)⟩

theorem greater : Key.greater key other = false ∧ Key.greater other key = true := by
  obtain ⟨first, second, before, forth, back⟩ := decided.compareLoop (· > ·) (· > ·)
  exact ⟨forth.trans (decide_eq_false before.asymm), back.trans (decide_eq_true before)⟩

theorem greaterEqual : Key.greaterEqual key other = false ∧ Key.greaterEqual other key = true := by
  obtain ⟨first, second, before, forth, back⟩ := decided.compareLoop (· > ·) (· ≥ ·)
  exact ⟨forth.trans (decide_eq_false before.asymm), back.trans (decide_eq_true before)⟩

theorem ne : key ≠ other := by
  rintro rfl
  exact decided.not_isPrefix.1 (prefix_refl _)

theorem asymm : ¬DecidedBefore other key := by
  intro back
  exact Bool.false_ne_true (back.less.2.symm.trans decided.less.1)

end DecidedBefore

theorem Key.compareLoop_self (atByte : Byte → Byte → Bool) (atEnd : Nat → Nat → Bool)
    (key : List Byte) : compareLoop atByte atEnd key key = atEnd 0 0 := by
  induction key with
  | nil => rfl
  | cons byte rest ih => simpa [compareLoop] using ih

inductive IntWidth where
  | one | two | four | eight
  deriving Repr, DecidableEq

def IntWidth.bytes : IntWidth → Nat
  | one => 1
  | two => 2
  | four => 4
  | eight => 8

inductive KeyType where
  | bool
  | signed (width : IntWidth)
  | unsigned (width : IntWidth)
  | hugeint
  | varchar
  deriving Repr, DecidableEq

abbrev KeyType.Value : KeyType → Type
  | .bool => Bool
  | .signed width | .unsigned width => BitVec (8 * width.bytes)
  | .hugeint => BitVec 64 × BitVec 64
  | .varchar => List Byte

def littleEndianBytes : Nat → Nat → List Byte
  | 0, _ => []
  | count + 1, number => byteOf number :: littleEndianBytes count (number / 256)

variable (isLittleEndian : Bool)

def storeWord (count number : Nat) : List Byte :=
  if isLittleEndian then littleEndianBytes count number
  else (littleEndianBytes count number).reverse

def ofLittleEndian : List Byte → Nat
  | [] => 0
  | byte :: rest => byte.val + 256 * ofLittleEndian rest

def byteSwap (count number : Nat) : Nat := ofLittleEndian (littleEndianBytes count number).reverse

def flipSign (byte : Byte) : Byte := byteOf (byte.val ^^^ 128)

def encodeUnsigned (count number : Nat) : List Byte :=
  storeWord isLittleEndian count (if isLittleEndian then byteSwap count number else number)

def encodeSigned (count number : Nat) : List Byte :=
  (encodeUnsigned isLittleEndian count number).modifyHead flipSign

def KeyType.createKey : (type : KeyType) → type.Value → List Byte
  | .bool, value => [byteOf value.toNat]
  | .signed width, value => encodeSigned isLittleEndian width.bytes value.toNat
  | .unsigned width, value => encodeUnsigned isLittleEndian width.bytes value.toNat
  | .hugeint, (upper, lower) =>
    encodeSigned isLittleEndian 8 upper.toNat ++ encodeUnsigned isLittleEndian 8 lower.toNat
  | .varchar, bytes => bytes ++ [byteOf 0]

def KeyType.Less : (type : KeyType) → type.Value → type.Value → Prop
  | .bool, value, other => value < other
  | .signed _, value, other => value.toInt < other.toInt
  | .unsigned _, value, other => value.toNat < other.toNat
  | .hugeint, (upper, lower), (otherUpper, otherLower) =>
    upper.toInt < otherUpper.toInt ∨ upper = otherUpper ∧ lower.toNat < otherLower.toNat
  | .varchar, bytes, other => bytes < other

def KeyType.Uses (allowed : Byte → Prop) : (type : KeyType) → type.Value → Prop
  | .varchar, bytes => ∀ byte ∈ bytes, allowed byte
  | .bool, _ | .signed _, _ | .unsigned _, _ | .hugeint, _ => True

def Row : List KeyType → Type
  | [] => Unit
  | type :: types => type.Value × Row types

def NullableRow : List KeyType → Type
  | [] => Unit
  | type :: types => Option type.Value × NullableRow types

def concatenateKeys (isLittleEndian : Bool) :
    (types : List KeyType) → NullableRow types → Option (List Byte) → Option (List Byte)
  | [], _, key => key
  | type :: types, (value, rest), key =>
    concatenateKeys isLittleEndian types rest
      (match value, key with
      | some value, some key => some (key ++ type.createKey isLittleEndian value)
      | _, _ => none)

/-- `ART::GenerateKeys` for one row. There is always a first column. -/
def generateKeys : (types : List KeyType) → NullableRow types → Except String (Option (List Byte))
  | [], _ => .ok none
  | type :: types, (value, rest) =>
    if .hugeint ∈ type :: types then .error "Invalid type for index"
    else .ok (concatenateKeys isLittleEndian types rest (value.map (type.createKey isLittleEndian)))

namespace Row

def nullable : {types : List KeyType} → Row types → NullableRow types
  | [], _ => ()
  | _ :: _, (value, rest) => (some value, nullable rest)

def key (isLittleEndian : Bool) : {types : List KeyType} → Row types → List Byte
  | [], _ => []
  | type :: _, (value, rest) => type.createKey isLittleEndian value ++ key isLittleEndian rest

def Less : {types : List KeyType} → Row types → Row types → Prop
  | [], _, _ => False
  | type :: _, (value, rest), (other, otherRest) =>
    type.Less value other ∨ value = other ∧ Less rest otherRest

def Uses (allowed : Byte → Prop) : {types : List KeyType} → Row types → Prop
  | [], _ => True
  | type :: _, (value, rest) => type.Uses allowed value ∧ Uses allowed rest

/-- What the index needs of the keys of two rows. -/
structure WellKeyed (isLittleEndian : Bool) {types : List KeyType} (row other : Row types) : Prop where
  injective : row.key isLittleEndian = other.key isLittleEndian ↔ row = other
  prefixFree : row.key isLittleEndian <+: other.key isLittleEndian →
    row.key isLittleEndian = other.key isLittleEndian
  less : Key.less (row.key isLittleEndian) (other.key isLittleEndian) = true ↔ row.Less other
  greater : Key.greater (row.key isLittleEndian) (other.key isLittleEndian) = true ↔ other.Less row
  greaterEqual : Key.greaterEqual (row.key isLittleEndian) (other.key isLittleEndian) = true ↔
    ¬row.Less other

end Row

variable {types : List KeyType} {isLittleEndian : Bool}

theorem concatenateKeys_nullable (row : Row types) (key : List Byte) :
    concatenateKeys isLittleEndian types row.nullable (some key) = some (key ++ row.key isLittleEndian) := by
  induction types generalizing key with
  | nil => simp [concatenateKeys, Row.key]
  | cons type types ih =>
    obtain ⟨value, rest⟩ := row
    simp [concatenateKeys, Row.nullable, Row.key, ih]

theorem generateKeys_nullable {type : KeyType} (row : Row (type :: types)) (supported : .hugeint ∉ type :: types) :
    generateKeys isLittleEndian (type :: types) row.nullable = .ok (some (row.key isLittleEndian)) := by
  obtain ⟨value, rest⟩ := row
  simp only [generateKeys, Row.nullable, if_neg supported]
  exact congrArg Except.ok (concatenateKeys_nullable rest _)

/-! The bytes of numbers -/

theorem littleEndianBytes_succ (count number : Nat) : littleEndianBytes (count + 1) number =
    byteOf number :: littleEndianBytes count (number / 256) := rfl

theorem littleEndianBytes_length (count number : Nat) : (littleEndianBytes count number).length = count := by
  induction count generalizing number with
  | zero => rfl
  | succ count ih => simp [littleEndianBytes, ih]

theorem littleEndianBytes_ofLittleEndian (bytes : List Byte) :
    littleEndianBytes bytes.length (ofLittleEndian bytes) = bytes := by
  induction bytes with
  | nil => rfl
  | cons byte rest ih =>
    have first : byteOf (byte.val + 256 * ofLittleEndian rest) = byte := by
      apply Fin.ext
      simp only [byteOf]
      omega
    have others : (byte.val + 256 * ofLittleEndian rest) / 256 = ofLittleEndian rest := by omega
    simp [littleEndianBytes, ofLittleEndian, first, others, ih]

/-- On machines of both kinds the most significant byte comes first. -/
theorem encodeUnsigned_eq (isLittleEndian : Bool) (count number : Nat) :
    encodeUnsigned isLittleEndian count number = (littleEndianBytes count number).reverse := by
  cases isLittleEndian with
  | false => rfl
  | true =>
    have swapped := littleEndianBytes_ofLittleEndian (littleEndianBytes count number).reverse
    rwa [length_reverse, littleEndianBytes_length] at swapped

theorem decidedBefore_of_lt {count number other : Nat} (less : number < other)
    (fits : other < 256 ^ count) : DecidedBefore (littleEndianBytes count number).reverse
      (littleEndianBytes count other).reverse := by
  induction count generalizing number other with
  | zero =>
    omega
  | succ count ih =>
    simp only [littleEndianBytes, reverse_cons]
    rcases lt_or_ge (number / 256) (other / 256) with high | high
    · exact (ih high (by omega)).append _ _
    have same : number / 256 = other / 256 := by omega
    rw [same]
    refine DecidedBefore.append_left (.here ?_) _
    show number % 256 < other % 256
    omega

theorem flipSign_val (byte : Byte) : (flipSign byte).val = (byte.val + 128) % 256 := by
  revert byte
  decide +kernel

/-- Flipping the sign moves the negative numbers before the other ones. -/
theorem flipped_eq (count number : Nat) : (littleEndianBytes (count + 1) number).reverse.modifyHead flipSign =
      (littleEndianBytes (count + 1) ((number + 128 * 256 ^ count) % 256 ^ (count + 1))).reverse := by
  induction count generalizing number with
  | zero =>
    have flipped : flipSign (byteOf number) = byteOf ((number + 128) % 256) := by
      apply Fin.ext
      simp [flipSign_val, byteOf]
    simpa [littleEndianBytes] using flipped
  | succ count ih =>
    have low : byteOf ((number + 128 * 256 ^ (count + 1)) % 256 ^ (count + 1 + 1)) = byteOf number := by
      apply Fin.ext
      simp only [byteOf]
      rw [Nat.pow_succ 256 (count + 1), Nat.mod_mul_left_mod, Nat.pow_succ]
      omega
    have high : (number + 128 * 256 ^ (count + 1)) % 256 ^ (count + 1 + 1) / 256 =
        (number / 256 + 128 * 256 ^ count) % 256 ^ (count + 1) := by
      rw [pow_succ 256 (count + 1), mul_comm (256 ^ (count + 1)) 256,
        Nat.mod_mul_right_div_self, Nat.pow_succ 256 count]
      congr 1
      omega
    have head := ih (number / 256)
    rw [littleEndianBytes_succ _ number, littleEndianBytes_succ _ (_ % _), low, high,
      reverse_cons, reverse_cons, ← head]
    have nonempty : (littleEndianBytes (count + 1) (number / 256)).reverse ≠ [] := by
      simp [littleEndianBytes]
    obtain ⟨first, rest, same⟩ := exists_cons_of_ne_nil nonempty
    simp [same]

variable {isLittleEndian : Bool}

theorem encodeSigned_decided {count : Nat} {number other : Nat}
    (less : (number + 128 * 256 ^ count) % 256 ^ (count + 1) < (other + 128 * 256 ^ count) % 256 ^ (count + 1)) :
    DecidedBefore (encodeSigned isLittleEndian (count + 1) number) (encodeSigned isLittleEndian (count + 1) other) := by
  rw [encodeSigned, encodeSigned, encodeUnsigned_eq, encodeUnsigned_eq, flipped_eq, flipped_eq]
  exact decidedBefore_of_lt less (Nat.mod_lt _ (Nat.pow_pos (by decide)))

theorem encodeSigned_bitVec (width : IntWidth)
    {value other : BitVec (8 * width.bytes)} (less : value.toInt < other.toInt) :
    DecidedBefore (encodeSigned isLittleEndian width.bytes value.toNat)
      (encodeSigned isLittleEndian width.bytes other.toNat) := by
  rw [BitVec.toInt_eq_toNat_cond, BitVec.toInt_eq_toNat_cond] at less
  cases width with
  | one => exact encodeSigned_decided (by simp only [IntWidth.bytes] at *; omega)
  | two => exact encodeSigned_decided (by simp only [IntWidth.bytes] at *; omega)
  | four => exact encodeSigned_decided (by simp only [IntWidth.bytes] at *; omega)
  | eight => exact encodeSigned_decided (by simp only [IntWidth.bytes] at *; omega)

theorem encodeUnsigned_bitVec (width : IntWidth)
    {value other : BitVec (8 * width.bytes)} (less : value.toNat < other.toNat) :
    DecidedBefore (encodeUnsigned isLittleEndian width.bytes value.toNat)
      (encodeUnsigned isLittleEndian width.bytes other.toNat) := by
  rw [encodeUnsigned_eq, encodeUnsigned_eq]
  refine decidedBefore_of_lt less (Nat.lt_of_lt_of_eq other.isLt ?_)
  rw [Nat.pow_mul]

/-! Columns and rows -/

theorem varchar_decided {bytes other : List Byte} (less : bytes < other) (nonzero : ∀ byte ∈ other, byte ≠ byteOf 0) :
    DecidedBefore (bytes ++ [byteOf 0]) (other ++ [byteOf 0]) := by
  induction bytes generalizing other with
  | nil =>
    cases other with
    | nil => exact absurd less (not_lt_nil _)
    | cons byte rest =>
      have positive := nonzero byte mem_cons_self
      refine .here ?_
      exact Fin.pos_iff_ne_zero.mpr positive
  | cons byte rest ih =>
    cases other with
    | nil => exact absurd less (not_lt_nil _)
    | cons first others =>
      rcases cons_lt_cons_iff.mp less with here | ⟨rfl, later⟩
      · exact .here here
      · exact .later (ih later fun other inside => nonzero other (mem_cons_of_mem _ inside))

namespace KeyType

theorem createKey_decided (type : KeyType) {value other : type.Value}
    (less : type.Less value other) (nonzero : type.Uses (· ≠ byteOf 0) other) :
    DecidedBefore (type.createKey isLittleEndian value) (type.createKey isLittleEndian other) := by
  cases type with
  | bool =>
    obtain ⟨rfl, rfl⟩ := Bool.lt_iff.mp less
    exact .here (by decide)
  | signed width => exact encodeSigned_bitVec width less
  | unsigned width => exact encodeUnsigned_bitVec width less
  | hugeint =>
    obtain ⟨upper, lower⟩ := value
    rcases less with high | ⟨rfl, low⟩
    · exact (encodeSigned_bitVec .eight high).append _ _
    · exact (encodeUnsigned_bitVec .eight low).append_left _
  | varchar => exact varchar_decided less nonzero

theorem trichotomy (type : KeyType) (value other : type.Value) :
    type.Less value other ∨ value = other ∨ type.Less other value := by
  cases type with
  | bool => cases value <;> cases other <;> simp [Less]
  | signed width =>
    exact (Int.lt_trichotomy value.toInt other.toInt).imp_right (.imp_left BitVec.eq_of_toInt_eq)
  | unsigned width =>
    exact (lt_trichotomy value.toNat other.toNat).imp_right (.imp_left BitVec.eq_of_toNat_eq)
  | hugeint =>
    obtain ⟨upper, lower⟩ := value
    obtain ⟨otherUpper, otherLower⟩ := other
    rcases Int.lt_trichotomy upper.toInt otherUpper.toInt with less | same | greater
    · exact .inl (.inl less)
    · obtain rfl := BitVec.eq_of_toInt_eq same
      rcases lt_trichotomy lower.toNat otherLower.toNat with less | same | greater
      · exact .inl (.inr ⟨rfl, less⟩)
      · exact .inr (.inl (congrArg (Prod.mk upper) (BitVec.eq_of_toNat_eq same)))
      · exact .inr (.inr (.inr ⟨rfl, greater⟩))
    · exact .inr (.inr (.inl greater))
  | varchar => exact lt_trichotomy (α := List Byte) value other

end KeyType

namespace Row

variable {types : List KeyType} {isLittleEndian : Bool}

variable {row other : Row types}

theorem key_decided (less : row.Less other) (nonzero : other.Uses (· ≠ byteOf 0)) :
    DecidedBefore (row.key isLittleEndian) (other.key isLittleEndian) := by
  induction types with
  | nil => exact absurd less id
  | cons type types ih =>
    obtain ⟨value, rest⟩ := row
    rcases less with here | ⟨rfl, later⟩
    · exact (type.createKey_decided here nonzero.1).append _ _
    · exact (ih later nonzero.2).append_left _

theorem trichotomy (row other : Row types) : row.Less other ∨ row = other ∨ other.Less row := by
  induction types with
  | nil => exact .inr (.inl rfl)
  | cons type types ih =>
    obtain ⟨value, rest⟩ := row
    obtain ⟨otherValue, otherRest⟩ := other
    rcases type.trichotomy value otherValue with less | rfl | greater
    · exact .inl (.inl less)
    · rcases ih rest otherRest with less | rfl | greater
      · exact .inl (.inr ⟨rfl, less⟩)
      · exact .inr (.inl rfl)
      · exact .inr (.inr (.inr ⟨rfl, greater⟩))
    · exact .inr (.inr (.inl greater))

theorem less_iff (isLittleEndian : Bool) (nonzero : row.Uses (· ≠ byteOf 0))
    (otherNonzero : other.Uses (· ≠ byteOf 0)) :
    row.Less other ↔ DecidedBefore (row.key isLittleEndian) (other.key isLittleEndian) := by
  refine ⟨fun less => key_decided less otherNonzero, fun decided => ?_⟩
  rcases row.trichotomy other with less | rfl | greater
  · exact less
  · exact absurd rfl decided.ne
  · exact absurd (key_decided greater nonzero) decided.asymm

theorem wellKeyed (nonzero : row.Uses (· ≠ byteOf 0)) (otherNonzero : other.Uses (· ≠ byteOf 0)) :
    WellKeyed isLittleEndian row other := by
  have forth := less_iff isLittleEndian nonzero otherNonzero
  have back := less_iff isLittleEndian otherNonzero nonzero
  rcases row.trichotomy other with less | rfl | greater
  · have decided := forth.mp less
    have notSame : row ≠ other := fun same => decided.ne (by rw [same])
    exact ⟨by simp [decided.ne, notSame], fun part => absurd part decided.not_isPrefix.1,
      by simp [less, decided.less.1], by simp [back, decided.asymm, decided.greater.1],
      by simp [less, decided.greaterEqual.1]⟩
  · have irrefl : ¬DecidedBefore (row.key isLittleEndian) (row.key isLittleEndian) := fun decided => decided.ne rfl
    refine ⟨by simp, fun _ => rfl, ?_, ?_, ?_⟩
    · simp [forth, irrefl, Key.less, Key.compareLoop_self]
    · simp [forth, irrefl, Key.greater, Key.compareLoop_self]
    · simp [forth, irrefl, Key.greaterEqual, Key.compareLoop_self]
  · have decided := back.mp greater
    have notSame : row ≠ other := fun same => decided.ne (by rw [same])
    exact ⟨by simp [decided.ne.symm, notSame], fun part => absurd part decided.not_isPrefix.2,
      by simp [forth, decided.asymm, decided.less.2], by simp [greater, decided.greater.2],
      by simp [forth, decided.asymm, decided.greaterEqual.2]⟩

theorem Uses.nonzero {allowed : Byte → Prop} (uses : row.Uses allowed)
    (harmless : allowed (byteOf 0) → .varchar ∉ types) : row.Uses (· ≠ byteOf 0) := by
  induction types with
  | nil => trivial
  | cons type types ih =>
    refine ⟨?_, ih uses.2 fun allows => fun inside => harmless allows (mem_cons_of_mem _ inside)⟩
    cases type with
    | varchar =>
      rintro byte inside rfl
      exact harmless (uses.1 _ inside) mem_cons_self
    | _ => trivial

end Row

/-! A string that ends in a zero byte -/

def KeyType.least : (type : KeyType) → type.Value
  | .bool => false
  | .signed _ => BitVec.intMin _
  | .unsigned _ => 0
  | .hugeint => (BitVec.intMin 64, 0)
  | .varchar => []

theorem KeyType.createKey_least (type : KeyType) :
    ∃ count, type.createKey isLittleEndian type.least = List.replicate count (byteOf 0) := by
  cases type with
  | bool => exact ⟨1, rfl⟩
  | signed width =>
    refine ⟨width.bytes, ?_⟩
    cases width <;> cases isLittleEndian <;> decide
  | unsigned width =>
    refine ⟨width.bytes, ?_⟩
    cases width <;> cases isLittleEndian <;> decide
  | hugeint =>
    refine ⟨16, ?_⟩
    cases isLittleEndian <;> decide
  | varchar => exact ⟨1, rfl⟩

namespace Row

def least : (types : List KeyType) → Row types
  | [] => ()
  | type :: types => (type.least, least types)

def lengthened : (types : List KeyType) → Row types
  | [] => ()
  | .varchar :: types => ([byteOf 0], least types)
  | .bool :: types => (KeyType.bool.least, lengthened types)
  | .signed width :: types => ((KeyType.signed width).least, lengthened types)
  | .unsigned width :: types => ((KeyType.unsigned width).least, lengthened types)
  | .hugeint :: types => (KeyType.hugeint.least, lengthened types)

theorem key_lengthened : ∃ count, (least types).key isLittleEndian = List.replicate count (byteOf 0) ∧
      (.varchar ∈ types → (lengthened types).key isLittleEndian = List.replicate (count + 1) (byteOf 0)) := by
  induction types with
  | nil => exact ⟨0, rfl, fun inside => absurd inside not_mem_nil⟩
  | cons type types ih =>
    obtain ⟨count, small, large⟩ := ih
    obtain ⟨width, first⟩ := type.createKey_least
    refine ⟨width + count, ?_, fun inside => ?_⟩
    · rw [least, key, first, small, replicate_append_replicate]
    cases type with
    | varchar =>
      have lengths := congrArg length first
      have isOne : 1 = width := by simpa [KeyType.createKey, KeyType.least] using lengths
      rw [← isOne, add_comm 1 count]
      simp [lengthened, key, small, KeyType.createKey, replicate_succ]
    | _ =>
      have later : .varchar ∈ types := by simpa using inside
      rw [lengthened, key, first, large later, replicate_append_replicate, add_assoc]

theorem uses_least {allowed : Byte → Prop} (allows : allowed (byteOf 0)) :
    (least types).Uses allowed ∧ (lengthened types).Uses allowed := by
  induction types with
  | nil => exact ⟨trivial, trivial⟩
  | cons type types ih =>
    cases type with
    | varchar =>
      refine ⟨⟨fun byte inside => absurd inside not_mem_nil, ih.1⟩, ⟨fun byte inside => ?_, ih.1⟩⟩
      rwa [mem_singleton.mp inside]
    | _ => exact ⟨⟨trivial, ih.1⟩, ⟨trivial, ih.2⟩⟩

/-- The keys of the rows of an index are right for all strings of some bytes if and only if there
are no strings or no zero bytes in them. -/
theorem wellKeyed_iff (isLittleEndian : Bool) (types : List KeyType) (allowed : Byte → Prop) :
    (∀ row other : Row types, row.Uses allowed → other.Uses allowed →
      WellKeyed isLittleEndian row other) ↔ (allowed (byteOf 0) → .varchar ∉ types) := by
  constructor
  · intro sound allows inside
    obtain ⟨count, small, large⟩ := key_lengthened
    obtain ⟨leastUses, longUses⟩ := uses_least allows
    have same := (sound _ _ leastUses longUses).prefixFree (by
      rw [small, large inside, replicate_succ']
      exact prefix_append _ _)
    rw [small, large inside] at same
    simpa using congrArg length same
  · intro harmless row other uses otherUses
    exact wellKeyed (uses.nonzero harmless) (otherUses.nonzero harmless)

def zeroInFirst : Row [.varchar, .varchar] :=
  ([byteOf 97, byteOf 0, byteOf 98], [byteOf 99], ())

def zeroInSecond : Row [.varchar, .varchar] :=
  ([byteOf 97], [byteOf 98, byteOf 0, byteOf 99], ())

/-- Two rows of a compound index have the same key. -/
theorem not_wellKeyed : ¬WellKeyed true zeroInFirst zeroInSecond := by
  intro sound
  have same := sound.injective.mp (by decide)
  exact absurd (congrArg (fun row : Row [.varchar, .varchar] => row.1) same) (by decide)

end Row

end GuinsooDB
