import GuinsooDB.Library.Extents
import GuinsooDB.Transaction.Manager

/-!
The segments of a column and the tree that finds them by row. Of the contents of a segment
only what decides how many rows fit is kept: the rows it holds, the vectors it may hold, and
for strings how far the dictionary at the end of the block has grown.
-/

namespace GuinsooDB

/-! `SegmentTree::GetSegmentIndex` -/

namespace SegmentTree

variable {α : Type*} (start count : α → Nat)

/-- The loop of the binary search. It has no result when it throws, when `index - 1` wraps
below zero and when it reads past the end of the nodes. -/
def searchLoop (nodes : List α) (rowNumber : Nat) : Nat → Nat → Nat → Option Nat
  | 0, _, _ => none
  | fuel + 1, lower, upper =>
    if lower ≤ upper then
      let index := (lower + upper) / 2
      match nodes[index]? with
      | none => none
      | some entry =>
        if rowNumber < start entry then
          if index = 0 then none else searchLoop nodes rowNumber fuel lower (index - 1)
        else if start entry + count entry ≤ rowNumber then
          searchLoop nodes rowNumber fuel (index + 1) upper
        else some index
    else none

def getSegmentIndex (nodes : List α) (rowNumber : Nat) : Option Nat :=
  if nodes = [] then none
  else searchLoop start count nodes rowNumber (nodes.length + 1) 0 (nodes.length - 1)

end SegmentTree

/-! Uncompressed segments -/

def blockSize : Nat := 262136
def idxRange : Nat := 18446744073709551616

def stringBlockLimit : Nat := 4096
def bigStringMarkerBaseSize : Nat := 12
def bigStringMarkerSize : Nat := 14

inductive NumericWidth where
  | one
  | two
  | four
  | eight
  | sixteen
  deriving Repr, DecidableEq

def NumericWidth.bytes : NumericWidth → Nat
  | one => 1
  | two => 2
  | four => 4
  | eight => 8
  | sixteen => 16

inductive ColumnKind where
  | numeric (width : NumericWidth)
  | string
  | validity
  deriving Repr, DecidableEq

namespace ColumnKind

def vectorSize : ColumnKind → Nat
  | numeric width => width.bytes * standardVectorSize
  | string => standardVectorSize * 4
  | validity => 128

def initialVectorCount : ColumnKind → Nat
  | string => 1
  | kind => min (blockSize / kind.vectorSize) 80

end ColumnKind

inductive ColumnSegmentType where
  | persistent
  | transient
  deriving Repr, DecidableEq

/-- A column segment with its uncompressed segment. Both count the same rows. -/
structure ColumnSegment where
  segmentType : ColumnSegmentType
  start : Nat
  count : Nat
  maxVectorCount : Nat
  dictionaryOffset : Nat
  deriving Repr, DecidableEq

/-- A value to append: nothing for NULL, and the length where it is a string. -/
abbrev Appended := Option Nat

def vectorsFor (count : Nat) : Nat :=
  count / standardVectorSize + (if count % standardVectorSize = 0 then 0 else 1)

namespace ColumnSegment

variable (segment : ColumnSegment) (kind : ColumnKind)

def transient (start : Nat) : ColumnSegment where
  segmentType := .transient
  start := start
  count := 0
  maxVectorCount := kind.initialVectorCount
  dictionaryOffset := 8

def persistent (start count dictionaryOffset : Nat) : ColumnSegment where
  segmentType := .persistent
  start := start
  count := count
  maxVectorCount := if kind = .string then vectorsFor count else kind.initialVectorCount
  dictionaryOffset := dictionaryOffset

def toTransient (segment : ColumnSegment) : ColumnSegment :=
  { segment with
    segmentType := .transient
    maxVectorCount := if kind = .string then
        (segment.count + (standardVectorSize - 1)) / standardVectorSize
      else segment.maxVectorCount }

def appendCount (tupleCount count : Nat) : Nat :=
  let vectorIndex := tupleCount / standardVectorSize
  let currentTupleCount := tupleCount - vectorIndex * standardVectorSize
  min (standardVectorSize - currentTupleCount) count

def appendVectors (maxVectorCount : Nat) : Nat → Nat → Nat → Nat
  | 0, tupleCount, _ => tupleCount
  | fuel + 1, tupleCount, count =>
    if count = 0 then tupleCount
    else if tupleCount / standardVectorSize = maxVectorCount then tupleCount
    else appendVectors maxVectorCount fuel (tupleCount + appendCount tupleCount count)
      (count - appendCount tupleCount count)

/-- `RemainingSpace`, in the unsigned arithmetic of the source. Rows that are reverted do not
give their dictionary space back, so that the used space can exceed the block. -/
def remainingSpace : Nat :=
  let usedSpace := segment.dictionaryOffset + segment.maxVectorCount * ColumnKind.string.vectorSize
  (blockSize + idxRange - usedSpace % idxRange) % idxRange

def writeString (remainingStrings stringLength : Nat) : ColumnSegment :=
  let totalLength := stringLength + 2
  if totalLength > bigStringMarkerBaseSize ∧ (totalLength ≥ stringBlockLimit ∨
      totalLength + remainingStrings * bigStringMarkerSize > segment.remainingSpace) then
    { segment with dictionaryOffset := segment.dictionaryOffset + bigStringMarkerSize }
  else { segment with dictionaryOffset := segment.dictionaryOffset + totalLength }

def writeStrings : ColumnSegment → Nat → List Appended → ColumnSegment
  | segment, _, [] => segment
  | segment, remainingStrings, none :: rest => writeStrings segment (remainingStrings - 1) rest
  | segment, remainingStrings, some length :: rest =>
    writeStrings (segment.writeString remainingStrings length) (remainingStrings - 1) rest

def fillVector (values : List Appended) : ColumnSegment :=
  let expanded :=
    if segment.count / standardVectorSize = segment.maxVectorCount then
      { segment with maxVectorCount := segment.maxVectorCount + 1 }
    else segment
  let copied := appendCount segment.count values.length
  let remainingStrings := standardVectorSize - segment.count % standardVectorSize
  { expanded.writeStrings remainingStrings (values.take copied) with
    count := segment.count + copied }

/-- The loop of `StringSegment::Append`. A further vector is added while there is room for
32 bytes per string. -/
def appendStrings : Nat → ColumnSegment → List Appended → ColumnSegment
  | 0, segment, _ => segment
  | fuel + 1, segment, values =>
    if values = [] then segment
    else if segment.count / standardVectorSize = segment.maxVectorCount ∧
        ¬segment.remainingSpace ≥ standardVectorSize * 32 then segment
    else appendStrings fuel (segment.fillVector values)
      (values.drop (appendCount segment.count values.length))

/-- `Append` of the three kinds of segments. The number of rows that were copied is by how
much the segment has grown. -/
def append (segment : ColumnSegment) (values : List Appended) : ColumnSegment :=
  match kind with
  | .numeric _ =>
    { segment with
      count := appendVectors segment.maxVectorCount values.length segment.count values.length }
  | .string => segment.appendStrings values.length values
  | .validity =>
    { segment with
      count := segment.count + min values.length
        (segment.maxVectorCount * standardVectorSize - segment.count) }

end ColumnSegment

/-! What an append does to a segment -/

namespace ColumnSegment

structure Fits (segment : ColumnSegment) : Prop where
  positive : 0 < segment.maxVectorCount
  room : segment.count ≤ segment.maxVectorCount * standardVectorSize

theorem initialVectorCount_pos {kind : ColumnKind} : 0 < kind.initialVectorCount := by
  cases kind with
  | numeric width => cases width <;> decide
  | string => decide
  | validity => decide

theorem transient_fits (kind : ColumnKind) (start : Nat) : (transient kind start).Fits :=
  ⟨initialVectorCount_pos, Nat.zero_le _⟩

theorem le_vectorsFor (count : Nat) : count ≤ vectorsFor count * standardVectorSize := by
  unfold vectorsFor standardVectorSize
  split <;> omega

theorem vectorsFor_lt (count : Nat) : vectorsFor count * standardVectorSize < count + standardVectorSize := by
  unfold vectorsFor standardVectorSize
  split <;> omega

variable {count : Nat}

theorem vectorsFor_pos (nonempty : 0 < count) : 0 < vectorsFor count := by
  have := le_vectorsFor count
  by_contra none
  rw [Nat.eq_zero_of_not_pos none] at this
  omega

theorem vectorsFor_eq (count : Nat) : (count + (standardVectorSize - 1)) / standardVectorSize = vectorsFor count := by
  unfold vectorsFor standardVectorSize
  split <;> omega

structure Filled (segment appended : ColumnSegment) (values : Nat) : Prop where
  start : appended.start = segment.start
  segmentType : appended.segmentType = segment.segmentType
  fits : appended.Fits
  grows : segment.count ≤ appended.count
  bound : appended.count ≤ segment.count + values
  full : appended.count < segment.count + values →
    appended.count = appended.maxVectorCount * standardVectorSize

theorem appendCount_pos (tupleCount : Nat) (positive : 0 < count) : 0 < appendCount tupleCount count := by
  unfold appendCount standardVectorSize
  dsimp only
  omega

theorem appendCount_le (tupleCount count : Nat) : appendCount tupleCount count ≤ count := min_le_right _ _

variable {vectors tupleCount : Nat}

theorem appendCount_room (count : Nat) (room : tupleCount / standardVectorSize < vectors) :
    tupleCount + appendCount tupleCount count ≤ vectors * standardVectorSize := by
  unfold appendCount standardVectorSize at *
  dsimp only
  omega

theorem full_of_div_eq (room : tupleCount ≤ vectors * standardVectorSize)
    (full : tupleCount / standardVectorSize = vectors) :
    tupleCount = vectors * standardVectorSize := by
  unfold standardVectorSize at *
  omega

theorem div_lt_of_not_full (room : tupleCount ≤ vectors * standardVectorSize)
    (notFull : tupleCount / standardVectorSize ≠ vectors) :
    tupleCount / standardVectorSize < vectors := by
  unfold standardVectorSize at *
  omega

theorem appendVectors_eq {maxVectorCount fuel : Nat}
    (room : tupleCount ≤ maxVectorCount * standardVectorSize) (enough : count ≤ fuel) :
    appendVectors maxVectorCount fuel tupleCount count =
      min (tupleCount + count) (maxVectorCount * standardVectorSize) := by
  induction fuel generalizing tupleCount count with
  | zero =>
    rw [appendVectors]
    omega
  | succ fuel ih =>
    rw [appendVectors]
    split
    · omega
    next nonempty =>
      split
      · next full =>
          have := full_of_div_eq room full
          omega
      next notFull =>
        have within := appendCount_room count (div_lt_of_not_full room notFull)
        have some := appendCount_pos tupleCount (Nat.pos_of_ne_zero nonempty)
        have atMost := appendCount_le tupleCount count
        rw [ih within (by omega)]
        omega

variable {segment : ColumnSegment} {values : Nat}

theorem Filled.of_count (fits : segment.Fits) :
    Filled segment { segment with
      count := min (segment.count + values) (segment.maxVectorCount * standardVectorSize) }
      values := by
  have room := fits.room
  refine ⟨rfl, rfl, ⟨fits.positive, min_le_right _ _⟩, ?_, min_le_left _ _, ?_⟩
  · change segment.count ≤ min _ _
    omega
  · intro less
    change min _ _ < _ at less
    change min _ _ = segment.maxVectorCount * standardVectorSize
    omega

theorem Filled.refl (fits : segment.Fits) : Filled segment segment 0 :=
  ⟨rfl, rfl, fits, le_refl _, le_refl _, fun less => absurd less (lt_irrefl _)⟩

variable {appended : ColumnSegment}

theorem Filled.trans {between : ColumnSegment} {first second : Nat}
    (earlier : Filled segment between first) (later : Filled between appended second)
    (whole : between.count = segment.count + first) : Filled segment appended (first + second) := by
  have grows := later.grows
  have bound := later.bound
  have full := later.full
  exact ⟨later.start.trans earlier.start, later.segmentType.trans earlier.segmentType, later.fits,
    by omega, by omega, fun less => full (by omega)⟩

theorem writeString_same (segment : ColumnSegment) (stringLength : Nat) {remainingStrings : Nat} :
    ∃ offset, segment.writeString remainingStrings stringLength = { segment with dictionaryOffset := offset } := by
  unfold writeString
  dsimp only
  split
  · exact ⟨_, rfl⟩
  · exact ⟨_, rfl⟩

theorem writeStrings_same (segment : ColumnSegment) (remainingStrings : Nat)
    {values : List Appended} : ∃ offset, segment.writeStrings remainingStrings values =
      { segment with dictionaryOffset := offset } := by
  induction values generalizing segment remainingStrings with
  | nil => exact ⟨segment.dictionaryOffset, rfl⟩
  | cons value rest ih =>
    cases value with
    | none => exact ih segment _
    | some length =>
      obtain ⟨offset, written⟩ := writeString_same segment length
      obtain ⟨last, later⟩ := ih (segment.writeString remainingStrings length) (remainingStrings - 1)
      rw [writeStrings, later, written]
      exact ⟨last, rfl⟩

theorem fillVector_filled (fits : segment.Fits) (values : List Appended) :
    Filled segment (segment.fillVector values) (appendCount segment.count values.length) ∧
      (segment.fillVector values).count = segment.count + appendCount segment.count values.length := by
  refine ⟨?_, rfl⟩
  rw [fillVector]
  split
  · next full =>
      obtain ⟨offset, written⟩ := writeStrings_same { segment with maxVectorCount := segment.maxVectorCount + 1 }
        (standardVectorSize - segment.count % standardVectorSize)

      rw [written]
      exact ⟨rfl, rfl, ⟨Nat.succ_pos _, appendCount_room _ (Nat.lt_succ_of_le (le_of_eq full))⟩,
        Nat.le_add_right _ _, le_refl _, fun less => absurd less (lt_irrefl _)⟩
  · next notFull =>
      obtain ⟨offset, written⟩ := writeStrings_same segment (standardVectorSize - segment.count % standardVectorSize)

      rw [written]
      exact ⟨rfl, rfl, ⟨fits.positive, appendCount_room _ (div_lt_of_not_full fits.room notFull)⟩,
        Nat.le_add_right _ _, le_refl _, fun less => absurd less (lt_irrefl _)⟩

theorem appendStrings_filled {values : List Appended} {fuel : Nat} (fits : segment.Fits)
    (enough : values.length ≤ fuel) :
    Filled segment (segment.appendStrings fuel values) values.length := by
  induction fuel generalizing segment values with
  | zero =>
    rw [Nat.le_zero.mp enough]
    exact Filled.refl fits
  | succ fuel ih =>
    rw [appendStrings]
    split
    · next empty =>
        rw [empty]
        exact Filled.refl fits
    next nonempty =>
      split
      · next stuck =>
          exact ⟨rfl, rfl, fits, le_refl _, Nat.le_add_right _ _, fun _ => full_of_div_eq fits.room stuck.1⟩
      have some := appendCount_pos segment.count (List.length_pos_iff.mpr nonempty)
      have atMost := appendCount_le segment.count values.length
      obtain ⟨filled, count⟩ := fillVector_filled fits values
      have shorter : (values.drop (appendCount segment.count values.length)).length ≤ fuel := by
        rw [List.length_drop]
        omega
      have rest := ih filled.fits shorter
      have together := filled.trans rest count
      rw [List.length_drop, Nat.add_sub_cancel' atMost] at together
      exact together

theorem append_filled (kind : ColumnKind) (fits : segment.Fits) (values : List Appended) :
    Filled segment (segment.append kind values) values.length := by
  cases kind with
  | numeric width =>
    rw [append, appendVectors_eq fits.room (le_refl _)]
    exact Filled.of_count fits
  | string => exact appendStrings_filled fits (le_refl _)
  | validity =>
    have room := fits.room
    have capped : segment.count + min values.length (segment.maxVectorCount * standardVectorSize - segment.count) =
          min (segment.count + values.length) (segment.maxVectorCount * standardVectorSize) := by
      omega
    rw [append, capped]
    exact Filled.of_count fits

theorem Filled.whole (filled : Filled segment appended values) (less : appended.count < segment.count + values) :
    standardVectorSize ∣ appended.count ∧ 0 < appended.count := by
  rw [filled.full less]
  exact ⟨Nat.dvd_mul_left _ _, Nat.mul_pos filled.fits.positive (by decide)⟩

end ColumnSegment

/-! The search finds the segment of a row -/

namespace SegmentTree

open Extents

variable {α : Type*} {start count : α → Nat} {nodes : List α} {rowNumber target : Nat} {entry : α}

variable (contiguous : Contiguous start count 0 nodes)
include contiguous

section

variable (found : nodes[target]? = some entry) (holds : Holds start count entry rowNumber)
include found holds

theorem searchLoop_eq {fuel lower upper : Nat} (above : lower ≤ target) (below : target ≤ upper)
    (inside : upper < nodes.length) (enough : upper < lower + fuel) :
    searchLoop start count nodes rowNumber fuel lower upper = some target := by
  induction fuel generalizing lower upper with
  | zero => omega
  | succ fuel ih =>
    obtain ⟨node, here⟩ : ∃ node, nodes[(lower + upper) / 2]? = some node :=
      ⟨_, List.getElem?_eq_getElem (show (lower + upper) / 2 < nodes.length by omega)⟩
    rw [searchLoop, if_pos (by omega)]
    dsimp only
    rw [here]
    dsimp only
    split
    · next less =>
        have earlier := lt_of_row_lt_start contiguous here found holds less
        rw [if_neg (by omega)]
        exact ih above (by omega) (by omega) (by omega)
    next notLess =>
      split
      · next more =>
          have later := lt_of_end_le_row contiguous here found holds more
          exact ih (by omega) below inside (by omega)
      · next notMore =>
          have holdsHere : Holds start count node rowNumber := ⟨by omega, by omega⟩
          rw [holds_unique contiguous here found holdsHere holds]

theorem getSegmentIndex_eq : getSegmentIndex start count nodes rowNumber = some target := by
  obtain ⟨bound, -⟩ := List.getElem?_eq_some_iff.mp found
  have nonempty : nodes ≠ [] := List.ne_nil_of_length_pos (by omega)
  rw [getSegmentIndex, if_neg nonempty]
  exact searchLoop_eq contiguous found holds (Nat.zero_le _) (by omega) (by omega) (by omega)

end

theorem getSegmentIndex_exists (inside : rowNumber < stop count 0 nodes) :
    ∃ front entry later, nodes = front ++ entry :: later ∧ Holds start count entry rowNumber ∧
      getSegmentIndex start count nodes rowNumber = some front.length := by
  obtain ⟨front, entry, later, split, holds⟩ := exists_holds contiguous (Nat.zero_le rowNumber) inside
  refine ⟨front, entry, later, split, holds, ?_⟩
  refine getSegmentIndex_eq contiguous ?_ holds
  rw [split, List.getElem?_append_right (le_refl _), Nat.sub_self]
  rfl

end SegmentTree

end GuinsooDB
