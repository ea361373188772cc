import GuinsooDB.Storage.ColumnScan

/-!
The values and the validity bits that appends write into the segments of a column, and what a
scan and a fetch of a row read. The cell of a row is the slot of its segment at the distance
of the row from the start of the segment; so cells are named by row.
-/

namespace GuinsooDB

open Extents Transition List ColumnSegment ColumnData Option

/-- The part of an appended vector that goes into one segment: the first row it is written to,
its first position in the vector, and how many rows it has. -/
structure AppendPiece where
  row : Nat
  offset : Nat
  count : Nat
  deriving Repr, DecidableEq

def appendPieces (kind : ColumnKind) :
    Nat → ColumnSegment → Nat → List Appended → List AppendPiece
  | 0, _, _, _ => []
  | fuel + 1, current, offset, values =>
    let appended := current.append kind values
    let copiedElements := appended.count - current.count
    { row := current.start + current.count, offset, count := copiedElements } ::
      if copiedElements = values.length then []
      else appendPieces kind fuel (.transient kind (appended.start + appended.count))
        (offset + copiedElements) (values.drop copiedElements)

def writePiece {C : Type} (source : Nat → Option C) (piece : AppendPiece) (cells : Nat → C) :
    Nat → C := fun row =>
  if piece.row ≤ row ∧ row < piece.row + piece.count then
    (source (row - piece.row)).getD (cells row)
  else cells row

def writePieces {C : Type} (source : AppendPiece → Nat → Option C) :
    List AppendPiece → (Nat → C) → Nat → C
  | [], cells => cells
  | piece :: rest, cells => writePieces source rest (writePiece (source piece) piece cells)

structure ColumnCells (V : Type) where
  layout : StandardColumnData
  cells : Nat → V
  mask : Nat → Bool

namespace ColumnCells

variable {V : Type}

def empty (blank : Nat → V) : ColumnCells V where
  layout := .empty
  cells := blank
  mask := fun _ => true

/-- `AppendLoop` of the data segments copies the values that are not NULL, from the offset of
the piece on. -/
def writeValues (values : List (Option V)) : List AppendPiece → (Nat → V) → Nat → V :=
  writePieces fun piece index => (values[piece.offset + index]?).join

def isNullAt (values : List (Option V)) (index : Nat) : Bool := (values[index]?).any isNone

/-- `ValiditySegment::Append` clears the bits of the NULL values. It counts from the beginning
of the vector in every segment. -/
def writeValidity (values : List (Option V)) : List AppendPiece → (Nat → Bool) → Nat → Bool :=
  writePieces fun _ index => if isNullAt values index then some false else none

/-- `StandardColumnData::Append`. The length of a string decides how many of them fit. -/
def append (kind : ColumnKind) (length : V → Nat) (column : ColumnCells V)
    (values : List (Option V)) : ColumnCells V :=
  let lengths := values.map (Option.map length)
  let dataTarget := (column.layout.column.appendTarget kind).2
  let validityTarget := (column.layout.validity.appendTarget .validity).2
  { layout :=
      { column := column.layout.column.append kind lengths
        validity := column.layout.validity.append .validity lengths }
    cells := writeValues values
      (appendPieces kind (lengths.length + 2) dataTarget 0 lengths) column.cells
    mask := writeValidity values
      (appendPieces .validity (lengths.length + 2) validityTarget 0 lengths) column.mask }

def read (column : ColumnCells V) (row validityRow : Nat) : Option V :=
  if column.mask validityRow then some (column.cells row) else none

def scan (column : ColumnCells V) (rows : Nat) : Option (List (Option V)) :=
  (ColumnScan.visits (vectorsFor rows) (.initial column.layout)).map fun visits =>
    visits.flatMap fun visit => List.zipWith column.read visit.column visit.validity

def fetchSlot (data : List ColumnSegment) (row : Nat) : Option Nat :=
  (findColumnSegment data row).bind fun index =>
    data[index]?.map fun segment => segment.start + (row - segment.start)

def fetchRow (column : ColumnCells V) (row : Nat) : Option (Option V) :=
  (fetchSlot column.layout.validity.data row).bind fun validityRow =>
    (fetchSlot column.layout.column.data row).map fun dataRow => column.read dataRow validityRow

variable {rows row : Nat}

theorem fetchSlot_eq {data : ColumnData} (aligned : data.VectorAligned rows) (inside : row < rows) :
    fetchSlot data.data row = some row := by
  obtain ⟨index, segment, found, here, holds, -⟩ := aligned.found row inside
  rw [fetchSlot, found, bind_some, here, map_some, Nat.add_sub_cancel' holds.1]

variable {kind : ColumnKind} {column : ColumnCells V} {count : RowCount}

theorem fetchRow_eq (aligned : column.layout.Aligned kind count) (inside : row < count.rows) :
    column.fetchRow row = some (column.read row row) := by
  rw [fetchRow, fetchSlot_eq aligned.validity.vectorAligned inside, bind_some,
    fetchSlot_eq aligned.column.vectorAligned inside, map_some]

theorem scan_eq (aligned : column.layout.Aligned kind count) :
    column.scan count.rows = some ((List.range count.rows).map fun row => column.read row row) := by
  obtain ⟨visits, visited, ranges, agree⟩ := aligned.scansOnce
  rw [scan, visited, map_some, ← ranges, map_flatMap]
  congr 1
  refine flatMap_congr ?_
  intro visit member
  rw [(agree visit member).2.1, zipWith_self]

/-! What an append writes -/

variable {C : Type} {source : AppendPiece → Nat → Option C} {pieces : List AppendPiece}
  {cells : Nat → C}

theorem writePieces_frame (outside : ∀ piece ∈ pieces, ¬Holds AppendPiece.row AppendPiece.count piece row) :
    writePieces source pieces cells row = cells row := by
  induction pieces generalizing cells with
  | nil => rfl
  | cons piece rest ih =>
    rw [writePieces, ih fun other member => outside other (mem_cons_of_mem _ member)]
    exact if_neg (outside piece mem_cons_self)

variable {start : Nat}

theorem not_holds_of_lt (contiguous : Contiguous AppendPiece.row AppendPiece.count start pieces)
    (before : row < start) :
    ∀ piece ∈ pieces, ¬Holds AppendPiece.row AppendPiece.count piece row := by
  intro piece member holds
  obtain ⟨front, later, split⟩ := append_of_mem member
  rw [split] at contiguous
  have starts := start_eq contiguous
  have after : start ≤ stop AppendPiece.count start front := le_stop
  have := holds.1
  omega

variable {piece : AppendPiece}

theorem writePieces_row (contiguous : Contiguous AppendPiece.row AppendPiece.count start pieces)
    (member : piece ∈ pieces) (holds : Holds AppendPiece.row AppendPiece.count piece row) :
    writePieces source pieces cells row = (source piece (row - piece.row)).getD (cells row) := by
  induction pieces generalizing cells start with
  | nil => exact nomatch member
  | cons first rest ih =>
    obtain ⟨starts, tail⟩ := contiguous
    have bounds := holds
    rw [Holds] at bounds
    rw [writePieces]
    rcases mem_cons.mp member with same | later
    · subst same
      rw [writePieces_frame (not_holds_of_lt tail (by omega))]
      exact if_pos holds
    rw [ih tail later]
    congr 1
    refine if_neg ?_
    intro firstHolds
    exact not_holds_of_lt tail (by rw [← starts]; exact firstHolds.2) piece later holds

variable {fuel : Nat} {rest : List Appended} {current : ColumnSegment} {offset : Nat}

theorem appendPieces_contiguous (fits : current.Fits)
    (enough : rest.length + 2 ≤ fuel ∨ current.count = 0 ∧ rest.length + 1 ≤ fuel) :
    Contiguous AppendPiece.row AppendPiece.count (current.start + current.count)
        (appendPieces kind fuel current offset rest) ∧
      stop AppendPiece.count (current.start + current.count) (appendPieces kind fuel current offset rest) =
        current.start + current.count + rest.length ∧
      ∀ piece ∈ appendPieces kind fuel current offset rest,
        piece.row + offset = current.start + current.count + piece.offset := by
  induction fuel generalizing offset current rest with
  | zero => omega
  | succ fuel ih =>
    have filled := append_filled kind fits rest
    have less := fun short : (current.append kind rest).count < current.count + rest.length =>
      filled.whole short
    have starts := filled.start
    have grows := filled.grows
    have bound := filled.bound
    rw [appendPieces]
    generalize current.append kind rest = appended at *
    by_cases all : appended.count - current.count = rest.length
    · rw [if_pos all, all]
      exact ⟨⟨rfl, trivial⟩, rfl, by simp⟩
    rw [if_neg all]
    have shorter : (rest.drop (appended.count - current.count)).length + 1 ≤ fuel := by
      rw [length_drop]
      have := less (by omega)
      omega
    obtain ⟨contiguous, stops, offsets⟩ := @ih _ (.transient kind (appended.start + appended.count))
        (offset + (appended.count - current.count))
        (transient_fits _ _) (.inr ⟨rfl, shorter⟩)
    have meets : (transient kind (appended.start + appended.count)).start +
        (transient kind (appended.start + appended.count)).count =
          current.start + current.count + (appended.count - current.count) := by
      change appended.start + appended.count + 0 = _
      omega
    rw [meets] at contiguous stops
    refine ⟨⟨rfl, contiguous⟩, ?_, ?_⟩
    · rw [stop, stops, length_drop]
      omega
    intro piece member
    rcases mem_cons.mp member with first | later
    · rw [first]
    · have := offsets piece later
      omega

def validityRows : Nat := ColumnKind.validity.initialVectorCount * standardVectorSize

def validityStart (row : Nat) : Nat := validityRows * (row / validityRows)

theorem validityStart_eq (divides : validityRows ∣ start) (after : start ≤ row)
    (before : row < start + validityRows) : validityStart row = start := by
  obtain ⟨index, rfl⟩ := divides
  have quotient : row / validityRows = index :=
    Nat.div_eq_of_lt_le (by rwa [mul_comm]) (by rwa [mul_comm, Nat.mul_succ])
  rw [validityStart, quotient]

theorem le_validityStart (divides : validityRows ∣ start) (after : start ≤ row) : start ≤ validityStart row := by
  obtain ⟨index, rfl⟩ := divides
  refine Nat.mul_le_mul_left _ ((Nat.le_div_iff_mul_le (by decide)).mpr ?_)
  rwa [mul_comm]

structure Regular (segment : ColumnSegment) : Prop where
  vectors : segment.maxVectorCount = ColumnKind.validity.initialVectorCount
  start : validityRows ∣ segment.start

variable {segment : ColumnSegment}

theorem Regular.append (regular : Regular segment) (fits : segment.Fits) (values : List Appended) :
    Regular (segment.append .validity values) where
  vectors := (append_maxVectorCount (by decide)).trans regular.vectors
  start := by
    rw [(append_filled .validity fits values).start]
    exact regular.start

theorem Regular.next (regular : Regular segment) (full : segment.count = segment.maxVectorCount * standardVectorSize) :
    Regular (.transient .validity (segment.start + segment.count)) where
  vectors := rfl
  start := by
    refine Nat.dvd_add regular.start ?_
    rw [full, regular.vectors]
    exact Nat.dvd_refl _

theorem validity_piece_row (fits : current.Fits)
    (regular : Regular current) (member : piece ∈ appendPieces .validity fuel current offset rest)
    (holds : Holds AppendPiece.row AppendPiece.count piece row) :
    piece.row = max (current.start + current.count) (validityStart row) := by
  induction fuel generalizing offset current rest with
  | zero => exact nomatch member
  | succ fuel ih =>
    have filled := append_filled .validity fits rest
    have starts := filled.start
    have grows := filled.grows
    have bound := filled.bound
    have room := filled.fits.room
    have appendedRegular := regular.append fits rest
    rw [appendedRegular.vectors] at room
    rw [appendPieces] at member
    generalize current.append .validity rest = appended at *
    rcases mem_cons.mp member with first | later
    · subst first
      change current.start + current.count ≤ row ∧
        row < current.start + current.count + (appended.count - current.count) at holds
      rw [validityStart_eq regular.start (le_trans (Nat.le_add_right _ _) holds.1) (by unfold validityRows; omega)]
      exact (Nat.max_eq_left (Nat.le_add_right _ _)).symm
    · by_cases all : appended.count - current.count = rest.length
      · rw [if_pos all] at later
        exact nomatch later
      rw [if_neg all] at later
      have nextRegular := appendedRegular.next (filled.full (by omega))
      have found := ih (transient_fits _ _) nextRegular later
      have after : appended.start + appended.count ≤ row := by
        have := holds.1
        change piece.row = max (appended.start + appended.count + 0) _ at found
        omega
      have := le_validityStart nextRegular.start after
      change piece.row = max (appended.start + appended.count + 0) _ at found
      change appended.start + appended.count ≤ _ at this
      omega

theorem appendTarget_regular {column : ColumnData} {persisted : Nat} (aligned : column.Aligned .validity rows persisted)
    (regular : ∀ segment ∈ column.data, Regular segment) :
    Regular (column.appendTarget .validity).2 := by
  rw [appendTarget]
  rcases eq_nil_or_concat' column.data with none | ⟨front, last, split⟩
  · have rowsZero := aligned.dataRows
    have loaded := aligned.loadedRows
    have atMost := aligned.persistedRows
    rw [none, stop] at rowsZero
    have zero : column.persistentRows = 0 := by omega
    rw [none, zero]
    exact ⟨rfl, Nat.dvd_zero _⟩
  · have lastRegular := regular last (by rw [split]; simp)
    rw [split, getLast?_concat]
    dsimp only
    split
    · exact ⟨lastRegular.vectors, lastRegular.start⟩
    · exact lastRegular

theorem appendLoop_regular {front : List ColumnSegment} {values : List Appended}
    (fits : current.Fits) (regular : ∀ segment ∈ front ++ [current], Regular segment) :
    ∀ segment ∈ appendLoop .validity fuel front current values, Regular segment := by
  induction fuel generalizing front current values with
  | zero => exact regular
  | succ fuel ih =>
    have filled := append_filled .validity fits values
    have bound := filled.bound
    have grows := filled.grows
    have appended := (regular current (by simp)).append fits values
    have together : ∀ segment ∈ front ++ [current.append .validity values], Regular segment := by
      intro segment member
      rcases mem_append.mp member with old | last
      · exact regular segment (mem_append_left _ old)
      · cases mem_singleton.mp last
        exact appended
    rw [appendLoop]
    split
    · exact together
    next some =>
      refine ih (transient_fits _ _) ?_
      intro segment member
      rcases mem_append.mp member with old | last
      · exact together segment old
      · cases mem_singleton.mp last
        exact appended.next (filled.full (by omega))

/-! The contents after appends -/

structure Laid (kind : ColumnKind) (column : ColumnCells V) (count : RowCount) : Prop where
  aligned : column.layout.Aligned kind count
  regular : ∀ segment ∈ column.layout.validity.data, Regular segment
  fresh : ∀ row, count.rows ≤ row → column.mask row = true

/-- The position of the vector whose NULL-ness `ValiditySegment::Append` writes for another
position, when the vector is appended at the row `start`. -/
def maskPosition (start position : Nat) : Nat :=
  start + position - max start (validityStart (start + position))

variable {kind : ColumnKind} {length : V → Nat} {column : ColumnCells V} {count : RowCount}
  {values : List (Option V)}

variable {target : ColumnSegment}

theorem exists_piece {kind : ColumnKind} (lengths : List Appended) {position : Nat}
    (fits : target.Fits) (ends : target.start + target.count = rows)
    (inside : position < lengths.length) :
    ∃ piece ∈ appendPieces kind (lengths.length + 2) target 0 lengths,
      Holds AppendPiece.row AppendPiece.count piece (rows + position) ∧
      piece.row = rows + piece.offset ∧ Contiguous AppendPiece.row AppendPiece.count rows
        (appendPieces kind (lengths.length + 2) target 0 lengths) := by
  obtain ⟨contiguous, stops, offsets⟩ := appendPieces_contiguous fits (.inl (le_refl (lengths.length + 2)))
  rw [ends] at contiguous stops
  obtain ⟨front, piece, later, split, holds⟩ := exists_holds contiguous (Nat.le_add_right rows position)
      (by rw [stops]; exact Nat.add_lt_add_left inside rows)
  have member : piece ∈ appendPieces kind (lengths.length + 2) target 0 lengths := by
    rw [split]
    simp
  have apart := offsets piece member
  rw [ends] at apart
  exact ⟨piece, member, holds, apart, contiguous⟩

theorem writePieces_outside {lengths : List Appended} (fits : target.Fits)
    (ends : target.start + target.count = rows) (outside : row < rows ∨ rows + lengths.length ≤ row) :
    writePieces source (appendPieces kind (lengths.length + 2) target 0 lengths) cells row = cells row := by
  obtain ⟨contiguous, stops, -⟩ := appendPieces_contiguous fits (.inl (le_refl (lengths.length + 2)))
  rw [ends] at contiguous stops
  refine writePieces_frame ?_
  rcases outside with earlier | later
  · exact not_holds_of_lt contiguous earlier
  intro piece member holds
  have ending := end_le_stop_of_mem contiguous member
  have inside := holds.2
  rw [stops] at ending
  omega

variable (laid : Laid kind column count)
include laid

theorem Laid.append_cells_before (before : row < count.rows) :
    (column.append kind length values).cells row = column.cells row := by
  obtain ⟨-, fits, -, ends, -⟩ := appendTarget_spec laid.aligned.column
  exact writePieces_outside fits ends (.inl before)

theorem Laid.append_mask_before (before : row < count.rows) :
    (column.append kind length values).mask row = column.mask row := by
  obtain ⟨-, fits, -, ends, -⟩ := appendTarget_spec laid.aligned.validity
  exact writePieces_outside fits ends (.inl before)

variable {position : Nat}

theorem Laid.append_cells {value : V} (here : values[position]? = some (some value)) :
    (column.append kind length values).cells (count.rows + position) = value := by
  obtain ⟨-, fits, -, ends, -⟩ := appendTarget_spec laid.aligned.column
  have inside : position < (values.map (Option.map length)).length := by
    rw [length_map]
    exact (List.getElem?_eq_some_iff.mp here).1
  obtain ⟨piece, member, holds, starts, contiguous⟩ := exists_piece _ fits ends inside
  have position_eq : piece.offset + (count.rows + position - piece.row) = position := by
    have := holds.1
    omega
  change writePieces _ _ _ _ = _
  rw [writePieces_row contiguous member holds, position_eq, here]
  rfl

theorem Laid.append_mask (inside : position < values.length) :
    (column.append kind length values).mask (count.rows + position) =
      !isNullAt values (maskPosition count.rows position) := by
  obtain ⟨-, fits, -, ends, -⟩ := appendTarget_spec laid.aligned.validity
  obtain ⟨piece, member, holds, starts, contiguous⟩ :=
    exists_piece (values.map (Option.map length)) fits ends (by rw [length_map]; exact inside)
  have pieceRow := validity_piece_row fits (appendTarget_regular laid.aligned.validity laid.regular) member holds
  rw [ends] at pieceRow
  change writePieces _ _ _ _ = _
  rw [writePieces_row contiguous member holds, pieceRow, ← maskPosition]
  rw [laid.fresh _ (Nat.le_add_right _ _)]
  cases isNullAt values (maskPosition count.rows position) <;> rfl

theorem Laid.append : Laid kind (column.append kind length values)
      (count.step (.append (values.map (Option.map length)))) where
  aligned := ⟨laid.aligned.column.append _, laid.aligned.validity.append _⟩
  regular := by
    obtain ⟨-, fits, -, -, earlier⟩ := appendTarget_spec laid.aligned.validity
    refine appendLoop_regular fits ?_
    intro segment member
    rcases mem_append.mp member with old | last
    · exact laid.regular segment (earlier segment old)
    · cases mem_singleton.mp last
      exact appendTarget_regular laid.aligned.validity laid.regular
  fresh := by
    intro row after
    obtain ⟨-, fits, -, ends, -⟩ := appendTarget_spec laid.aligned.validity
    have behind : count.rows + (values.map (Option.map length)).length ≤ row := after
    exact (writePieces_outside fits ends (.inr behind)).trans (laid.fresh row (Nat.le_of_add_right_le behind))

end ColumnCells

end GuinsooDB
