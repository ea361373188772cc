import GuinsooDB.Storage.ColumnCells

/-!
Reading back what a sequence of appends has written. The values come back; the NULL-ness of a
vector that is split between two validity segments need not.
-/

namespace GuinsooDB

open Transition List

namespace ColumnCells

variable {V : Type} {kind : ColumnKind} {length : V → Nat} {column : ColumnCells V}
  {count : RowCount} {appends : List (List (Option V))}

theorem Laid.append_rows (laid : Laid kind column count) {length : V → Nat}
    {values : List (Option V)} : Laid kind (column.append kind length values)
      { rows := count.rows + values.length, persisted := count.persisted } := by
  have appended : Laid kind (column.append kind length values) _ := laid.append
  rw [RowCount.step, length_map] at appended
  exact appended

theorem run_laid (laid : Laid kind column count) : Laid kind (run (append kind length) column appends)
      { rows := count.rows + appends.flatten.length, persisted := count.persisted } := by
  induction appends generalizing column count with
  | nil => exact laid
  | cons values rest ih =>
    rw [flatten_cons, length_append, ← add_assoc]
    exact ih (laid.append_rows)

variable {row : Nat}

theorem run_before (laid : Laid kind column count) (before : row < count.rows) :
    (run (append kind length) column appends).cells row = column.cells row ∧
      (run (append kind length) column appends).mask row = column.mask row := by
  induction appends generalizing column count with
  | nil => exact ⟨rfl, rfl⟩
  | cons values rest ih =>
    obtain ⟨cells, mask⟩ := ih (laid.append_rows) (Nat.lt_add_right values.length before)
    exact ⟨cells.trans (laid.append_cells_before before), mask.trans (laid.append_mask_before before)⟩

variable {values : List (Option V)} {position : Nat}

theorem run_appended (length : V → Nat) (before after : List (List (Option V)))
    (laid : Laid kind column count) (inside : position < values.length) :
    let row := count.rows + before.flatten.length + position
    let final := run (append kind length) column (before ++ values :: after)
    (∀ value, values[position]? = some (some value) → final.cells row = value) ∧ final.mask row =
        !isNullAt values (maskPosition (count.rows + before.flatten.length) position) := by
  intro row final
  have earlier : Laid kind (run (append kind length) column before)
      { rows := count.rows + before.flatten.length, persisted := count.persisted } := run_laid laid
  have split : final = run (append kind length)
      ((run (append kind length) column before).append kind length values) after := by
    change foldl _ _ _ = _
    rw [foldl_append, foldl_cons]
    rfl
  have ends : row < count.rows + before.flatten.length + values.length := Nat.add_lt_add_left inside _
  obtain ⟨cells, mask⟩ := run_before (earlier.append_rows) ends
  rw [split, cells, mask]
  exact ⟨fun value here => earlier.append_cells here, earlier.append_mask inside⟩

theorem exists_append_of_lt (inside : row < appends.flatten.length) :
    ∃ before values after position, appends = before ++ values :: after ∧
      position < values.length ∧ row = before.flatten.length + position ∧
      appends.flatten[row]? = values[position]? := by
  induction appends generalizing row with
  | nil => exact absurd inside (Nat.not_lt_zero row)
  | cons values rest ih =>
    by_cases here : row < values.length
    · refine ⟨[], values, rest, row, rfl, here, (zero_add row).symm, ?_⟩
      rw [flatten_cons, getElem?_append_left here]
    rw [flatten_cons, length_append] at inside
    obtain ⟨before, found, after, position, split, within, rows, value⟩ := @ih (row - values.length) (by omega)
    refine ⟨values :: before, found, after, position, ?_, within, ?_, ?_⟩
    · rw [split, cons_append]
    · rw [flatten_cons, length_append]
      omega
    · rw [flatten_cons, getElem?_append_right (Nat.le_of_not_lt here), value]

variable {value : Option V}

theorem read_eq_iff (cells : ∀ stored, value = some stored → column.cells row = stored) :
    column.read row row = value ↔ column.mask row = value.isSome := by
  rw [read]
  cases value with
  | none => cases column.mask row <;> simp
  | some stored => cases column.mask row <;> simp [cells stored rfl]

def ReadsBack (column : ColumnCells V) (values : List (Option V)) : Prop :=
  column.scan values.length = some values ∧
    ∀ row < values.length, column.fetchRow row = values[row]?

theorem readsBack_iff (aligned : column.layout.Aligned kind count)
    (rows : count.rows = values.length) : column.ReadsBack values ↔
      ∀ row value, values[row]? = some value → column.read row row = value := by
  constructor
  · intro readsBack row value here
    have inside := (List.getElem?_eq_some_iff.mp here).1
    have fetched := readsBack.2 row inside
    rw [fetchRow_eq aligned (by omega), here] at fetched
    exact Option.some.inj fetched
  intro reads
  refine ⟨?_, ?_⟩
  · rw [← rows, scan_eq aligned, rows]
    congr 1
    refine ext_getElem (by simp) ?_
    intro row _ inside
    rw [getElem_map, getElem_range]
    exact reads row _ (getElem?_eq_getElem inside)
  · intro row inside
    rw [fetchRow_eq aligned (by omega), getElem?_eq_getElem inside]
    congr 1
    exact reads row _ (getElem?_eq_getElem inside)

/-- A vector that is appended at the row `start` and goes on in the next validity segment has
there the same NULLs as at its beginning. -/
def SplitsEvenly (start : Nat) (values : List (Option V)) : Prop :=
  ∀ position < values.length,
    isNullAt values (maskPosition start position) = isNullAt values position

theorem empty_laid (kind : ColumnKind) (blank : Nat → V) : Laid kind (empty blank) .initial where
  aligned := StandardColumnData.empty_aligned kind
  regular := by simp [empty, StandardColumnData.empty, ColumnData.empty]
  fresh := fun _ _ => rfl

theorem appended_read_iff (kind : ColumnKind) (length : V → Nat) (blank : Nat → V)
    (before after : List (List (Option V))) (here : values[position]? = some value) :
    let row := before.flatten.length + position
    (run (append kind length) (empty blank) (before ++ values :: after)).read row row = value ↔
      isNullAt values (maskPosition before.flatten.length position) = isNullAt values position := by
  intro row
  have inside := (List.getElem?_eq_some_iff.mp here).1
  have written := run_appended length before after (empty_laid kind blank) inside
  have rows : RowCount.initial.rows + before.flatten.length = before.flatten.length := zero_add _
  rw [rows] at written
  rw [read_eq_iff, written.2, show isNullAt values position = value.isNone by simp [isNullAt, here]]
  · cases isNullAt values (maskPosition before.flatten.length position) <;> cases value <;> simp
  · rintro stored rfl
    exact written.1 stored here

theorem flatten_getElem? {before after : List (List (Option V))} (inside : position < values.length) :
    (before ++ values :: after).flatten[before.flatten.length + position]? = values[position]? := by
  rw [flatten_append, getElem?_append_right (Nat.le_add_right _ _),
    Nat.add_sub_cancel_left, flatten_cons, getElem?_append_left inside]

theorem run_readsBack_iff (kind : ColumnKind) (length : V → Nat) (blank : Nat → V) (appends : List (List (Option V))) :
    (run (append kind length) (empty blank) appends).ReadsBack appends.flatten ↔
      ∀ row value, appends.flatten[row]? = some value →
        (run (append kind length) (empty blank) appends).read row row = value := by
  have laid : Laid kind (run (append kind length) (empty blank) appends)
      { rows := 0 + appends.flatten.length, persisted := 0 } := run_laid (empty_laid kind blank)
  exact readsBack_iff laid.aligned (zero_add _)

/-- The rows of a sequence of appends read back exactly when no vector has other NULLs behind
the start of a validity segment than at its beginning. -/
theorem appends_readBack (kind : ColumnKind) (length : V → Nat) (blank : Nat → V)
    (appends : List (List (Option V))) :
    (run (append kind length) (empty blank) appends).ReadsBack appends.flatten ↔
      ∀ before values after, appends = before ++ values :: after →
        SplitsEvenly before.flatten.length values := by
  rw [run_readsBack_iff]
  constructor
  · rintro reads before values after rfl position inside
    have here : values[position]? = some values[position] := List.getElem?_eq_getElem inside
    exact (appended_read_iff kind length blank before after here).mp
      (reads _ _ ((flatten_getElem? inside).trans here))
  intro evenly row value here
  obtain ⟨before, values, after, position, rfl, inside, rfl, same⟩ :=
    exists_append_of_lt (List.getElem?_eq_some_iff.mp here).1
  rw [same] at here
  exact (appended_read_iff kind length blank before after here).mpr
    (evenly before values after rfl position inside)

def almostFull : List (List (Option Nat)) :=
  replicate 79 (replicate 1024 (some 7)) ++ [replicate 1023 (some 7)]

theorem almostFull_rows : almostFull.flatten.length = 81919 := by
  rw [almostFull, flatten_append, length_append, length_flatten, map_replicate,
    length_replicate, flatten_singleton, length_replicate]
  rfl

/-- The value behind a NULL reads as NULL when it is the first of the next validity segment. -/
theorem not_readsBack : ¬(run (append (.numeric .four) id) (empty fun _ => 0)
      (almostFull ++ [[none, some 5]])).ReadsBack (almostFull ++ [[none, some 5]]).flatten := by
  rw [run_readsBack_iff]
  intro reads
  have value := reads (almostFull.flatten.length + 1) (some 5) (flatten_getElem? (by decide))
  have same := (appended_read_iff (.numeric .four) id (fun _ => 0) almostFull []
    (show [none, some 5][1]? = some (some 5) from rfl)).mp value
  rw [almostFull_rows] at same
  exact absurd same (by decide)

end ColumnCells

end GuinsooDB
