import GuinsooDB.Index.Multimap

/-!
The indexes of a table. An index is the map that its tree stands for; an operation of an index is
a sequence of insertions and erasures in its tree, for the keys of a chunk of rows.
-/

namespace GuinsooDB

open StandsFor List Function Transition Art

abbrev KeyedRow := Option (List Byte) × Int

def byteOf (number : Nat) : Byte := ⟨number % 256, Nat.mod_lt number (by decide)⟩

namespace Contents

def eraseRows : Contents → List KeyedRow → Contents
  | contents, [] => contents
  | contents, (none, _) :: rest => eraseRows contents rest
  | contents, (some key, row) :: rest => eraseRows (erased contents key row) rest

def insertRows (unique : Bool) : Contents → List KeyedRow → Contents × Option Nat
  | contents, [] => (contents, none)
  | contents, (none, _) :: rest =>
    let (after, failed) := insertRows unique contents rest
    (after, failed.map (· + 1))
  | contents, (some key, row) :: rest =>
    match inserted unique contents key row with
    | (same, false) => (same, some 0)
    | (changed, true) =>
      let (after, failed) := insertRows unique changed rest
      (after, failed.map (· + 1))

def insert (unique : Bool) (contents : Contents) (rows : List KeyedRow) : Contents × Bool :=
  match insertRows unique contents rows with
  | (after, none) => (after, true)
  | (after, some failedIndex) => (eraseRows after (rows.take failedIndex), false)

theorem eraseRows_append (contents : Contents) (first second : List KeyedRow) :
    eraseRows contents (first ++ second) = eraseRows (eraseRows contents first) second := by
  induction first generalizing contents with
  | nil => rfl
  | cons row rest ih =>
    rcases row with ⟨_ | key, row⟩
    · exact ih contents
    · exact ih (erased contents key row)

/-! The maps are those of the trees -/

def erasures (rows : List KeyedRow) : List ArtAction :=
  rows.filterMap fun (key, row) => key.map fun key => .erase key row

def insertions (rows : List KeyedRow) : List ArtAction :=
  rows.filterMap fun (key, row) => key.map fun key => .insert key row

section

variable (unique : Bool) (state : Contents × List Bool) (rows : List KeyedRow)

theorem run_erasures : (run (mapLogged unique) state (erasures rows)).1 = eraseRows state.1 rows := by
  induction rows generalizing state with
  | nil => rfl
  | cons row rest ih =>
    rcases row with ⟨_ | key, row⟩
    · exact ih state
    · exact ih (mapLogged unique state (.erase key row))

theorem run_insertions : (run (mapLogged unique) state
      (insertions (rows.take ((insertRows unique state.1 rows).2.getD rows.length)))).1 =
    (insertRows unique state.1 rows).1 := by
  induction rows generalizing state with
  | nil => rfl
  | cons row rest ih =>
    rcases row with ⟨_ | key, row⟩
    · rw [insertRows, length_cons, Option.getD_map]
      exact ih state
    by_cases fails : (unique && !(state.1 key).isEmpty) = true
    · rw [insertRows, inserted, if_pos fails]
      rfl
    · rw [insertRows, inserted, if_neg fails, length_cons, Option.getD_map]
      change (run _ (mapLogged unique state (.insert key row)) _).1 = _
      rw [mapLogged, mapStep, inserted, if_neg fails]
      exact ih (_, _)

end

/-! What is added and removed -/

def rowsAt (key : List Byte) (rows : List KeyedRow) : List Int :=
  rows.filterMap fun (rowKey, row) => if rowKey = some key then some row else none

def withRows (contents : Contents) (rows : List KeyedRow) : Contents :=
  fun key => contents key ++ rowsAt key rows

variable {contents : Contents} {rows rest : List KeyedRow} {key : List Byte} {row : Int}

theorem withRows_nil (contents : Contents) : withRows contents [] = contents := by
  funext key
  rw [withRows, rowsAt, filterMap_nil, append_nil]

theorem withRows_none (contents : Contents) (row : Int) (rest : List KeyedRow) :
    withRows contents ((none, row) :: rest) = withRows contents rest := by
  funext key
  rw [withRows, withRows, rowsAt, rowsAt, filterMap_cons_none (by simp)]

theorem withRows_some (contents : Contents) (key : List Byte) (row : Int) (rest : List KeyedRow) :
    withRows contents ((some key, row) :: rest) = withRows (update contents key (contents key ++ [row])) rest := by
  funext other
  rw [withRows, withRows, rowsAt, rowsAt]
  by_cases same : other = key
  · subst same
    rw [update_self, filterMap_cons_some (b := row) (by simp), append_cons]
  · have apart : ¬key = other := fun equal => same equal.symm
    rw [update_of_ne same, filterMap_cons_none (by simp [apart])]

theorem erased_withRows (fresh : row ∉ contents key) :
    erased (withRows contents ((some key, row) :: rest)) key row = withRows contents rest := by
  rw [withRows_some]
  funext other
  rw [erased]
  by_cases same : other = key
  · subst same
    rw [update_self, withRows, withRows, update_self, append_assoc,
      erase_append_right _ fresh, singleton_append, erase_cons_head]
  · rw [update_of_ne same, withRows, withRows, update_of_ne same]

def Fresh (contents : Contents) (rows : List KeyedRow) : Prop :=
  ∀ key row, (some key, row) ∈ rows → row ∉ contents key

theorem Fresh.tail {first : KeyedRow} (fresh : Fresh contents (first :: rows)) : Fresh contents rows :=
  fun key row member => fresh key row (mem_cons_of_mem _ member)

theorem eraseRows_withRows_append {second : List KeyedRow} (fresh : Fresh contents rows) :
    eraseRows (withRows contents (rows ++ second)) rows = withRows contents second := by
  induction rows generalizing contents with
  | nil => rfl
  | cons row rest ih =>
    rcases row with ⟨_ | key, row⟩
    · rw [eraseRows, cons_append, withRows_none]
      exact ih fresh.tail
    · rw [eraseRows, cons_append, erased_withRows (fresh key row mem_cons_self)]
      exact ih fresh.tail

theorem eraseRows_withRows (fresh : Fresh contents rows) : eraseRows (withRows contents rows) rows = contents := by
  have erased := @eraseRows_withRows_append contents rows [] fresh
  rwa [append_nil, withRows_nil] at erased

theorem eraseRows_of_fresh (fresh : Fresh contents rows) : eraseRows contents rows = contents := by
  induction rows with
  | nil => rfl
  | cons row rest ih =>
    rcases row with ⟨_ | key, row⟩
    · exact ih fresh.tail
    · have same : erased contents key row = contents := by
        rw [erased, erase_of_not_mem (fresh key row mem_cons_self), update_eq_self]
      rw [eraseRows, same]
      exact ih fresh.tail

variable {unique : Bool}

theorem insertRows_cases (contents : Contents) {rows : List KeyedRow} :
    insertRows unique contents rows = (withRows contents rows, none) ∨ ∃ failedIndex, insertRows unique contents rows =
        (withRows contents (rows.take failedIndex), some failedIndex) := by
  induction rows generalizing contents with
  | nil => exact .inl (by rw [insertRows, withRows_nil])
  | cons row rest ih =>
    rcases row with ⟨_ | key, row⟩
    · rw [insertRows]
      rcases ih contents with whole | ⟨failedIndex, stopped⟩
      · exact .inl (by rw [whole, withRows_none]; rfl)
      · refine .inr ⟨failedIndex + 1, ?_⟩
        rw [stopped, take_succ_cons, withRows_none]
        rfl
    · rw [insertRows, inserted]
      by_cases fails : (unique && !(contents key).isEmpty) = true
      · exact .inr ⟨0, by rw [if_pos fails, take_zero, withRows_nil]⟩
      rw [if_neg fails]
      dsimp only
      rcases ih (update contents key (contents key ++ [row])) with
        whole | ⟨failedIndex, stopped⟩
      · exact .inl (by rw [whole, withRows_some]; rfl)
      · refine .inr ⟨failedIndex + 1, ?_⟩
        rw [stopped, take_succ_cons, withRows_some]
        rfl

theorem Fresh.take (fresh : Fresh contents rows) (count : Nat) : Fresh contents (rows.take count) :=
  fun key row member => fresh key row (mem_of_mem_take member)

theorem insert_eq (fresh : Fresh contents rows) :
    insert unique contents rows = (withRows contents rows, true) ∨ insert unique contents rows = (contents, false) := by
  rw [insert]
  rcases insertRows_cases contents with whole | ⟨failedIndex, stopped⟩
  · exact .inl (by rw [whole])
  · refine .inr ?_
    rw [stopped]
    exact congrArg (·, false) (eraseRows_withRows (fresh.take failedIndex))

/-! Maps without repeated rows -/

def Simple (contents : Contents) : Prop := ∀ key, (contents key).Nodup

theorem Simple.erased (simple : Simple contents) (key : List Byte) (row : Int) :
    Simple (StandsFor.erased contents key row) := by
  intro other
  rw [StandsFor.erased]
  by_cases same : other = key
  · subst same
    rw [update_self]
    exact (simple other).erase row
  · rw [update_of_ne same]
    exact simple other

theorem mem_erased (simple : Simple contents) {other : List Byte} {member : Int} :
    member ∈ erased contents key row other ↔ member ∈ contents other ∧ ¬(other = key ∧ member = row) := by
  rw [erased]
  by_cases same : other = key
  · subst same
    rw [update_self, (simple other).mem_erase_iff, and_comm]
    simp
  · rw [update_of_ne same]
    simp [same]

theorem mem_eraseRows (simple : Simple contents) :
    row ∈ eraseRows contents rows key ↔ row ∈ contents key ∧ (some key, row) ∉ rows := by
  induction rows generalizing contents with
  | nil => simp [eraseRows]
  | cons first rest ih =>
    rcases first with ⟨_ | firstKey, firstRow⟩
    · rw [eraseRows, ih simple]
      simp
    · rw [eraseRows, ih (simple.erased firstKey firstRow), mem_erased simple, and_assoc]
      simp

end Contents

/-! An index with its expressions -/

/-- `key` computes the expressions of the index for a row and concatenates them to a key. -/
structure TableIndex (Row : Type) where
  unique : Bool
  key : Row → Option (List Byte)
  contents : Contents

namespace TableIndex

variable {Row : Type}

variable (index : TableIndex Row) (rows : List (Row × Nat))

def keyed : List KeyedRow :=
  rows.map fun (row, id) => (index.key row, (id : Int))

def append : TableIndex Row × Bool :=
  let (contents, succeeded) := index.contents.insert index.unique (index.keyed rows)
  ({ index with contents }, succeeded)

def delete : TableIndex Row :=
  { index with contents := index.contents.eraseRows (index.keyed rows) }

end TableIndex

end GuinsooDB
