import Mathlib.Data.Finset.Card
import Mathlib.Data.Fintype.Card
import Mathlib.Logic.Function.Basic

/-!
The inner nodes of the ART. `Node4` and `Node16` keep their bytes in order, `Node48` has an index
from bytes to slots and `Node256` a slot for each byte. A full node grows when a child is
inserted; one that has become sparse shrinks when a child is erased.
-/

namespace GuinsooDB

open List Function Option
open Function (update)

abbrev Byte := Fin 256

inductive NodeLayout (Child : Type) where
  | node4 (entries : List (Byte × Child))
  | node16 (entries : List (Byte × Child))
  | node48 (childIndex : Byte → Nat) (child : Nat → Option Child) (count : Nat)
  | node256 (child : Byte → Option Child) (count : Nat)

inductive Shrunk (Child : Type) where
  | kept (layout : NodeLayout Child)
  | oneWay (byte : Byte) (child : Child)

namespace NodeLayout

variable {Child : Type}

def emptyMarker : Nat := 48

def bytes : List Byte := List.finRange 256

/-! Entries in order -/

def findEntry (byte : Byte) : List (Byte × Child) → Option Child
  | [] => none
  | entry :: rest => if entry.1 = byte then some entry.2 else findEntry byte rest

def insertEntry (byte : Byte) (child : Child) : List (Byte × Child) → List (Byte × Child)
  | [] => [(byte, child)]
  | entry :: rest =>
    if entry.1 < byte then entry :: insertEntry byte child rest
    else (byte, child) :: entry :: rest

def replaceEntry (byte : Byte) (child : Child) : List (Byte × Child) → List (Byte × Child)
  | [] => []
  | entry :: rest =>
    if entry.1 = byte then (byte, child) :: rest else entry :: replaceEntry byte child rest

def eraseEntry (byte : Byte) : List (Byte × Child) → List (Byte × Child)
  | [] => []
  | entry :: rest => if entry.1 = byte then rest else entry :: eraseEntry byte rest

/-! Children of a node -/

def find (byte : Byte) : NodeLayout Child → Option Child
  | node4 entries | node16 entries => findEntry byte entries
  | node48 childIndex child _ =>
    if childIndex byte = emptyMarker then none else child (childIndex byte)
  | node256 child _ => child byte

def replace (byte : Byte) (changed : Child) : NodeLayout Child → NodeLayout Child
  | node4 entries => node4 (replaceEntry byte changed entries)
  | node16 entries => node16 (replaceEntry byte changed entries)
  | node48 childIndex child count =>
    node48 childIndex (update child (childIndex byte) (some changed)) count
  | node256 child count => node256 (update child byte (some changed)) count

def insert256 (byte : Byte) (added : Child) (child : Byte → Option Child) (count : Nat) :
    NodeLayout Child :=
  node256 (update child byte (some added)) (count + 1)

def firstEmpty (child : Nat → Option Child) : Nat → Nat → Nat
  | 0, position => position
  | fuel + 1, position =>
    if (child position).isSome then firstEmpty child fuel (position + 1) else position

def insert48 (byte : Byte) (added : Child) (childIndex : Byte → Nat) (child : Nat → Option Child)
    (count : Nat) : NodeLayout Child :=
  if count < 48 then
    let position := if (child count).isSome then firstEmpty child 48 0 else count
    node48 (update childIndex byte position)
      (update child position (some added)) (count + 1)
  else
    insert256 byte added
      (fun other => if childIndex other = emptyMarker then none else child (childIndex other)) count

def fillSlots : Nat → List (Byte × Child) → (Byte → Nat) × (Nat → Option Child) →
    (Byte → Nat) × (Nat → Option Child)
  | _, [], slots => slots
  | position, (byte, child) :: rest, slots =>
    fillSlots (position + 1) rest
      (update slots.1 byte position, update slots.2 position (some child))

def emptySlots : (Byte → Nat) × (Nat → Option Child) := (fun _ => emptyMarker, fun _ => none)

def insert16 (byte : Byte) (added : Child) (entries : List (Byte × Child)) : NodeLayout Child :=
  if entries.length < 16 then node16 (insertEntry byte added entries)
  else
    let slots := fillSlots 0 entries emptySlots
    insert48 byte added slots.1 slots.2 entries.length

def insert4 (byte : Byte) (added : Child) (entries : List (Byte × Child)) : NodeLayout Child :=
  if entries.length < 4 then node4 (insertEntry byte added entries)
  else insert16 byte added entries

def insertChild (byte : Byte) (added : Child) : NodeLayout Child → NodeLayout Child
  | node4 entries => insert4 byte added entries
  | node16 entries => insert16 byte added entries
  | node48 childIndex child count => insert48 byte added childIndex child count
  | node256 child count => insert256 byte added child count

def collect (find : Byte → Option Child) : List (Byte × Child) :=
  bytes.filterMap fun byte => (find byte).map fun child => (byte, child)

def erase4 (byte : Byte) (entries : List (Byte × Child)) : Shrunk Child :=
  match eraseEntry byte entries with
  | [(last, child)] => .oneWay last child
  | left => .kept (node4 left)

def eraseChild (byte : Byte) : NodeLayout Child → Shrunk Child
  | node4 entries => erase4 byte entries
  | node16 entries =>
    let left := eraseEntry byte entries
    .kept (if left.length ≤ 3 then node4 left else node16 left)
  | node48 childIndex child count =>
    let child := update child (childIndex byte) none
    let childIndex := update childIndex byte emptyMarker
    .kept (if count - 1 ≤ 12 then
        node16 (collect fun other =>
          if childIndex other = emptyMarker then none else child (childIndex other))
      else node48 childIndex child (count - 1))
  | node256 child count =>
    let child := update child byte none
    .kept (if count - 1 ≤ 36 then
        let slots := fillSlots 0 (collect child) emptySlots
        node48 slots.1 slots.2 (collect child).length
      else node256 child (count - 1))

/-! What the layouts keep -/

def Ordered (entries : List (Byte × Child)) : Prop :=
  entries.Pairwise fun first second => first.1 < second.1

def keys (find : Byte → Option Child) : Finset Byte :=
  Finset.univ.filter fun byte => (find byte).isSome = true

/-- The index of a `Node48` points at different slots, which are the occupied ones. -/
structure Slots (childIndex : Byte → Nat) (child : Nat → Option Child) (count : Nat) : Prop where
  occupied : ∀ byte, childIndex byte ≠ emptyMarker →
    childIndex byte < 48 ∧ (child (childIndex byte)).isSome = true
  different : ∀ byte other, childIndex byte ≠ emptyMarker → childIndex byte = childIndex other →
    byte = other
  indexed : ∀ slot, (child slot).isSome = true → slot < 48 ∧ ∃ byte, childIndex byte = slot
  count : count = (Finset.univ.filter fun byte => childIndex byte ≠ emptyMarker).card

def Valid : NodeLayout Child → Prop
  | node4 entries => Ordered entries ∧ 2 ≤ entries.length ∧ entries.length ≤ 4
  | node16 entries => Ordered entries ∧ 4 ≤ entries.length ∧ entries.length ≤ 16
  | node48 childIndex child count => Slots childIndex child count ∧ 13 ≤ count ∧ count ≤ 48
  | node256 child count => count = (keys child).card ∧ 37 ≤ count

variable {byte other : Byte} {child added : Child} {entries : List (Byte × Child)}

variable (ordered : Ordered entries)

include ordered in
theorem findEntry_eq_some_iff : findEntry byte entries = some child ↔ (byte, child) ∈ entries := by
  induction entries with
  | nil => simp [findEntry]
  | cons entry rest ih =>
    obtain ⟨below, later⟩ := pairwise_cons.mp ordered
    by_cases same : entry.1 = byte
    · rw [findEntry, if_pos same, some.injEq, mem_cons]
      constructor
      · rintro rfl
        exact .inl (by rw [← same])
      · rintro (rfl | inside)
        · rfl
        · exact absurd same (Fin.ne_of_lt (below _ inside))
    · rw [findEntry, if_neg same, ih later, mem_cons]
      constructor
      · exact .inr
      · rintro (rfl | inside)
        · exact absurd rfl same
        · exact inside

theorem findEntry_eq_none_iff : findEntry byte entries = none ↔ ∀ entry ∈ entries, entry.1 ≠ byte := by
  induction entries with
  | nil => simp [findEntry]
  | cons entry rest ih =>
    by_cases same : entry.1 = byte
    · simp [findEntry, same]
    · simp [findEntry, same, ih]

theorem findEntry_below (below : ∀ entry ∈ entries, byte < entry.1) : findEntry byte entries = none := by
  exact findEntry_eq_none_iff.mpr fun entry inside => Fin.ne_of_gt (below entry inside)

theorem mem_insertEntry {entry : Byte × Child} :
    entry ∈ insertEntry byte added entries ↔ entry = (byte, added) ∨ entry ∈ entries := by
  induction entries with
  | nil => simp [insertEntry]
  | cons first rest ih =>
    by_cases before : first.1 < byte
    · simp [insertEntry, before, ih, or_left_comm]
    · simp [insertEntry, before]

include ordered in
theorem Ordered.insertEntry (added : Child)
    (fresh : findEntry byte entries = none) : Ordered (insertEntry byte added entries) := by
  induction entries with
  | nil => simp [NodeLayout.insertEntry, Ordered]
  | cons first rest ih =>
    obtain ⟨below, later⟩ := pairwise_cons.mp ordered
    have absent := findEntry_eq_none_iff.mp fresh
    have different := absent first mem_cons_self
    by_cases before : first.1 < byte
    · rw [NodeLayout.insertEntry, if_pos before]
      refine pairwise_cons.mpr ⟨fun entry inside => ?_, ih later ?_⟩
      · rcases mem_insertEntry.mp inside with rfl | old
        · exact before
        · exact below entry old
      · exact findEntry_eq_none_iff.mpr fun entry inside =>
          absent entry (mem_cons_of_mem first inside)
    · rw [NodeLayout.insertEntry, if_neg before]
      have after : byte < first.1 := lt_of_le_of_ne (not_lt.mp before) (Ne.symm different)
      refine pairwise_cons.mpr ⟨fun entry inside => ?_, ordered⟩
      rcases mem_cons.mp inside with rfl | old
      · exact after
      · exact Fin.lt_trans after (below entry old)

include ordered in
theorem findEntry_insertEntry (fresh : findEntry byte entries = none) :
    (fun other => findEntry other (insertEntry byte added entries)) =
      update (fun other => findEntry other entries) byte (some added) := by
  have sorted := ordered.insertEntry added fresh
  funext other
  by_cases same : other = byte
  · rw [same, update_self, findEntry_eq_some_iff sorted, mem_insertEntry]
    exact .inl rfl
  · rw [update_of_ne same]
    refine ext fun child => ?_
    rw [findEntry_eq_some_iff sorted, findEntry_eq_some_iff ordered, mem_insertEntry]
    simp [same]

theorem length_insertEntry : (insertEntry byte added entries).length = entries.length + 1 := by
  induction entries with
  | nil => rfl
  | cons first rest ih =>
    by_cases before : first.1 < byte
    · simp [insertEntry, before, ih]
    · simp [insertEntry, before]

theorem replaceEntry_keys (added : Child) (present : findEntry byte entries ≠ none) :
    (replaceEntry byte added entries).map Prod.fst = entries.map Prod.fst := by
  induction entries with
  | nil => rfl
  | cons first rest ih =>
    by_cases same : first.1 = byte
    · simp [replaceEntry, same]
    · rw [findEntry, if_neg same] at present
      simp [replaceEntry, same, ih present]

theorem ordered_iff_keys : Ordered entries ↔ (entries.map Prod.fst).Pairwise (· < ·) := by
  rw [Ordered, pairwise_map]

theorem findEntry_replaceEntry (present : findEntry byte entries ≠ none) :
    findEntry other (replaceEntry byte added entries) =
      if other = byte then some added else findEntry other entries := by
  induction entries with
  | nil => exact absurd rfl present
  | cons first rest ih =>
    by_cases same : first.1 = byte
    · by_cases equal : other = byte
      · simp [replaceEntry, same, findEntry, equal]
      · simp [replaceEntry, same, findEntry, equal, Ne.symm equal]
    rw [findEntry, if_neg same] at present
    rw [replaceEntry, if_neg same, findEntry, ih present, findEntry]
    by_cases equal : other = byte
    · simp [equal, same]
    · simp [equal]

theorem eraseEntry_sublist : (eraseEntry byte entries).Sublist entries := by
  induction entries with
  | nil => exact List.Sublist.refl _
  | cons first rest ih =>
    by_cases same : first.1 = byte
    · simp [eraseEntry, same]
    · simp [eraseEntry, same, ih]

include ordered in
theorem findEntry_eraseEntry : (fun other => findEntry other (eraseEntry byte entries)) =
      update (fun other => findEntry other entries) byte none := by
  funext other
  rw [update_apply]
  induction entries with
  | nil => simp [eraseEntry, findEntry]
  | cons first rest ih =>
    obtain ⟨below, later⟩ := pairwise_cons.mp ordered
    by_cases same : first.1 = byte
    · rw [eraseEntry, if_pos same]
      by_cases equal : other = byte
      · rw [if_pos equal, equal, ← same, findEntry_below below]
      · rw [if_neg equal, findEntry, if_neg fun found => equal (found.symm.trans same)]
    · rw [eraseEntry, if_neg same, findEntry, ih later, findEntry]
      by_cases equal : other = byte
      · simp [equal, same]
      · simp [equal]

theorem length_eraseEntry (present : findEntry byte entries ≠ none) :
    (eraseEntry byte entries).length + 1 = entries.length := by
  induction entries with
  | nil => exact absurd rfl present
  | cons first rest ih =>
    by_cases same : first.1 = byte
    · simp [eraseEntry, same]
    · rw [findEntry, if_neg same] at present
      simp [eraseEntry, same, ih present]

include ordered in
theorem card_keys_entries : (keys fun byte => findEntry byte entries).card = entries.length := by
  have nodup : (entries.map Prod.fst).Nodup := (ordered_iff_keys.mp ordered).imp fun less => Fin.ne_of_lt less
  have same : (keys fun byte => findEntry byte entries) = (entries.map Prod.fst).toFinset := by
    ext byte
    rw [keys, Finset.mem_filter, isSome_iff_exists, List.mem_toFinset, List.mem_map]
    simp only [Finset.mem_univ, true_and, findEntry_eq_some_iff ordered]
    constructor
    · rintro ⟨child, inside⟩
      exact ⟨(byte, child), inside, rfl⟩
    · rintro ⟨⟨_, child⟩, inside, rfl⟩
      exact ⟨child, inside⟩
  rw [same, toFinset_card_of_nodup nodup, length_map]

/-! Sets of bytes -/

variable {find : Byte → Option Child}

theorem filter_update {Entry : Type*} {entry : Byte → Entry} {value : Entry} (taken : Entry → Prop) [DecidablePred taken] :
    (Finset.univ.filter fun other => taken (update entry byte value other)) =
      if taken value then insert byte (Finset.univ.filter fun other => taken (entry other))
      else (Finset.univ.filter fun other => taken (entry other)).erase byte := by
  ext other
  by_cases equal : other = byte
  · by_cases kept : taken value
    · simp [equal, kept]
    · simp [equal, kept]
  · split
    · simp [equal]
    · simp [equal]

theorem card_keys_insert (fresh : find byte = none) :
    (keys (update find byte (some added))).card = (keys find).card + 1 := by
  rw [keys, filter_update (isSome · = true), if_pos isSome_some, Finset.card_insert_of_notMem (by simp [fresh]), keys]

theorem card_keys_erase (present : find byte ≠ none) : (keys (update find byte none)).card + 1 = (keys find).card := by
  rw [keys, filter_update (isSome · = true), if_neg (by simp), Finset.card_erase_add_one, keys]
  simpa [isSome_iff_ne_none] using present

theorem card_keys_replace (present : find byte ≠ none) :
    (keys (update find byte (some added))).card = (keys find).card := by
  rw [keys, filter_update (isSome · = true), if_pos isSome_some, Finset.insert_eq_of_mem, keys]
  simpa [isSome_iff_ne_none] using present

theorem ordered_collect (find : Byte → Option Child) : Ordered (collect find) := by
  refine List.Pairwise.filterMap _ ?_ (pairwise_lt_finRange 256)
  intro first second less entry found other foundOther
  simp only [map_eq_some_iff] at found foundOther
  obtain ⟨_, _, rfl⟩ := found
  obtain ⟨_, _, rfl⟩ := foundOther
  exact less

theorem findEntry_collect {find : Byte → Option Child} (byte : Byte) : findEntry byte (collect find) = find byte := by
  refine ext fun child => ?_
  rw [findEntry_eq_some_iff (ordered_collect find), collect, mem_filterMap]
  simp [bytes]

theorem length_collect (find : Byte → Option Child) : (collect find).length = (keys find).card := by
  rw [← card_keys_entries (ordered_collect find)]
  simp only [findEntry_collect]

section

variable {childIndex : Byte → Nat} {slots : Nat → Option Child} {count slot : Nat}

def find48 (childIndex : Byte → Nat) (slots : Nat → Option Child) (byte : Byte) : Option Child :=
  if childIndex byte = emptyMarker then none else slots (childIndex byte)

theorem Slots.empty : Slots (fun _ => emptyMarker) (fun _ => (none : Option Child)) 0 where
  occupied _ present := absurd rfl present
  different _ _ present := absurd rfl present
  indexed _ present := by simp at present
  count := by simp

section

variable (valid : Slots childIndex slots count)
include valid

theorem Slots.find48_eq_none :
    find48 childIndex slots byte = none ↔ childIndex byte = emptyMarker := by
  by_cases empty : childIndex byte = emptyMarker
  · simp [find48, empty]
  · have some := (valid.occupied byte empty).2
    rw [isSome_iff_ne_none] at some
    simp [find48, empty, some]

theorem Slots.count_keys : count = (keys (find48 childIndex slots)).card := by
  rw [valid.count]
  congr 1
  ext byte
  simp [keys, isSome_iff_ne_none, valid.find48_eq_none]

theorem Slots.find48_update (present : childIndex byte ≠ emptyMarker) (value : Option Child) :
    find48 childIndex (update slots (childIndex byte) value) = update (find48 childIndex slots) byte value := by
  funext other
  by_cases equal : other = byte
  · simp [find48, equal, present]
  by_cases there : childIndex other = emptyMarker
  · simp [find48, equal, there]
  · have apart : childIndex other ≠ childIndex byte := fun same =>
      equal (valid.different other byte there same)
    simp [find48, equal, there, apart]

theorem Slots.insert (added : Child) (fresh : childIndex byte = emptyMarker) (free : slots slot = none) (inside : slot < 48) :
    Slots (update childIndex byte slot) (update slots slot (some added)) (count + 1) ∧
    find48 (update childIndex byte slot) (update slots slot (some added)) =
      update (find48 childIndex slots) byte (some added) := by
  have marker : slot ≠ emptyMarker := ne_of_lt inside
  have apart : ∀ other, childIndex other ≠ emptyMarker → childIndex other ≠ slot := by
    intro other present same
    have some := (valid.occupied other present).2
    rw [same, free] at some
    cases some
  refine ⟨⟨fun other present => ?_, fun other third present same => ?_, fun place present => ?_, ?_⟩, ?_⟩
  · by_cases equal : other = byte
    · simp [equal, inside]
    · rw [update_of_ne equal] at present ⊢
      rw [update_of_ne (apart other present)]
      exact valid.occupied other present
  · by_cases equal : other = byte
    · by_cases equalThird : third = byte
      · rw [equal, equalThird]
      · rw [equal, update_self, update_of_ne equalThird] at same
        exact absurd same.symm (apart third (same ▸ marker))
    rw [update_of_ne equal] at present same
    by_cases equalThird : third = byte
    · rw [equalThird, update_self] at same
      exact absurd same (apart other present)
    · rw [update_of_ne equalThird] at same
      exact valid.different other third present same
  · by_cases equal : place = slot
    · exact ⟨equal ▸ inside, byte, by rw [update_self, equal]⟩
    rw [update_of_ne equal] at present
    obtain ⟨bound, other, found⟩ := valid.indexed place present
    refine ⟨bound, other, ?_⟩
    rw [update_of_ne, found]
    rintro rfl
    rw [fresh] at found
    rw [← found] at bound
    exact absurd bound (lt_irrefl 48)
  · rw [filter_update (· ≠ emptyMarker), if_pos marker, Finset.card_insert_of_notMem (by simp [fresh]), valid.count]
  · funext other
    by_cases equal : other = byte
    · simp [find48, equal, marker]
    · by_cases present : childIndex other = emptyMarker
      · simp [find48, equal, present]
      · simp [find48, equal, present, update_of_ne (apart other present)]

theorem Slots.erase (present : childIndex byte ≠ emptyMarker) :
    Slots (update childIndex byte emptyMarker) (update slots (childIndex byte) none) (count - 1) ∧
    find48 (update childIndex byte emptyMarker) (update slots (childIndex byte) none) =
      update (find48 childIndex slots) byte none := by
  have apart : ∀ other, other ≠ byte → childIndex other ≠ emptyMarker → childIndex other ≠ childIndex byte := by
    intro other different there same
    exact different (valid.different other byte there same)
  refine ⟨⟨fun other there => ?_, fun other third there same => ?_, fun place there => ?_, ?_⟩, ?_⟩
  · by_cases equal : other = byte
    · simp [equal] at there
    · rw [update_of_ne equal] at there ⊢
      rw [update_of_ne (apart other equal there)]
      exact valid.occupied other there
  · by_cases equal : other = byte
    · simp [equal] at there
    rw [update_of_ne equal] at there same
    by_cases equalThird : third = byte
    · rw [equalThird, update_self] at same
      exact absurd same there
    · rw [update_of_ne equalThird] at same
      exact valid.different other third there same
  · by_cases equal : place = childIndex byte
    · simp [equal] at there
    rw [update_of_ne equal] at there
    obtain ⟨bound, other, found⟩ := valid.indexed place there
    refine ⟨bound, other, ?_⟩
    rw [update_of_ne, found]
    rintro rfl
    exact equal found.symm
  · rw [filter_update (· ≠ emptyMarker), if_neg (by simp), Finset.card_erase_of_mem (by simp [present]), valid.count]
  · rw [← valid.find48_update present]
    funext other
    by_cases equal : other = byte
    · simp [find48, equal]
    · simp [find48, equal]

theorem Slots.replace (added : Child) (present : childIndex byte ≠ emptyMarker) :
    Slots childIndex (update slots (childIndex byte) (some added)) count ∧
    find48 childIndex (update slots (childIndex byte) (some added)) =
      update (find48 childIndex slots) byte (some added) := by
  refine ⟨⟨fun other there => ?_, valid.different, fun place there => ?_, valid.count⟩, valid.find48_update present _⟩
  · refine ⟨(valid.occupied other there).1, ?_⟩
    by_cases equal : childIndex other = childIndex byte
    · simp [equal]
    · rw [update_of_ne equal]
      exact (valid.occupied other there).2
  · by_cases equal : place = childIndex byte
    · exact ⟨equal ▸ (valid.occupied byte present).1, byte, equal.symm⟩
    · rw [update_of_ne equal] at there
      exact valid.indexed place there

theorem Slots.exists_free (room : count < 48) : ∃ slot, slot < 48 ∧ slots slot = none := by
  by_contra full
  push Not at full
  have covered : Finset.range 48 ⊆ (Finset.univ.filter fun byte => childIndex byte ≠ emptyMarker).image childIndex := by
    intro slot inside
    have bound := Finset.mem_range.mp inside
    obtain ⟨_, byte, found⟩ := valid.indexed slot (isSome_iff_ne_none.mpr (full slot bound))
    refine Finset.mem_image.mpr ⟨byte, ?_, found⟩
    simp only [Finset.mem_filter, Finset.mem_univ, true_and, found]
    exact ne_of_lt bound
  have many := (Finset.card_le_card covered).trans Finset.card_image_le
  rw [Finset.card_range, ← valid.count] at many
  omega

end

theorem firstEmpty_spec {fuel position : Nat} (free : ∃ slot, position ≤ slot ∧
    slot < position + fuel ∧ slots slot = none) : slots (firstEmpty slots fuel position) = none ∧
      firstEmpty slots fuel position < position + fuel := by
  induction fuel generalizing position with
  | zero =>
    obtain ⟨slot, lower, upper, _⟩ := free
    omega
  | succ fuel ih =>
    obtain ⟨slot, lower, upper, empty⟩ := free
    rw [firstEmpty]
    split
    next taken =>
      have further : slot ≠ position := by
        rintro rfl
        rw [empty] at taken
        cases taken
      obtain ⟨found, bound⟩ := @ih (position + 1) ⟨slot, by omega, by omega, empty⟩
      exact ⟨found, by omega⟩
    next taken =>
      exact ⟨by simpa using taken, by omega⟩

theorem Slots.fill {position : Nat} (valid : Slots childIndex slots position)
    (ordered : Ordered entries) (free : ∀ slot, position ≤ slot → slots slot = none)
    (fresh : ∀ entry ∈ entries, childIndex entry.1 = emptyMarker)
    (room : position + entries.length ≤ 48) :
    Slots (fillSlots position entries (childIndex, slots)).1
      (fillSlots position entries (childIndex, slots)).2 (position + entries.length) ∧
    find48 (fillSlots position entries (childIndex, slots)).1 (fillSlots position entries (childIndex, slots)).2 =
      fun byte => (findEntry byte entries).or (find48 childIndex slots byte) := by
  induction entries generalizing position childIndex slots with
  | nil => exact ⟨valid, by simp [fillSlots, findEntry]⟩
  | cons entry rest ih =>
    obtain ⟨byte, child⟩ := entry
    obtain ⟨below, later⟩ := pairwise_cons.mp ordered
    rw [length_cons] at room
    have empty := fresh (byte, child) mem_cons_self
    obtain ⟨filled, found⟩ := valid.insert child empty (free position (le_refl _)) (by omega)
    have nextFree : ∀ slot, position + 1 ≤ slot → update slots position (some child) slot = none := by
      intro slot above
      rw [update_of_ne (by omega)]
      exact free slot (by omega)
    have nextFresh : ∀ entry ∈ rest, update childIndex byte position entry.1 =
        emptyMarker := by
      intro entry inside
      rw [update_of_ne (Fin.ne_of_gt (below entry inside))]
      exact fresh entry (mem_cons_of_mem _ inside)
    obtain ⟨all, foundAll⟩ := ih filled later nextFree nextFresh (by omega)
    rw [fillSlots, length_cons, ← Nat.add_assoc, Nat.add_right_comm]
    refine ⟨all, foundAll.trans ?_⟩
    funext other
    rw [found, findEntry]
    by_cases equal : byte = other
    · have none : findEntry other rest = none := findEntry_below (equal ▸ below)
      simp [equal, none]
    · simp [equal, Ne.symm equal]

include ordered in
theorem fillSlots_spec (room : entries.length ≤ 48) :
    Slots (fillSlots 0 entries emptySlots).1 (fillSlots 0 entries emptySlots).2 entries.length ∧
    find48 (fillSlots 0 entries emptySlots).1 (fillSlots 0 entries emptySlots).2 =
      fun byte => findEntry byte entries := by
  obtain ⟨valid, found⟩ := Slots.empty.fill ordered (fun _ _ => rfl) (fun _ _ => rfl) (by rwa [Nat.zero_add])
  rw [Nat.zero_add] at valid
  refine ⟨valid, found.trans ?_⟩
  funext byte
  simp [find48]

end

/-! Inserting, changing and erasing a child -/

variable {count : Nat}

theorem insert256_spec (counted : count = (keys find).card)
    (enough : 36 ≤ count) (fresh : find byte = none) : (insert256 byte added find count).Valid ∧
      (fun other => (insert256 byte added find count).find other) = update find byte (some added) := by
  refine ⟨⟨?_, by omega⟩, rfl⟩
  rw [card_keys_insert fresh, counted]

theorem insert48_spec {childIndex : Byte → Nat} {slots : Nat → Option Child}
    (valid : Slots childIndex slots count) (added : Child) (enough : 12 ≤ count) (small : count ≤ 48)
    (fresh : find48 childIndex slots byte = none) :
    (insert48 byte added childIndex slots count).Valid ∧
      (fun other => (insert48 byte added childIndex slots count).find other) =
        update (find48 childIndex slots) byte (some added) := by
  rw [insert48]
  split
  next room =>
    have chosen : slots (if (slots count).isSome then firstEmpty slots 48 0 else count) = none ∧
        (if (slots count).isSome then firstEmpty slots 48 0 else count) < 48 := by
      split
      · obtain ⟨slot, bound, free⟩ := valid.exists_free room
        have found := @firstEmpty_spec _ slots 48 0 ⟨slot, by omega, by omega, free⟩
        rwa [Nat.zero_add] at found
      next taken =>
        exact ⟨by simpa using taken, room⟩
    obtain ⟨filled, found⟩ := valid.insert added (valid.find48_eq_none.mp fresh) chosen.1 chosen.2
    exact ⟨⟨filled, by omega, by omega⟩, found⟩
  · have full : count = 48 := by omega
    exact insert256_spec valid.count_keys (by omega) fresh

include ordered in
theorem insert16_spec (enough : 3 ≤ entries.length)
    (small : entries.length ≤ 16) (fresh : findEntry byte entries = none) :
    (insert16 byte added entries).Valid ∧ (fun other => (insert16 byte added entries).find other) =
      update (fun other => findEntry other entries) byte (some added) := by
  rw [insert16]
  split
  · have length := @length_insertEntry _ byte added entries
    exact ⟨⟨ordered.insertEntry added fresh, by omega, by omega⟩, findEntry_insertEntry ordered fresh⟩
  · obtain ⟨valid, found⟩ := fillSlots_spec ordered (by omega)
    have result := insert48_spec valid added (by omega) (by omega) (by rw [found]; exact fresh)
    rwa [found] at result

include ordered in
theorem insert4_spec (enough : 1 ≤ entries.length)
    (small : entries.length ≤ 4) (fresh : findEntry byte entries = none) :
    (insert4 byte added entries).Valid ∧ (fun other => (insert4 byte added entries).find other) =
      update (fun other => findEntry other entries) byte (some added) := by
  rw [insert4]
  split
  · have length := @length_insertEntry _ byte added entries
    exact ⟨⟨ordered.insertEntry added fresh, by omega, by omega⟩, findEntry_insertEntry ordered fresh⟩
  · exact insert16_spec ordered (by omega) (by omega) fresh

variable {layout : NodeLayout Child}

theorem Valid.insertChild (valid : layout.Valid) (fresh : layout.find byte = none) :
    (layout.insertChild byte added).Valid ∧ (fun other => (layout.insertChild byte added).find other) =
      update (fun other => layout.find other) byte (some added) := by
  cases layout with
  | node4 entries => exact insert4_spec valid.1 (by have := valid.2.1; omega) valid.2.2 fresh
  | node16 entries => exact insert16_spec valid.1 (by have := valid.2.1; omega) valid.2.2 fresh
  | node48 childIndex slots count =>
    exact insert48_spec valid.1 added (by have := valid.2.1; omega) valid.2.2 fresh
  | node256 child count => exact insert256_spec valid.1 (by have := valid.2; omega) fresh

theorem Valid.replace (valid : layout.Valid) (present : layout.find byte ≠ none) :
    (layout.replace byte added).Valid ∧ (fun other => (layout.replace byte added).find other) =
      update (fun other => layout.find other) byte (some added) := by
  cases layout with
  | node4 entries | node16 entries =>
    have kept := replaceEntry_keys added present
    have length : (replaceEntry byte added entries).length = entries.length := by
      simpa using congrArg length kept
    refine ⟨⟨?_, length ▸ valid.2.1, length ▸ valid.2.2⟩, ?_⟩
    · rw [ordered_iff_keys, kept, ← ordered_iff_keys]
      exact valid.1
    · funext other
      rw [update_apply]
      exact findEntry_replaceEntry present
  | node48 childIndex slots count =>
    obtain ⟨replaced, found⟩ := valid.1.replace added fun empty => present (valid.1.find48_eq_none.mpr empty)
    exact ⟨⟨replaced, valid.2⟩, found⟩
  | node256 child count => exact ⟨⟨valid.1.trans (card_keys_replace present).symm, valid.2⟩, rfl⟩

def Shrinks (find : Byte → Option Child) : Shrunk Child → Prop
  | .kept left => left.Valid ∧ (fun other => left.find other) = find
  | .oneWay last child => find = update (fun _ => none) last (some child)

include ordered in
theorem erase4_shrinks (enough : 2 ≤ entries.length)
    (small : entries.length ≤ 4) (present : findEntry byte entries ≠ none) :
    Shrinks (update (fun other => findEntry other entries) byte none) (erase4 byte entries) := by
  have length := length_eraseEntry present
  have sorted : Ordered (eraseEntry byte entries) := List.Pairwise.sublist eraseEntry_sublist ordered
  rw [← findEntry_eraseEntry ordered, erase4]
  cases left : eraseEntry byte entries with
  | nil =>
    rw [left] at length
    simp only [length_nil] at length
    omega
  | cons first rest =>
    cases rest with
    | nil =>
      funext other
      simp [findEntry, update_apply, eq_comm]
    | cons second rest =>
      rw [left] at length sorted
      simp only [length_cons] at length
      refine ⟨⟨sorted, ?_, ?_⟩, rfl⟩
      · simp
      · simp only [length_cons]
        omega

theorem Valid.eraseChild (valid : layout.Valid) (present : layout.find byte ≠ none) :
    Shrinks (update (fun other => layout.find other) byte none) (layout.eraseChild byte) := by
  cases layout with
  | node4 entries => exact erase4_shrinks valid.1 valid.2.1 valid.2.2 present
  | node16 entries =>
    obtain ⟨ordered, enough, small⟩ := valid
    have length := length_eraseEntry present
    have sorted : Ordered (eraseEntry byte entries) := List.Pairwise.sublist eraseEntry_sublist ordered
    have found := @findEntry_eraseEntry _ byte _ ordered
    rw [NodeLayout.eraseChild]
    split
    · exact ⟨⟨sorted, by omega, by omega⟩, found⟩
    · exact ⟨⟨sorted, by omega, by omega⟩, found⟩
  | node48 childIndex slots count =>
    obtain ⟨valid, enough, small⟩ := valid
    obtain ⟨left, found⟩ := valid.erase fun empty => present (valid.find48_eq_none.mpr empty)
    rw [NodeLayout.eraseChild]
    split
    · refine ⟨⟨ordered_collect _, ?_, ?_⟩, ?_⟩
      · rw [length_collect]
        exact (by omega : 4 ≤ count - 1).trans left.count_keys.le
      · rw [length_collect]
        exact left.count_keys.ge.trans (by omega)
      · refine Eq.trans ?_ found
        funext other
        exact findEntry_collect other
    · exact ⟨⟨left, by omega, by omega⟩, found⟩
  | node256 child count =>
    obtain ⟨counted, enough⟩ := valid
    have fewer := card_keys_erase present
    rw [NodeLayout.eraseChild]
    split
    · have length := length_collect (update child byte none)
      obtain ⟨filled, found⟩ := fillSlots_spec (ordered_collect (update child byte none)) (by omega)
      refine ⟨⟨filled, by omega, by omega⟩, found.trans ?_⟩
      funext other
      exact findEntry_collect other
    · exact ⟨⟨by omega, by omega⟩, rfl⟩

theorem replace_self (found : layout.find byte = some child) : layout.replace byte child = layout := by
  have entries : ∀ list : List (Byte × Child), findEntry byte list = some child →
      replaceEntry byte child list = list := by
    intro list
    induction list with
    | nil => exact fun _ => rfl
    | cons entry rest ih =>
      intro there
      by_cases same : entry.1 = byte
      · rw [findEntry, if_pos same, some.injEq] at there
        rw [replaceEntry, if_pos same, ← same, ← there]
      · rw [findEntry, if_neg same] at there
        rw [replaceEntry, if_neg same, ih there]
  cases layout with
  | node4 list | node16 list => rw [NodeLayout.replace, entries list found]
  | node48 childIndex slots count =>
    rw [find] at found
    split at found
    · cases found
    · rw [NodeLayout.replace, ← found, update_eq_self]
  | node256 children count =>
    rw [find] at found
    rw [NodeLayout.replace, ← found, update_eq_self]

theorem exists_of_card_keys (positive : 0 < (keys find).card) : ∃ byte child, find byte = some child := by
  obtain ⟨byte, inside⟩ := Finset.card_pos.mp positive
  rw [keys, Finset.mem_filter, isSome_iff_exists] at inside
  exact ⟨byte, inside.2⟩

theorem Valid.exists_child (valid : layout.Valid) : ∃ byte child, layout.find byte = some child := by
  refine exists_of_card_keys ?_
  cases layout with
  | node4 entries | node16 entries =>
    obtain ⟨ordered, enough, _⟩ := valid
    have count := card_keys_entries ordered
    change 0 < (keys fun byte => findEntry byte entries).card
    omega
  | node48 childIndex slots count =>
    obtain ⟨valid, enough, _⟩ := valid
    have counted := valid.count_keys
    change 0 < (keys (find48 childIndex slots)).card
    omega
  | node256 children count =>
    obtain ⟨counted, enough⟩ := valid
    change 0 < (keys children).card
    omega

end NodeLayout

end GuinsooDB
