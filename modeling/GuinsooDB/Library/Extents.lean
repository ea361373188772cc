import Mathlib.Data.List.Basic

/-!
Lists of extents, each with the row where it starts and the number of rows it holds, that
follow each other without a gap; and cursors that walk over them in steps of one unit.
-/

namespace Extents

open List

variable {α : Type*} {start count : α → Nat} {first row unit : Nat} {extent next : α}
  {extents front later : List α}

def Contiguous (start count : α → Nat) : Nat → List α → Prop
  | _, [] => True
  | row, extent :: rest => start extent = row ∧ Contiguous start count (row + count extent) rest

def stop (count : α → Nat) : Nat → List α → Nat
  | row, [] => row
  | row, extent :: rest => stop count (row + count extent) rest

def Holds (start count : α → Nat) (extent : α) (row : Nat) : Prop :=
  start extent ≤ row ∧ row < start extent + count extent

instance (extent : α) (row : Nat) : Decidable (Holds start count extent row) :=
  inferInstanceAs (Decidable (_ ∧ _))

theorem stop_append : stop count row (front ++ later) = stop count (stop count row front) later := by
  induction front generalizing row with
  | nil => rfl
  | cons extent rest ih => exact ih

theorem le_stop : row ≤ stop count row extents := by
  induction extents generalizing row with
  | nil => exact Nat.le_refl row
  | cons extent rest ih =>
    have later : row + count extent ≤ stop count (row + count extent) rest := ih
    rw [stop]
    omega

theorem contiguous_append : Contiguous start count row (front ++ later) ↔
    Contiguous start count row front ∧ Contiguous start count (stop count row front) later := by
  induction front generalizing row with
  | nil => exact ⟨fun holds => ⟨trivial, holds⟩, fun holds => holds.2⟩
  | cons extent rest ih =>
    rw [cons_append, Contiguous, Contiguous, stop, ih, and_assoc]

theorem stop_concat (contiguous : Contiguous start count row (front ++ [extent])) :
    stop count row (front ++ [extent]) = start extent + count extent := by
  rw [stop_append, stop, stop, (contiguous_append.mp contiguous).2.1]

theorem start_eq (contiguous : Contiguous start count row (front ++ extent :: later)) :
    start extent = stop count row front :=
  (contiguous_append.mp contiguous).2.1

theorem end_le_stop (contiguous : Contiguous start count row (front ++ extent :: later)) :
    start extent + count extent ≤ stop count row (front ++ extent :: later) := by
  rw [stop_append, stop, start_eq contiguous]
  exact le_stop

theorem end_le_stop_of_mem (contiguous : Contiguous start count row extents)
    (member : extent ∈ extents) : start extent + count extent ≤ stop count row extents := by
  obtain ⟨front, later, rfl⟩ := append_of_mem member
  exact end_le_stop contiguous

variable {β : Type*} {change : β → α} {others : List β}

theorem contiguous_map :
    Contiguous start count row (others.map change) ↔ Contiguous (start ∘ change) (count ∘ change) row others := by
  induction others generalizing row with
  | nil => exact Iff.rfl
  | cons other rest ih =>
    rw [map_cons, Contiguous, Contiguous, ih]
    rfl

theorem stop_map : stop count row (others.map change) = stop (count ∘ change) row others := by
  induction others generalizing row with
  | nil => rfl
  | cons other rest ih => exact ih

theorem exists_holds (contiguous : Contiguous start count first extents) (after : first ≤ row)
    (before : row < stop count first extents) :
    ∃ front extent later, extents = front ++ extent :: later ∧ Holds start count extent row := by
  induction extents generalizing first with
  | nil =>
    rw [stop] at before
    omega
  | cons extent rest ih =>
    by_cases inside : row < first + count extent
    · refine ⟨[], extent, rest, rfl, ?_⟩
      rw [Holds, contiguous.1]
      exact ⟨after, inside⟩
    · obtain ⟨front, found, later, split, holds⟩ := ih contiguous.2 (by omega) before
      exact ⟨extent :: front, found, later, by rw [split, cons_append], holds⟩

variable {earlier : α}

theorem end_le_start {between : List α}
    (contiguous : Contiguous start count row (front ++ earlier :: (between ++ extent :: later))) :
    start earlier + count earlier ≤ start extent := by
  have tail := (contiguous_append.mp contiguous).2
  have starts : start extent = stop count (stop count row front + count earlier) between := start_eq tail.2
  rw [starts, tail.1]
  exact le_stop

variable {target index : Nat}

section

variable (contiguous : Contiguous start count first extents)
include contiguous

theorem end_le_start_of_lt (order : index < target)
    (atIndex : extents[index]? = some earlier) (atTarget : extents[target]? = some extent) :
    start earlier + count earlier ≤ start extent := by
  obtain ⟨indexBound, rfl⟩ := List.getElem?_eq_some_iff.mp atIndex
  obtain ⟨targetBound, rfl⟩ := List.getElem?_eq_some_iff.mp atTarget
  have whole : extents = extents.take index ++ extents[index] ::
      ((extents.drop (index + 1)).take (target - index - 1) ++ extents[target] :: extents.drop (target + 1)) := by
    have tail : extents.drop (index + 1) = (extents.drop (index + 1)).take (target - index - 1) ++
          extents[target] :: extents.drop (target + 1) := by
      have rejoined : extents.drop target = extents[target] :: extents.drop (target + 1) :=
        drop_eq_getElem_cons targetBound
      rw [← rejoined]
      have later : extents.drop target = (extents.drop (index + 1)).drop (target - index - 1) := by
        rw [drop_drop]
        congr 1
        omega
      rw [later, take_append_drop]
    rw [← tail, ← drop_eq_getElem_cons indexBound, take_append_drop]
  rw [whole] at contiguous
  exact end_le_start contiguous

variable (atIndex : extents[index]? = some next) (atTarget : extents[target]? = some extent)
include atIndex atTarget

theorem lt_of_row_lt_start (holds : Holds start count extent row) (before : row < start next) : target < index := by
  have starts := holds.1
  rcases Nat.lt_trichotomy target index with earlier | same | later
  · exact earlier
  · rw [same, atIndex] at atTarget
    cases atTarget
    omega
  · have apart := end_le_start_of_lt contiguous later atIndex atTarget
    omega

theorem lt_of_end_le_row (holds : Holds start count extent row)
    (after : start next + count next ≤ row) : index < target := by
  have stops := holds.2
  rcases Nat.lt_trichotomy target index with earlier | same | later
  · have apart := end_le_start_of_lt contiguous earlier atTarget atIndex
    omega
  · rw [same, atIndex] at atTarget
    cases atTarget
    omega
  · exact later

theorem holds_unique (here : Holds start count next row) (there : Holds start count extent row) : index = target := by
  obtain ⟨starts, stops⟩ := here
  obtain ⟨otherStarts, otherStops⟩ := there
  rcases Nat.lt_trichotomy index target with earlier | same | later
  · have apart := end_le_start_of_lt contiguous earlier atIndex atTarget
    omega
  · exact same
  · have apart := end_le_start_of_lt contiguous later atTarget atIndex
    omega

end

/-! Extents that hold whole units, all but the last -/

structure Tiled (start count : α → Nat) (unit : Nat) (extents : List α) : Prop where
  contiguous : Contiguous start count 0 extents
  whole : ∀ extent ∈ extents.dropLast, unit ∣ count extent ∧ 0 < count extent

theorem Tiled.nil : Tiled start count unit ([] : List α) := ⟨trivial, by simp⟩

theorem Tiled.single (starts : start extent = 0) : Tiled start count unit [extent] := ⟨⟨starts, trivial⟩, by simp⟩

theorem Tiled.replaceLast (tiled : Tiled start count unit (front ++ [extent]))
    (sameStart : start next = start extent) : Tiled start count unit (front ++ [next]) := by
  obtain ⟨frontContiguous, starts⟩ := contiguous_append.mp tiled.contiguous
  refine ⟨contiguous_append.mpr ⟨frontContiguous, ?_⟩, ?_⟩
  · exact ⟨sameStart.trans starts.1, trivial⟩
  · have whole := tiled.whole
    rw [dropLast_concat] at whole ⊢
    exact whole

theorem Tiled.concat (tiled : Tiled start count unit (front ++ [extent]))
    (whole : unit ∣ count extent ∧ 0 < count extent)
    (follows : start next = start extent + count extent) :
    Tiled start count unit (front ++ [extent] ++ [next]) := by
  refine ⟨contiguous_append.mpr ⟨tiled.contiguous, ?_⟩, ?_⟩
  · exact ⟨follows.trans (stop_concat tiled.contiguous).symm, trivial⟩
  have earlier := tiled.whole
  rw [dropLast_concat] at earlier ⊢
  intro other member
  rcases mem_append.mp member with inFront | last
  · exact earlier other inFront
  · cases mem_singleton.mp last
    exact whole

theorem Tiled.of_append (tiled : Tiled start count unit (front ++ later)) : Tiled start count unit front := by
  refine ⟨(contiguous_append.mp tiled.contiguous).1, ?_⟩
  intro extent member
  cases later with
  | nil =>
    have whole := tiled.whole
    rw [append_nil] at whole
    exact whole extent member
  | cons _ _ =>
    refine tiled.whole extent ?_
    rw [dropLast_append_of_ne_nil (by simp)]
    exact mem_append_left _ (dropLast_subset front member)

theorem Tiled.whole_of_later (tiled : Tiled start count unit (front ++ extent :: next :: later)) :
    unit ∣ count extent ∧ 0 < count extent := by
  refine tiled.whole extent ?_
  rw [dropLast_append_of_ne_nil (by simp), dropLast_cons_of_ne_nil (by simp)]
  simp

theorem unit_dvd_stop (aligned : unit ∣ row) (whole : ∀ extent ∈ extents, unit ∣ count extent) :
    unit ∣ stop count row extents := by
  induction extents generalizing row with
  | nil => exact aligned
  | cons extent rest ih =>
    refine ih ?_ (fun other member => whole other (mem_cons_of_mem _ member))
    exact Nat.dvd_add aligned (whole extent mem_cons_self)

theorem Tiled.unit_dvd_start (tiled : Tiled start count unit (front ++ extent :: later)) : unit ∣ start extent := by
  rw [start_eq tiled.contiguous]
  refine unit_dvd_stop (Nat.dvd_zero unit) ?_
  intro other member
  refine (tiled.whole other ?_).1
  rw [dropLast_append_of_ne_nil (by simp)]
  exact mem_append_left _ member

theorem Tiled.unit_end_le (tiled : Tiled start count unit (front ++ extent :: next :: later))
    (before : index * unit < count extent) : (index + 1) * unit ≤ count extent := by
  obtain ⟨⟨units, whole⟩, -⟩ := tiled.whole_of_later
  have between : index < units := by
    refine Nat.lt_of_mul_lt_mul_left (a := unit) ?_
    rw [← whole, Nat.mul_comm unit index]
    exact before
  rw [whole, Nat.mul_comm unit units]
  exact Nat.mul_le_mul_right unit between

structure Stands (start count : α → Nat) (unit : Nat) (extents remaining : List α)
    (index row : Nat) : Prop where
  reached : ∃ front extent later, extents = front ++ extent :: later ∧
    remaining = extent :: later ∧ start extent + index * unit = row ∧
      row < start extent + count extent

section

variable {remaining : List α} (tiled : Tiled start count unit extents)
  (stands : Stands start count unit extents remaining index row)
include tiled stands

theorem Stands.advance (inside : row + unit < stop count 0 extents) :
    ∃ extent rest, remaining = extent :: rest ∧ ((index + 1) * unit < count extent ∧
          Stands start count unit extents remaining (index + 1) (row + unit) ∨
        (index + 1) * unit = count extent ∧ rest ≠ [] ∧ Stands start count unit extents rest 0 (row + unit)) := by
  obtain ⟨front, extent, rest, rfl, rfl, position, before⟩ := stands.reached
  refine ⟨extent, rest, rfl, ?_⟩
  have step : (index + 1) * unit = index * unit + unit := Nat.succ_mul index unit
  by_cases stays : (index + 1) * unit < count extent
  · exact .inl ⟨stays, ⟨front, extent, rest, rfl, rfl, by omega, by omega⟩⟩
  cases rest with
  | nil =>
    rw [stop_concat tiled.contiguous] at inside
    omega
  | cons next later =>
    have enough : (index + 1) * unit ≤ count extent := tiled.unit_end_le (by omega)
    have exactly : (index + 1) * unit = count extent := by omega
    have regrouped : front ++ extent :: next :: later = (front ++ [extent]) ++ next :: later := by
      simp
    have starts : start next = start extent + count extent := by
      have contiguous := tiled.contiguous
      rw [regrouped] at contiguous
      rw [start_eq contiguous, stop_concat (contiguous_append.mp contiguous).1]
    refine .inr ⟨exactly, cons_ne_nil _ _, ⟨front ++ [extent], next, later, regrouped, rfl, by omega, ?_⟩⟩
    cases later with
    | nil =>
      have contiguous := tiled.contiguous
      rw [regrouped] at contiguous inside
      rw [stop_concat contiguous] at inside
      exact inside
    | cons _ _ =>
      rw [regrouped] at tiled
      have := tiled.whole_of_later.2
      omega

theorem Stands.rows : ∃ extent rest, remaining = extent :: rest ∧ start extent + index * unit = row ∧
      min unit (count extent - index * unit) = min unit (stop count 0 extents - row) := by
  obtain ⟨front, extent, rest, rfl, rfl, position, before⟩ := stands.reached
  refine ⟨extent, rest, rfl, position, ?_⟩
  cases rest with
  | nil =>
    rw [stop_concat tiled.contiguous]
    congr 1
    omega
  | cons next later =>
    have inside := end_le_stop tiled.contiguous
    have enough : (index + 1) * unit ≤ count extent := tiled.unit_end_le (by omega)
    rw [Nat.succ_mul] at enough
    omega

end

end Extents
