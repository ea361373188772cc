import Mathlib.Data.Nat.Basic
import Mathlib.Logic.Function.Basic

/-!
Ranges of positions over cells that each hold a block of `size` positions. A change of a
range changes every block that it touches, each on the part that lies in the range.
-/

namespace BlockRange

open Function

variable {C : Type*} {size start middle stop : Nat}

def Touches (size start stop block : Nat) : Prop :=
  block * size < stop ∧ start < block * size + size

instance (size start stop block : Nat) : Decidable (Touches size start stop block) :=
  inferInstanceAs (Decidable (_ ∧ _))

def lower (size start block : Nat) : Nat := start - block * size

def upper (size stop block : Nat) : Nat := min (stop - block * size) size

variable {block : Nat}

theorem mem_range_iff {offset : Nat} (inside : offset < size) :
    (start ≤ block * size + offset ∧ block * size + offset < stop) ↔
      Touches size start stop block ∧ lower size start block ≤ offset ∧ offset < upper size stop block := by
  unfold Touches lower upper
  omega

theorem lower_lt_upper (positive : 0 < size) (nonempty : start < stop)
    (touches : Touches size start stop block) : lower size start block < upper size stop block := by
  obtain ⟨below, above⟩ := touches
  unfold lower upper
  omega

theorem upper_le {stop block : Nat} : upper size stop block ≤ size := Nat.min_le_right _ _

def Applied (size : Nat) (change : Nat → Nat → C → C → Prop) (start stop : Nat)
    (before after : Nat → C) : Prop :=
  ∀ block, (Touches size start stop block →
      change (lower size start block) (upper size stop block) (before block) (after block)) ∧
    (¬Touches size start stop block → after block = before block)

def Each (size : Nat) (condition : Nat → Nat → C → Prop) (start stop : Nat) (cells : Nat → C) :
    Prop :=
  ∀ block, Touches size start stop block →
    condition (lower size start block) (upper size stop block) (cells block)

variable {change : Nat → Nat → C → C → Prop} {before between after : Nat → C}

/-! A range that is split at the border of a block -/

variable {count : Nat}

theorem lt_of_touches_left (touches : Touches size start (count * size) block) : block < count :=
  Nat.lt_of_mul_lt_mul_right touches.1

theorem le_of_touches_right (touches : Touches size (count * size) stop block) : count ≤ block := by
  by_contra before
  have border := Nat.mul_le_mul_right size (Nat.succ_le_of_lt (Nat.lt_of_not_le before))
  rw [Nat.succ_mul] at border
  exact absurd touches.2 (not_lt.mpr border)

theorem touches_left {start : Nat} (positive : 0 < size) (before : block < count) (nonempty : count * size < stop) :
    (Touches size start (count * size) block ↔ Touches size start stop block) ∧
      upper size (count * size) block = upper size stop block := by
  have border := Nat.mul_le_mul_right size (Nat.succ_le_of_lt before)
  rw [Nat.succ_mul] at border
  unfold Touches upper
  omega

theorem touches_right {stop : Nat} (positive : 0 < size) (behind : count ≤ block) (ordered : start ≤ count * size) :
    (Touches size (count * size) stop block ↔ Touches size start stop block) ∧
      lower size (count * size) block = lower size start block := by
  have border := Nat.mul_le_mul_right size behind
  unfold Touches lower
  omega

variable {condition : Nat → Nat → C → Prop} {cells : Nat → C}

theorem Each.left (each : Each size condition start stop cells) (positive : 0 < size) (nonempty : count * size < stop) :
    Each size condition start (count * size) cells := by
  intro block touches
  obtain ⟨touched, sameUpper⟩ := touches_left positive (lt_of_touches_left touches) nonempty
  rw [sameUpper]
  exact each block (touched.mp touches)

theorem Each.right (each : Each size condition start stop cells)
    (positive : 0 < size) (ordered : start ≤ count * size) :
    Each size condition (count * size) stop cells := by
  intro block touches
  obtain ⟨touched, sameLower⟩ := touches_right positive (le_of_touches_right touches) ordered
  rw [sameLower]
  exact each block (touched.mp touches)

theorem Each.right_of_applied (count : Nat) (each : Each size condition start stop before)
    (positive : 0 < size) (ordered : start ≤ count * size)
    (applied : Applied size change start (count * size) before after) :
    Each size condition (count * size) stop after := by
  intro block touches
  have behind := le_of_touches_right touches
  rw [(applied block).2 fun touched => not_lt.mpr behind (lt_of_touches_left touched)]
  exact each.right positive ordered block touches

theorem Applied.append (positive : 0 < size) (first : Applied size change start (count * size) before between)
    (second : Applied size change (count * size) stop between after)
    (ordered : start ≤ count * size) (nonempty : count * size < stop) :
    Applied size change start stop before after := by
  intro block
  rcases lt_or_ge block count with left | right
  · obtain ⟨touched, sameUpper⟩ := touches_left positive left nonempty
    rw [(second block).2 fun touches => not_le.mpr left (le_of_touches_right touches), ← touched, ← sameUpper]
    exact first block
  · obtain ⟨touched, sameLower⟩ := touches_right positive right ordered
    rw [← (first block).2 fun touches => not_lt.mpr right (lt_of_touches_left touches), ← touched, ← sameLower]
    exact second block

def loop (change : Nat → C → Option C) : Nat → Nat → (Nat → C) → Option (Nat → C)
  | 0, _, cells => some cells
  | count + 1, block, cells =>
    (change block (cells block)).bind fun changed =>
      loop change count (block + 1) (Function.update cells block changed)

theorem loop_eq_some (change : Nat → C → Option C) (first : Nat) {count : Nat} (cells : Nat → C)
    (defined : ∀ block, first ≤ block → block < first + count → (change block (cells block)).isSome) :
    ∃ changed, loop change count first cells = some changed ∧ ∀ block,
      (first ≤ block ∧ block < first + count → change block (cells block) = some (changed block)) ∧
        (¬(first ≤ block ∧ block < first + count) → changed block = cells block) := by
  induction count generalizing first cells with
  | zero =>
    refine ⟨cells, rfl, fun block => ⟨?_, fun _ => rfl⟩⟩
    omega
  | succ count ih =>
    obtain ⟨cell, here⟩ := Option.isSome_iff_exists.mp (defined first (le_refl _) (by omega))
    have rest : ∀ block, first + 1 ≤ block → block < first + 1 + count →
        (change block (update cells first cell block)).isSome := by
      intro block low high
      rw [update_of_ne (by omega)]
      exact defined block (by omega) (by omega)
    obtain ⟨changed, ran, spec⟩ := ih _ _ rest
    refine ⟨changed, by rw [loop, here]; exact ran, fun block => ?_⟩
    obtain ⟨later, outside⟩ := spec block
    by_cases same : block = first
    · subst block
      have unchanged := outside (by omega)
      rw [update_self] at unchanged
      exact ⟨fun _ => by rw [here, unchanged], fun missed => by omega⟩
    · rw [update_of_ne same] at later outside
      exact ⟨fun inside => later (by omega), fun missed => outside (by omega)⟩

end BlockRange
