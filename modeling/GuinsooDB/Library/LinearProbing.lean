import Mathlib.Data.Fintype.Card
import Mathlib.Logic.Function.Basic

/-!
Linear probing without removal: numbered entries lie in a ring of slots, each reachable from
its home over slots that are all taken.
-/

namespace LinearProbing

open Function Option

def place (capacity home steps : Nat) : Nat := (home + steps) % capacity

def advance (capacity offset : Nat) : Nat :=
  if offset + 1 ≥ capacity then 0 else offset + 1

variable {capacity : Nat}

theorem place_lt (positive : 0 < capacity) (home steps : Nat) : place capacity home steps < capacity :=
  Nat.mod_lt _ positive

theorem place_zero {home : Nat} (inside : home < capacity) : place capacity home 0 = home := Nat.mod_eq_of_lt inside

theorem advance_place (positive : 0 < capacity) (home steps : Nat) :
    advance capacity (place capacity home steps) = place capacity home (steps + 1) := by
  have bound := place_lt positive home steps
  have shifted : place capacity home (steps + 1) = (place capacity home steps + 1) % capacity := by
    unfold place
    rw [Nat.mod_add_mod, Nat.add_assoc]
  rw [shifted, advance]
  split
  · have last : place capacity home steps + 1 = capacity := by omega
    rw [last, Nat.mod_self]
  · rw [Nat.mod_eq_of_lt (by omega)]

theorem exists_place {home slot : Nat} (homeInside : home < capacity) (inside : slot < capacity) :
    ∃ steps < capacity, place capacity home steps = slot := by
  by_cases ahead : home ≤ slot
  · refine ⟨slot - home, by omega, ?_⟩
    rw [place, Nat.add_sub_cancel' ahead, Nat.mod_eq_of_lt inside]
  · refine ⟨slot + capacity - home, by omega, ?_⟩
    have around : home + (slot + capacity - home) = slot + capacity := by omega
    rw [place, around, Nat.add_mod_right, Nat.mod_eq_of_lt inside]

def Filled (slots : Nat → Option Nat) (capacity home steps : Nat) : Prop :=
  ∀ before < steps, slots (place capacity home before) ≠ none

/-- Each of the entries below `count` has one slot, and is reachable from its home. -/
structure Sound (slots : Nat → Option Nat) (capacity count : Nat) (home : Nat → Nat) : Prop where
  bounded : ∀ slot entry, slots slot = some entry → slot < capacity ∧ entry < count
  path : ∀ slot entry, slots slot = some entry →
    ∃ steps, slot = place capacity (home entry) steps ∧ Filled slots capacity (home entry) steps
  single : ∀ slot other entry, slots slot = some entry → slots other = some entry → slot = other
  found : ∀ entry < count, ∃ slot, slots slot = some entry

namespace Sound

variable {slots : Nat → Option Nat} {capacity count : Nat} {home : Nat → Nat}

theorem empty (capacity : Nat) (home : Nat → Nat) : Sound (fun _ => none) capacity 0 home where
  bounded := by simp
  path := by simp
  single := by simp
  found := by simp

variable (sound : Sound slots capacity count home)
include sound

theorem congr_home {other : Nat → Nat} (same : ∀ entry < count, other entry = home entry) :
    Sound slots capacity count other where
  bounded := sound.bounded
  path := by
    intro slot entry taken
    rw [same entry (sound.bounded slot entry taken).2]
    exact sound.path slot entry taken
  single := sound.single
  found := sound.found

theorem exists_empty (room : count < capacity) : ∃ slot < capacity, slots slot = none := by
  by_contra full
  push Not at full
  have taken (slot : Fin capacity) : ∃ entry : Fin count, slots slot = some entry.val := by
    obtain ⟨entry, found⟩ := ne_none_iff_exists'.mp (full slot slot.isLt)
    exact ⟨⟨entry, (sound.bounded slot entry found).2⟩, found⟩
  choose entryOf entryEq using taken
  have injective : Function.Injective entryOf := by
    intro first second same
    have secondEq := entryEq second
    rw [← same] at secondEq
    exact Fin.ext (sound.single _ _ _ (entryEq first) secondEq)
  have enough := Fintype.card_le_of_injective entryOf injective
  simp only [Fintype.card_fin] at enough
  omega

theorem filled_lt (room : count < capacity) {start steps : Nat} (inside : start < capacity)
    (filled : Filled slots capacity start steps) : steps < capacity := by
  obtain ⟨slot, slotInside, none⟩ := sound.exists_empty room
  obtain ⟨distance, near, there⟩ := exists_place inside slotInside
  by_contra far
  exact filled distance (by omega) (there ▸ none)

theorem insert {slot steps : Nat} (inside : slot < capacity) (empty : slots slot = none)
    (there : slot = place capacity (home count) steps)
    (filled : Filled slots capacity (home count) steps) :
    Sound (update slots slot (some count)) capacity (count + 1) home := by
  have kept {start distance : Nat} (before : Filled slots capacity start distance) :
      Filled (update slots slot (some count)) capacity start distance := by
    intro earlier near
    by_cases same : place capacity start earlier = slot
    · rw [same, update_self]
      simp
    · rw [update_of_ne same]
      exact before earlier near
  have old {other entry : Nat} (taken : update slots slot (some count) other = some entry) :
      other = slot ∧ entry = count ∨ other ≠ slot ∧ slots other = some entry := by
    by_cases same : other = slot
    · rw [same, update_self] at taken
      exact .inl ⟨same, (some.inj taken).symm⟩
    · rw [update_of_ne same] at taken
      exact .inr ⟨same, taken⟩
  constructor
  · intro other entry taken
    rcases old taken with ⟨rfl, rfl⟩ | ⟨_, before⟩
    · exact ⟨inside, Nat.lt_succ_self _⟩
    · have bounds := sound.bounded other entry before
      exact ⟨bounds.1, Nat.lt_succ_of_lt bounds.2⟩
  · intro other entry taken
    rcases old taken with ⟨rfl, rfl⟩ | ⟨_, before⟩
    · exact ⟨steps, there, kept filled⟩
    · obtain ⟨distance, place, path⟩ := sound.path other entry before
      exact ⟨distance, place, kept path⟩
  · intro first second entry firstTaken secondTaken
    rcases old firstTaken with ⟨rfl, rfl⟩ | ⟨_, firstBefore⟩
    · rcases old secondTaken with ⟨same, _⟩ | ⟨_, secondBefore⟩
      · exact same.symm
      · have bound := (sound.bounded second _ secondBefore).2
        omega
    · rcases old secondTaken with ⟨_, rfl⟩ | ⟨_, secondBefore⟩
      · have bound := (sound.bounded first _ firstBefore).2
        omega
      · exact sound.single first second entry firstBefore secondBefore
  · intro entry below
    by_cases new : entry = count
    · exact ⟨slot, by rw [new, update_self]⟩
    obtain ⟨other, taken⟩ := sound.found entry (by omega)
    have apart : other ≠ slot := by
      intro same
      rw [same, empty] at taken
      cases taken
    exact ⟨other, by rw [update_of_ne apart, taken]⟩

end Sound

end LinearProbing
