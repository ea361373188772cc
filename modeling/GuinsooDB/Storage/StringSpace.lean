import GuinsooDB.Library.Transition
import GuinsooDB.Storage.ColumnSegment

/-!
The block of a string segment holds the offsets of its vectors at the front and the dictionary
at the end. The segment keeps them apart by reserving a marker for every slot of the vector
that is being filled. `RevertAppend` gives slots back without dictionary space, so that the
reservation can be lost.
-/

namespace GuinsooDB

open Transition List

namespace ColumnSegment

variable (segment : ColumnSegment)

def usedSpace : Nat :=
  segment.dictionaryOffset + segment.maxVectorCount * ColumnKind.string.vectorSize

def Within : Prop := segment.usedSpace ≤ blockSize

instance (segment : ColumnSegment) : Decidable segment.Within :=
  inferInstanceAs (Decidable (_ ≤ _))

/-- The dictionary is within its space after every write of `writeStrings`. -/
def writesWithin : ColumnSegment → Nat → List Appended → Bool
  | _, _, [] => true
  | segment, remainingStrings, none :: rest => writesWithin segment (remainingStrings - 1) rest
  | segment, remainingStrings, some length :: rest =>
    decide (segment.writeString remainingStrings length).Within &&
      writesWithin (segment.writeString remainingStrings length) (remainingStrings - 1) rest

def expand : ColumnSegment :=
  if segment.count / standardVectorSize = segment.maxVectorCount then
    { segment with maxVectorCount := segment.maxVectorCount + 1 }
  else segment

def appendWithin : Nat → ColumnSegment → List Appended → Bool
  | 0, _, _ => true
  | fuel + 1, segment, values =>
    if values = [] then true
    else if segment.count / standardVectorSize = segment.maxVectorCount ∧
        ¬segment.remainingSpace ≥ standardVectorSize * 32 then true
    else
      writesWithin segment.expand (standardVectorSize - segment.count % standardVectorSize)
          (values.take (appendCount segment.count values.length)) &&
        appendWithin fuel (segment.fillVector values)
          (values.drop (appendCount segment.count values.length))

end ColumnSegment

inductive StringOperation where
  | append (values : List Appended)
  | revertAppend (tupleCount : Nat)
  | toTemporary
  deriving Repr, DecidableEq

namespace StringOperation

variable (segment : ColumnSegment)

def step : StringOperation → ColumnSegment
  | append values => segment.append .string values
  | revertAppend tupleCount => { segment with count := tupleCount }
  | toTemporary => segment.toTransient .string

def writesWithin : StringOperation → Bool
  | append values => segment.appendWithin values.length values
  | _ => true

/-- Slots are given back in the last vector only, and while there is space for a marker in each
slot that is free afterwards. -/
def KeepsReserve : StringOperation → Prop
  | revertAppend tupleCount =>
    tupleCount ≤ segment.count ∧
      segment.maxVectorCount * standardVectorSize ≤ tupleCount + standardVectorSize ∧
        segment.usedSpace + bigStringMarkerSize *
          (segment.maxVectorCount * standardVectorSize - tupleCount) ≤ blockSize
  | _ => True

instance (segment : ColumnSegment) (operation : StringOperation) :
    Decidable (KeepsReserve segment operation) :=
  match operation with
  | append _ => .isTrue trivial
  | revertAppend _ => inferInstanceAs (Decidable (_ ∧ _ ∧ _))
  | toTemporary => .isTrue trivial

end StringOperation

namespace ColumnSegment

def Room (segment : ColumnSegment) (slots : Nat) : Prop :=
  segment.usedSpace + bigStringMarkerSize * slots ≤ blockSize

variable {segment : ColumnSegment} {slots : Nat}

theorem room_iff : segment.Room slots ↔
    segment.dictionaryOffset + segment.maxVectorCount * 4096 + 14 * slots ≤ 262136 := Iff.rfl

theorem Room.within (room : segment.Room slots) : segment.Within := by
  unfold Room at room
  unfold Within
  omega

theorem Room.remainingSpace_eq (room : segment.Room slots) :
    segment.remainingSpace = blockSize - segment.usedSpace := by
  have within := room.within
  unfold Within blockSize at within
  change (blockSize + idxRange - segment.usedSpace % idxRange) % idxRange = _
  unfold blockSize idxRange
  omega

theorem Room.writeString (room : segment.Room (slots + 1)) (stringLength : Nat) :
    (segment.writeString (slots + 1) stringLength).Room slots := by
  have space : segment.remainingSpace =
      262136 - (segment.dictionaryOffset + segment.maxVectorCount * 4096) := room.remainingSpace_eq
  rw [room_iff] at room ⊢
  rw [ColumnSegment.writeString]
  split
  · unfold bigStringMarkerSize
    dsimp only
    omega
  · next fits =>
      unfold bigStringMarkerSize bigStringMarkerBaseSize stringBlockLimit at fits
      dsimp only
      omega

theorem Room.mono {fewer : Nat} (room : segment.Room slots) (less : fewer ≤ slots) : segment.Room fewer := by
  unfold Room bigStringMarkerSize at *
  omega

variable {values : List Appended}

theorem Room.writeStrings (room : segment.Room slots) (enough : values.length ≤ slots) :
    segment.writesWithin slots values = true ∧ (segment.writeStrings slots values).Room (slots - values.length) := by
  induction values generalizing segment slots with
  | nil => exact ⟨rfl, room⟩
  | cons value rest ih =>
    rw [length_cons] at enough ⊢
    obtain ⟨slots, rfl⟩ : ∃ fewer, slots = fewer + 1 := ⟨slots - 1, by omega⟩
    have left : slots + 1 - (rest.length + 1) = slots - rest.length := by omega
    rw [left]
    cases value with
    | none => exact ih (room.mono (Nat.le_succ slots)) (by omega)
    | some length =>
      have written := room.writeString length
      obtain ⟨within, later⟩ := ih written (by omega)
      refine ⟨?_, later⟩
      rw [ColumnSegment.writesWithin, Bool.and_eq_true, decide_eq_true_eq]
      exact ⟨written.within, within⟩

structure Reserved (segment : ColumnSegment) : Prop where
  filled : segment.count ≤ segment.maxVectorCount * standardVectorSize
  lastVector : segment.maxVectorCount * standardVectorSize ≤ segment.count + standardVectorSize
  room : segment.Room (segment.maxVectorCount * standardVectorSize - segment.count)

theorem transient_reserved {start : Nat} : (transient .string start).Reserved := by
  refine ⟨Nat.zero_le _, ?_, room_iff.mpr ?_⟩
  · change 1 * 1024 ≤ 0 + 1024
    omega
  · change 8 + 1 * 4096 + 14 * (1 * 1024 - 0) ≤ 262136
    omega

theorem Reserved.expand (reserved : segment.Reserved)
    (space : segment.count / standardVectorSize = segment.maxVectorCount →
      segment.remainingSpace ≥ standardVectorSize * 32) :
    segment.expand.Room (standardVectorSize - segment.count % standardVectorSize) ∧
      segment.expand.maxVectorCount * standardVectorSize = segment.count +
        (standardVectorSize - segment.count % standardVectorSize) := by
  obtain ⟨filled, lastVector, room⟩ := reserved
  unfold ColumnSegment.expand
  by_cases full : segment.count / standardVectorSize = segment.maxVectorCount
  · have enough := space full
    rw [room.remainingSpace_eq] at enough
    change 1024 * 32 ≤ 262136 - (segment.dictionaryOffset + segment.maxVectorCount * 4096) at enough
    rw [if_pos full, room_iff]
    unfold standardVectorSize at *
    dsimp only
    omega
  · rw [if_neg full]
    have slots : standardVectorSize - segment.count % standardVectorSize =
        segment.maxVectorCount * standardVectorSize - segment.count := by
      unfold standardVectorSize at *
      omega
    rw [slots]
    exact ⟨room, by omega⟩

theorem Reserved.fillVector (reserved : segment.Reserved) (values : List Appended)
    (space : segment.count / standardVectorSize = segment.maxVectorCount →
      segment.remainingSpace ≥ standardVectorSize * 32) :
    segment.expand.writesWithin (standardVectorSize - segment.count % standardVectorSize)
        (values.take (appendCount segment.count values.length)) = true ∧
      (segment.fillVector values).Reserved := by
  obtain ⟨room, vectors⟩ := reserved.expand space
  have copied : appendCount segment.count values.length ≤ standardVectorSize - segment.count % standardVectorSize := by
    unfold appendCount standardVectorSize
    dsimp only
    omega
  have length : (values.take (appendCount segment.count values.length)).length =
      appendCount segment.count values.length := by
    rw [length_take]
    exact min_eq_left (appendCount_le _ _)
  obtain ⟨within, later⟩ := room.writeStrings (le_trans (le_of_eq length) copied)
  refine ⟨within, ?_⟩
  rw [length] at later
  obtain ⟨offset, written⟩ := writeStrings_same segment.expand (standardVectorSize - segment.count % standardVectorSize)

  have filled : segment.fillVector values = { segment.expand with
        dictionaryOffset := offset
        count := segment.count + appendCount segment.count values.length } := by
    change ({ segment.expand.writeStrings (standardVectorSize - segment.count % standardVectorSize)
      (values.take (appendCount segment.count values.length)) with
        count := segment.count + appendCount segment.count values.length } : ColumnSegment) = _
    rw [written]
  rw [written] at later
  rw [filled]
  refine ⟨?_, ?_, ?_⟩
  · change segment.count + _ ≤ segment.expand.maxVectorCount * standardVectorSize
    omega
  · change segment.expand.maxVectorCount * standardVectorSize ≤ segment.count + _ + standardVectorSize
    omega
  have slots : segment.expand.maxVectorCount * standardVectorSize -
      (segment.count + appendCount segment.count values.length) =
        standardVectorSize - segment.count % standardVectorSize - appendCount segment.count values.length := by
    omega
  rw [slots]
  exact later

theorem Reserved.appendStrings {fuel : Nat} (reserved : segment.Reserved) :
    segment.appendWithin fuel values = true ∧ (segment.appendStrings fuel values).Reserved := by
  induction fuel generalizing segment values with
  | zero => exact ⟨rfl, reserved⟩
  | succ fuel ih =>
    rw [appendWithin, ColumnSegment.appendStrings]
    by_cases empty : values = []
    · rw [if_pos empty, if_pos empty]
      exact ⟨rfl, reserved⟩
    rw [if_neg empty, if_neg empty]
    by_cases stuck : segment.count / standardVectorSize = segment.maxVectorCount ∧
        ¬segment.remainingSpace ≥ standardVectorSize * 32
    · rw [if_pos stuck, if_pos stuck]
      exact ⟨rfl, reserved⟩
    rw [if_neg stuck, if_neg stuck]
    have space : segment.count / standardVectorSize = segment.maxVectorCount →
        segment.remainingSpace ≥ standardVectorSize * 32 := by
      intro full
      by_contra less
      exact stuck ⟨full, less⟩
    obtain ⟨within, filled⟩ := reserved.fillVector values space
    obtain ⟨laterWithin, later⟩ := ih filled
    refine ⟨?_, later⟩
    rw [Bool.and_eq_true]
    exact ⟨within, laterWithin⟩

theorem Reserved.toTransient (reserved : segment.Reserved) : (segment.toTransient .string).Reserved := by
  obtain ⟨filled, lastVector, room⟩ := reserved
  have vectors : (segment.toTransient .string).maxVectorCount = vectorsFor segment.count := vectorsFor_eq segment.count
  have covered := le_vectorsFor segment.count
  have tight := vectorsFor_lt segment.count
  have fewer : vectorsFor segment.count ≤ segment.maxVectorCount := by
    have below : vectorsFor segment.count * standardVectorSize < (segment.maxVectorCount + 1) * standardVectorSize := by
      rw [Nat.succ_mul]
      exact Nat.lt_of_lt_of_le tight (Nat.add_le_add_right filled _)
    exact Nat.le_of_lt_succ (Nat.lt_of_mul_lt_mul_right below)
  have fewerSlots := Nat.mul_le_mul_right standardVectorSize fewer
  refine ⟨?_, ?_, ?_⟩
  · rw [vectors]
    exact covered
  · rw [vectors]
    exact le_of_lt tight
  have moved : (segment.toTransient .string).Room (segment.maxVectorCount * standardVectorSize - segment.count) := by
    rw [room_iff] at room ⊢
    rw [vectors]
    refine le_trans (Nat.add_le_add_right (Nat.add_le_add_left ?_ _) _) room
    exact Nat.mul_le_mul_right 4096 fewer
  rw [vectors]
  exact moved.mono (Nat.sub_le_sub_right fewerSlots _)

end ColumnSegment

namespace StringOperation

theorem step_reserved (segment : ColumnSegment) (operation : StringOperation)
    (reserved : segment.Reserved) (keeps : KeepsReserve segment operation) :
    (step segment operation).Reserved := by
  cases operation with
  | append values => exact reserved.appendStrings.2
  | revertAppend tupleCount =>
    obtain ⟨fewer, lastVector, room⟩ := keeps
    exact ⟨le_trans fewer reserved.filled, lastVector, room⟩
  | toTemporary => exact reserved.toTransient

/-- In a history whose reverts keep the reserve, no write of any operation runs over. -/
theorem run_writesWithin {start : Nat} {history : List StringOperation}
    (keeps : Meets step KeepsReserve (.transient .string start) history)
    (operation : StringOperation) :
    writesWithin (run step (.transient .string start) history) operation = true ∧
      (run step (.transient .string start) history).Within := by
  have reserved := run_invariant step_reserved (ColumnSegment.transient_reserved) keeps
  refine ⟨?_, reserved.room.within⟩
  cases operation with
  | append values => exact reserved.appendStrings.1
  | revertAppend tupleCount => rfl
  | toTemporary => rfl

/-- A transaction appends strings and is rolled back, and the next one appends a vector of
strings that go to overflow blocks. -/
theorem not_run_writesWithin : writesWithin (run step (.transient .string 0)
        [append (replicate 61 (some 4000)), revertAppend 0])
      (append (replicate 1024 (some 5000))) = false ∧
      ¬KeepsReserve (run step (.transient .string 0) [append (replicate 61 (some 4000))])
        (revertAppend 0) := by
  refine ⟨?_, ?_⟩
  · decide +kernel
  · decide +kernel

theorem run_writesWithin_short : Meets step KeepsReserve (.transient .string 0)
        [append [some 5, some 9000], revertAppend 1, toTemporary] ∧
      writesWithin (run step (.transient .string 0)
        [append [some 5, some 9000], revertAppend 1, toTemporary]) (append [none, some 300]) =
          true ∧ (run step (.transient .string 0)
        [append [some 5, some 9000], revertAppend 1, toTemporary]).Within := by
  have keeps : Meets step KeepsReserve (.transient .string 0)
      [append [some 5, some 9000], revertAppend 1, toTemporary] := by
    refine ⟨trivial, ?_, trivial, trivial⟩
    decide +kernel
  exact ⟨keeps, run_writesWithin keeps (append [none, some 300])⟩

end StringOperation

end GuinsooDB
