import GuinsooDB.Storage.ColumnSegment

/-!
`MetaBlockWriter` and `MetaBlockReader`: a stream of bytes in a chain of blocks. The first eight
bytes of a block hold the id of the next one.
-/

namespace GuinsooDB

open List Function

variable {β : Type}

/-- A block; the bytes behind the id of the next block are at the offsets from eight on. -/
structure MetaBlock (β : Type) where
  next : Int
  bytes : Nat → β

namespace MetaBlock

def copy (block : MetaBlock β) (offset : Nat) (data : List β) : MetaBlock β :=
  { block with
    bytes := fun place =>
      if place < offset then block.bytes place else data.getD (place - offset) (block.bytes place) }

def slice (block : MetaBlock β) (offset count : Nat) : List β :=
  (range count).map fun index => block.bytes (offset + index)

theorem copy_bytes_add {block : MetaBlock β} {offset : Nat} {data : List β} {index : Nat} {byte : β}
    (here : data[index]? = some byte) : (block.copy offset data).bytes (offset + index) = byte := by
  have behind : ¬offset + index < offset := by omega
  simp [copy, getD_eq_getElem?_getD, here, behind]

end MetaBlock

/-- The writer with the blocks as the block manager returns them. The ids that it gets from
`GetFreeBlockId` are `freeId 0`, `freeId 1` and so on. -/
structure MetaBlockWriter (β : Type) where
  blockId : Int
  block : MetaBlock β
  offset : Nat
  drawn : Nat
  disk : Int → MetaBlock β

namespace MetaBlockWriter

def create (freeId : Nat → Int) (garbage : Nat → β) (disk : Int → MetaBlock β) :
    MetaBlockWriter β where
  blockId := freeId 0
  block := { next := -1, bytes := garbage }
  offset := 8
  drawn := 1
  disk

def flush (writer : MetaBlockWriter β) : MetaBlockWriter β :=
  if 8 < writer.offset then
    { writer with
      disk := Function.update writer.disk writer.blockId writer.block
      offset := 8 }
  else writer

def nextBlock (freeId : Nat → Int) (writer : MetaBlockWriter β) (data : List β) :
    MetaBlockWriter β :=
  let amount := blockSize - writer.offset
  let newId := freeId writer.drawn
  let flushed := flush { writer with
    block := { writer.block.copy writer.offset (data.take amount) with next := newId }
    offset := writer.offset + amount
    drawn := writer.drawn + 1 }
  { flushed with blockId := newId, block := { flushed.block with next := -1 } }

theorem nextBlock_offset (freeId : Nat → Int) (writer : MetaBlockWriter β) (data : List β) :
    (nextBlock freeId writer data).offset = 8 := by
  have full : 8 < writer.offset + (blockSize - writer.offset) := by
    simp only [blockSize]
    omega
  simp [nextBlock, flush, full]

def writeData (freeId : Nat → Int) (writer : MetaBlockWriter β) (data : List β) :
    MetaBlockWriter β :=
  if blockSize < writer.offset + data.length then
    writeData freeId (nextBlock freeId writer data) (data.drop (blockSize - writer.offset))
  else
    { writer with
      block := writer.block.copy writer.offset data
      offset := writer.offset + data.length }
termination_by data.length + writer.offset / blockSize
decreasing_by
  simp only [nextBlock_offset, blockSize, length_drop] at *
  omega

end MetaBlockWriter

structure MetaBlockReader (β : Type) where
  block : MetaBlock β
  offset : Nat

namespace MetaBlockReader

def readNewBlock (disk : Int → MetaBlock β) (id : Int) : MetaBlockReader β where
  block := disk id
  offset := 8

def readData (disk : Int → MetaBlock β) (reader : MetaBlockReader β) (size : Nat) :
    List β × MetaBlockReader β :=
  if blockSize < reader.offset + size then
    (readData disk (readNewBlock disk reader.block.next) (size - (blockSize - reader.offset))).map
        (reader.block.slice reader.offset (blockSize - reader.offset) ++ ·) id
  else (reader.block.slice reader.offset size, { reader with offset := reader.offset + size })
termination_by size + reader.offset / blockSize
decreasing_by
  simp only [readNewBlock, blockSize] at *
  omega

def readAll (disk : Int → MetaBlock β) : MetaBlockReader β → List Nat → List (List β)
  | _, [] => []
  | reader, size :: rest =>
    let result := readData disk reader size
    result.1 :: readAll disk result.2 rest

end MetaBlockReader

/-! Where the bytes are: the byte at a position of the stream is in the block of that number -/

def payload : Nat := 262128

def FoundIn (stream : Nat → β) (position : Nat) (data : List β) : Prop :=
  ∀ index byte, data[index]? = some byte → stream (position + index) = byte

namespace FoundIn

variable {stream : Nat → β} {position : Nat} {data rest : List β}

theorem take (found : FoundIn stream position data) (count : Nat) : FoundIn stream position (data.take count) := by
  intro index byte here
  rw [getElem?_take] at here
  split at here
  · exact found index byte here
  · cases here

theorem drop (found : FoundIn stream position data) (count : Nat) :
    FoundIn stream (position + count) (data.drop count) := by
  intro index byte here
  rw [getElem?_drop] at here
  rw [Nat.add_assoc]
  exact found (count + index) byte here

theorem append (found : FoundIn stream position (data ++ rest)) :
    FoundIn stream position data ∧ FoundIn stream (position + data.length) rest := by
  refine ⟨?_, ?_⟩
  · simpa using found.take data.length
  · simpa using found.drop data.length

theorem eq_map (found : FoundIn stream position data) :
    (range data.length).map (fun index => stream (position + index)) = data := by
  refine ext_getElem? fun index => ?_
  by_cases inside : index < data.length
  · simp [inside, found index _ (getElem?_eq_getElem inside)]
  · simp [inside]

end FoundIn

def MetaBlock.Holds (stream : Nat → β) (number count : Nat) (block : MetaBlock β) : Prop :=
  ∀ place < payload, number * payload + place < count →
    block.bytes (8 + place) = stream (number * payload + place)

/-- The writer has written the first bytes of the stream, and stands in the block of a number. -/
structure MetaBlockWriter.Written (freeId : Nat → Int) (stream : Nat → β) (count number : Nat)
    (writer : MetaBlockWriter β) : Prop where
  drawn : writer.drawn = number + 1
  blockId : writer.blockId = freeId number
  stands : count + 8 = number * payload + writer.offset
  low : 8 ≤ writer.offset
  high : writer.offset ≤ blockSize
  current : writer.block.Holds stream number count
  older : ∀ earlier < number, (writer.disk (freeId earlier)).next = freeId (earlier + 1) ∧
    (writer.disk (freeId earlier)).Holds stream earlier count

/-- What the reader needs: every block that has a byte, linked to the next one. -/
def OnDisk (freeId : Nat → Int) (stream : Nat → β) (count : Nat) (disk : Int → MetaBlock β) : Prop :=
  ∀ number, number * payload < count → (disk (freeId number)).Holds stream number count ∧
    ((number + 1) * payload < count → (disk (freeId number)).next = freeId (number + 1))

variable {block : MetaBlock β} {stream : Nat → β}

theorem MetaBlock.Holds.copy {number count offset : Nat}
    (holds : block.Holds stream number count) (stands : count + 8 = number * payload + offset)
    {data : List β} (found : FoundIn stream count data) :
    (block.copy offset data).Holds stream number (count + data.length) := by
  intro place inside written
  by_cases before : 8 + place < offset
  · simpa [MetaBlock.copy, before] using holds place inside (by omega)
  have index : 8 + place - offset < data.length := by omega
  have here := getElem?_eq_getElem index
  have split : 8 + place = offset + (8 + place - offset) := by omega
  rw [split, copy_bytes_add here, ← found _ _ here]
  congr 1
  omega

theorem MetaBlock.Holds.later {number count later : Nat}
    (holds : block.Holds stream number count) (full : (number + 1) * payload ≤ count) :
    block.Holds stream number later := by
  intro place inside _
  rw [Nat.add_mul] at full
  exact holds place inside (by omega)

namespace MetaBlockWriter.Written

variable {freeId : Nat → Int} {stream : Nat → β} {count number : Nat} {writer : MetaBlockWriter β}

theorem full (written : Written freeId stream count number writer) {earlier : Nat}
    (before : earlier < number) : (earlier + 1) * payload ≤ count := by
  have behind : (earlier + 1) * payload ≤ number * payload := Nat.mul_le_mul_right payload before
  have stands := written.stands
  have low := written.low
  omega

section

variable (written : Written freeId stream count number writer) (fresh : Function.Injective freeId)
  {data : List β} (found : FoundIn stream count data)
include written fresh found

theorem nextBlock (long : blockSize < writer.offset + data.length) :
    Written freeId stream (count + (blockSize - writer.offset)) (number + 1) (nextBlock freeId writer data) := by
  have high := written.high
  have stands := written.stands
  have amount : (data.take (blockSize - writer.offset)).length = blockSize - writer.offset := by
    rw [length_take]
    omega
  have filled := written.current.copy stands (found.take (blockSize - writer.offset))
  rw [amount] at filled
  have full : 8 < writer.offset + (blockSize - writer.offset) := by
    simp only [blockSize]
    omega
  simp only [MetaBlockWriter.nextBlock, flush, if_pos full]
  refine ⟨by simp [written.drawn], by simp [written.drawn], ?_, le_refl 8, show 8 ≤ blockSize by decide, ?_, ?_⟩
  · simp only [payload, blockSize] at *
    omega
  · intro place inside isWritten
    simp only [payload, blockSize] at *
    omega
  intro earlier before
  by_cases last : earlier = number
  · subst last
    simp only [written.blockId, written.drawn, update_self]
    exact ⟨trivial, filled⟩
  · have behind : earlier < number := by omega
    obtain ⟨link, holds⟩ := written.older earlier behind
    simp only [written.blockId, update_of_ne (fun same => last (fresh same))]
    exact ⟨link, holds.later (written.full behind)⟩

theorem writeData : ∃ last, Written freeId stream (count + data.length) last (writeData freeId writer data) := by
  fun_induction MetaBlockWriter.writeData freeId writer data generalizing count number with
  | case1 writer data long ih =>
    have later := ih (written.nextBlock fresh found long) (found.drop _)
    rwa [length_drop, Nat.add_assoc, Nat.add_sub_of_le (by have := written.high; omega)] at later
  | case2 writer data short =>
    refine ⟨number, { written with stands := ?_, low := ?_, high := ?_, current := ?_, older := ?_ }⟩
    · have := written.stands
      dsimp only
      omega
    · exact le_trans written.low (Nat.le_add_right _ _)
    · exact not_lt.mp short
    · exact written.current.copy written.stands found
    · intro earlier before
      obtain ⟨link, holds⟩ := written.older earlier before
      exact ⟨link, holds.later (written.full before)⟩

end

theorem run (written : ∃ number, Written freeId stream count number writer)
    (fresh : Function.Injective freeId) {writes : List (List β)}
    (found : FoundIn stream count writes.flatten) :
    ∃ last, Written freeId stream (count + writes.flatten.length) last
      (writes.foldl (MetaBlockWriter.writeData freeId) writer) := by
  induction writes generalizing count writer with
  | nil => exact written
  | cons data rest ih =>
    obtain ⟨number, here⟩ := written
    obtain ⟨first, later⟩ := found.append
    have done := ih (here.writeData fresh first) later
    rwa [Nat.add_assoc, ← length_append] at done

theorem flush_stored (written : Written freeId stream count number writer)
    (fresh : Function.Injective freeId) : OnDisk freeId stream count writer.flush.disk := by
  have stands := written.stands
  have high := written.high
  intro block inside
  have blockLe : block ≤ number := by
    simp only [payload, blockSize] at *
    omega
  rcases lt_or_eq_of_le blockLe with before | rfl
  · obtain ⟨link, holds⟩ := written.older block before
    have kept : writer.flush.disk (freeId block) = writer.disk (freeId block) := by
      rw [flush]
      split
      · rw [written.blockId]
        exact update_of_ne (fun same => ne_of_lt before (fresh same)) ..
      · rfl
    rw [kept]
    exact ⟨holds, fun _ => link⟩
  · have used : 8 < writer.offset := by omega
    rw [flush, if_pos used, written.blockId]
    simp only [update_self]
    refine ⟨written.current, fun beyond => ?_⟩
    simp only [payload, blockSize] at *
    omega

end MetaBlockWriter.Written

namespace MetaBlockReader

variable {freeId : Nat → Int} {stream : Nat → β} {count number position : Nat}
  {disk : Int → MetaBlock β} {reader : MetaBlockReader β}

/-- The reader is in a block, at the offset of a position of the stream. -/
structure Stands (freeId : Nat → Int) (disk : Int → MetaBlock β) (position number : Nat)
    (reader : MetaBlockReader β) : Prop where
  block : reader.block = disk (freeId number)
  stands : position + 8 = number * payload + reader.offset
  low : 8 ≤ reader.offset
  high : reader.offset ≤ blockSize

variable {size : Nat}

theorem Stands.slice (here : Stands freeId disk position number reader) (stored : OnDisk freeId stream count disk)
    (inBlock : reader.offset + size ≤ blockSize) (enough : position + size ≤ count) :
    reader.block.slice reader.offset size = (range size).map fun index => stream (position + index) := by
  refine map_congr_left fun index inside => ?_
  have stands := here.stands
  have low := here.low
  have small := mem_range.mp inside
  have holds := (stored number (by omega)).1 (reader.offset + index - 8)
    (by simp only [payload, blockSize] at *; omega) (by omega)
  rw [show 8 + (reader.offset + index - 8) = reader.offset + index by omega,
    show number * payload + (reader.offset + index - 8) = position + index by omega] at holds
  rw [here.block, holds]

theorem Stands.readData (here : Stands freeId disk position number reader)
    (stored : OnDisk freeId stream count disk) (enough : position + size ≤ count) :
    (readData disk reader size).1 = (range size).map (fun index => stream (position + index)) ∧
      ∃ last, Stands freeId disk (position + size) last (readData disk reader size).2 := by
  fun_induction MetaBlockReader.readData disk reader size generalizing position number with
  | case1 reader size long ih =>
    have stands := here.stands
    have low := here.low
    have high := here.high
    have link := (stored number (by simp only [payload, blockSize] at *; omega)).2
      (by simp only [payload, blockSize] at *; omega)
    have next : Stands freeId disk (position + (blockSize - reader.offset)) (number + 1)
        (readNewBlock disk reader.block.next) := by
      refine ⟨by rw [here.block, link]; rfl, ?_, le_refl 8, show 8 ≤ blockSize by decide⟩
      simp only [readNewBlock, payload, blockSize] at *
      omega
    have total : blockSize - reader.offset + (size - (blockSize - reader.offset)) = size := by omega
    obtain ⟨bytes, last, ends⟩ := ih next (by omega)
    rw [Nat.add_assoc, total] at ends
    refine ⟨?_, last, ends⟩
    rw [Prod.map_fst, here.slice stored (by omega) (by omega), bytes]
    conv => rhs; rw [← total, range_add, map_append, map_map]
    simp only [comp_def, Nat.add_assoc]
  | case2 reader size short =>
    refine ⟨here.slice stored (by omega) enough, number, here.block, ?_, ?_, ?_⟩
    · have := here.stands
      dsimp only
      omega
    · exact le_trans here.low (Nat.le_add_right _ _)
    · exact not_lt.mp short

theorem Stands.readAll (here : ∃ number, Stands freeId disk position number reader)
    (stored : OnDisk freeId stream count disk) {reads : List (List β)}
    (found : FoundIn stream position reads.flatten)
    (enough : position + reads.flatten.length ≤ count) :
    readAll disk reader (reads.map length) = reads := by
  induction reads generalizing position reader with
  | nil => rfl
  | cons data rest ih =>
    obtain ⟨number, stands⟩ := here
    obtain ⟨first, later⟩ := found.append
    rw [flatten_cons, length_append] at enough
    have inside : position + data.length ≤ count := by omega
    obtain ⟨bytes, next⟩ := stands.readData stored inside
    rw [map_cons, MetaBlockReader.readAll, bytes, first.eq_map, ih next later (by omega)]

end MetaBlockReader

/-- Whatever is written after a position was recorded can be read from there in pieces of any
size. -/
theorem MetaBlockReader.readAll_written (freeId : Nat → Int) (fresh : Function.Injective freeId)
    (garbage : Nat → β) (disk : Int → MetaBlock β) (before after : List (List β)) :
    let recorded := before.foldl (MetaBlockWriter.writeData freeId)
      (MetaBlockWriter.create freeId garbage disk)
    let written := (after.foldl (MetaBlockWriter.writeData freeId) recorded).flush
    ∀ reads : List (List β), reads.flatten <+: after.flatten → readAll written.disk
        { readNewBlock written.disk recorded.blockId with offset := recorded.offset }
        (reads.map length) = reads := by
  intro recorded written reads isPart
  let all := before.flatten ++ after.flatten
  let stream : Nat → β := fun position => all.getD position (garbage 0)
  have found : FoundIn stream 0 all := by
    intro index byte here
    simp [stream, getD_eq_getElem?_getD, here]
  obtain ⟨first, later⟩ := found.append
  have created : (MetaBlockWriter.create freeId garbage disk).Written freeId stream 0 0 :=
    ⟨rfl, rfl, rfl, le_refl 8, show 8 ≤ blockSize by decide, fun _ _ inside => by omega,
      fun _ inside => by omega⟩
  have start := MetaBlockWriter.Written.run ⟨0, created⟩ fresh first
  obtain ⟨last, ends⟩ := MetaBlockWriter.Written.run start fresh later
  obtain ⟨number, stands⟩ := start
  obtain ⟨rest, same⟩ := isPart
  refine Stands.readAll ⟨number, ?_, stands.stands, stands.low, stands.high⟩ (ends.flush_stored fresh)
    (by rw [← same] at later; exact later.append.1) ?_
  · rw [readNewBlock, stands.blockId]
  · rw [← same, length_append]
    omega

theorem MetaBlockReader.readAll_numbers :
    let recorded := [[1, 2]].foldl (MetaBlockWriter.writeData Int.ofNat)
      (MetaBlockWriter.create Int.ofNat (fun _ => 0) fun _ => { next := -1, bytes := fun _ => 0 })
    let written := ([[3], [4, 5]].foldl (MetaBlockWriter.writeData Int.ofNat) recorded).flush
    readAll written.disk { readNewBlock written.disk recorded.blockId with offset := recorded.offset }
      [2] = [[3, 4]] :=
  MetaBlockReader.readAll_written Int.ofNat (fun _ _ => Int.ofNat.inj) _ _ [[1, 2]] [[3], [4, 5]]
    [[3, 4]] ⟨[5], rfl⟩

end GuinsooDB
