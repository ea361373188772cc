import GuinsooDB.Version.Effects

/-!
When the info of a vector stands for the ids of its rows, and how each operation keeps this.
A vector has `used` rows; the slots behind them may hold ids of reverted appends.
-/

namespace GuinsooDB

open BlockRange List

structure Stands (used : Nat) (rows : Nat → RowVersion) (info : ChunkVectorInfo) : Prop where
  ids : ∀ row < used, rows row = { inserted := info.inserted row, deleted := info.deleted row }
  kept : info.anyDeleted = false → ∀ row, info.deleted row = notDeletedId
  unused : ∀ row, used ≤ row → info.deleted row = notDeletedId

structure SoundVector (used : Nat) (rows : Nat → RowVersion) (info : ChunkVectorInfo) : Prop
    extends Stands used rows info where
  same : info.sameInsertedId = true → ∀ row < used, info.inserted row = info.insertId

/-- The info of a vector stands for the ids of its rows. A constant info covers a whole vector. -/
def Sound (used : Nat) (rows : Nat → RowVersion) : Option ChunkInfo → Prop
  | none => ∀ row < used, rows row = { inserted := 0, deleted := notDeletedId }
  | some (.constant insertId deleteId) =>
    used = standardVectorSize ∧
      ∀ row < used, rows row = { inserted := insertId, deleted := deleteId }
  | some (.vector info) => 0 < used ∧ SoundVector used rows info

/-- Rows from `used` to `total` were appended. A constant info that results is new. -/
structure Grown (used total : Nat) (rows : Nat → RowVersion) (before after : Option ChunkInfo) :
    Prop where
  sound : Sound total rows after
  constants : ∀ insertId deleteId, after = some (.constant insertId deleteId) →
    used = 0 ∧ total = standardVectorSize ∧ deleteId = notDeletedId
  vectors : ∀ chunk, before = some (.vector chunk) →
    ∃ grown, after = some (.vector grown) ∧ grown.anyDeleted = chunk.anyDeleted

structure Transaction.CanRead (transaction : Transaction) : Prop where
  started : 0 < transaction.startTime
  below : transaction.startTime ≤ notDeletedId
  apart : transaction.transactionId ≠ notDeletedId

variable {transaction : Transaction}

theorem Transaction.CanRead.zero_visible (reads : transaction.CanRead) :
    useVersion transaction.startTime transaction.transactionId 0 = true := by
  simp [useVersion, reads.started]

theorem Transaction.CanRead.not_deleted (reads : transaction.CanRead) :
    useVersion transaction.startTime transaction.transactionId notDeletedId = false := by
  have below := reads.below
  have apart := reads.apart
  simp only [useVersion, Bool.or_eq_false_iff, decide_eq_false_iff_not, beq_eq_false_iff_ne]
  omega

theorem filter_range_congr {first second : Nat → Bool} {count : Nat} (same : ∀ row < count, first row = second row) :
    (range count).filter first = (range count).filter second :=
  filter_congr fun row inside => same row (mem_range.mp inside)

theorem selectedRows_loop (use : Nat → Bool) (maxCount : Nat) :
    selectedRows maxCount (selectionLoop use maxCount) = (range maxCount).filter use := by
  unfold selectedRows selectionLoop
  split
  next all =>
    have everything : ∀ row ∈ range maxCount, use row = true := by
      apply length_filter_eq_length_iff.mp
      rw [length_range]
      exact all
    exact (filter_eq_self.mpr everything).symm
  · exact take_length

theorem selectedRows_all (maxCount : Nat) (selection : List Nat) :
    selectedRows maxCount (maxCount, selection) = range maxCount := by
  simp [selectedRows]

theorem selectedRows_none (maxCount : Nat) : selectedRows maxCount (0, []) = [] := by
  unfold selectedRows
  split
  next none =>
    rw [← none, range_zero]
  · rfl

variable {maxCount : Nat}

theorem selectedRows_constant (visible : Bool) :
    selectedRows maxCount (if visible then (maxCount, []) else (0, [])) = (range maxCount).filter fun _ => visible := by
  cases visible <;> simp [selectedRows_all, selectedRows_none]

theorem ChunkVectorInfo.append_anyDeleted (info : ChunkVectorInfo) (id start stop : Nat) :
    (info.append id start stop).anyDeleted = info.anyDeleted := by
  unfold ChunkVectorInfo.append
  split_ifs <;> rfl

def ChunkVectorInfo.selects (info : ChunkVectorInfo) (startTime transactionId slot : Nat) : Bool :=
  useVersion startTime transactionId
      (if info.sameInsertedId then info.insertId else info.inserted slot) &&
    (!info.anyDeleted || !useVersion startTime transactionId (info.deleted slot))

theorem ChunkVectorInfo.selectedRows_getSelVector (info : ChunkVectorInfo) (startTime id maxCount : Nat) :
    selectedRows maxCount (info.getSelVector startTime id maxCount) =
      (range maxCount).filter (info.selects startTime id) := by
  unfold ChunkVectorInfo.getSelVector ChunkVectorInfo.selects
  cases info.sameInsertedId <;> cases info.anyDeleted
  · simp only [Bool.false_eq_true, if_false, Bool.not_false, if_true, selectedRows_loop, Bool.true_or, Bool.and_true]
  · simp only [Bool.false_and, Bool.false_eq_true, if_false, Bool.not_true, selectedRows_loop, Bool.false_or]
  · simp only [Bool.not_false, if_true, selectedRows_constant, Bool.true_or, Bool.and_true]
  · cases visible : useVersion startTime id info.insertId with
    | false => simp [selectedRows_none, visible]
    | true => simp [selectedRows_loop, visible]

namespace SoundVector

variable {used row : Nat} {rows : Nat → RowVersion} {info : ChunkVectorInfo}
  {transaction : Transaction}

theorem fetch (sound : SoundVector used rows info) (inside : row < used) :
    info.fetch transaction.startTime transaction.transactionId row = (rows row).visible transaction := by
  rw [sound.ids row inside]
  rfl

theorem selects (sound : SoundVector used rows info) (reads : transaction.CanRead) (inside : row < used) :
    info.selects transaction.startTime transaction.transactionId row = (rows row).visible transaction := by
  rw [sound.ids row inside]
  unfold ChunkVectorInfo.selects RowVersion.visible
  congr 1
  · cases same : info.sameInsertedId with
    | false => rfl
    | true => rw [if_pos rfl, sound.same same row inside]
  · cases any : info.anyDeleted with
    | false => rw [sound.kept any row, reads.not_deleted, Bool.not_false, Bool.true_or]
    | true => rw [Bool.not_true, Bool.false_or]

theorem getSelVector (sound : SoundVector used rows info) (reads : transaction.CanRead) (within : maxCount ≤ used) :
    selectedRows maxCount (info.getSelVector transaction.startTime transaction.transactionId maxCount) =
      (range maxCount).filter fun row => (rows row).visible transaction := by
  rw [ChunkVectorInfo.selectedRows_getSelVector]
  exact filter_range_congr fun row inside =>
    sound.selects reads (lt_of_lt_of_le inside within)

theorem constant {insertId : Nat} (all : ∀ row < used, rows row = { inserted := insertId, deleted := notDeletedId }) :
    SoundVector used rows { ChunkVectorInfo.fresh with insertId, inserted := fun _ => insertId } where
  ids := all
  same := fun _ _ _ => rfl
  kept := fun _ _ => rfl
  unused := fun _ _ => rfl

theorem fresh (unwritten : ∀ row < used, rows row = { inserted := 0, deleted := notDeletedId }) :
    SoundVector used rows .fresh := constant unwritten

theorem append (sound : SoundVector used rows info) {total id : Nat} (room : used < total)
    {appended : Nat → RowVersion} (before : ∀ row < used, appended row = rows row)
    (after : ∀ row, used ≤ row → row < total → appended row = { inserted := id, deleted := notDeletedId }) :
    SoundVector total appended (info.append id used total) := by
  have inserted : ∀ row, (info.append id used total).inserted row =
      if used ≤ row ∧ row < total then id else info.inserted row := fun _ => rfl
  have deleted : (info.append id used total).deleted = info.deleted := by
    unfold ChunkVectorInfo.append
    split_ifs <;> rfl
  have anyDeleted := info.append_anyDeleted id used total
  refine { ids := ?_, kept := ?_, unused := ?_, same := ?_ }
  · intro row inside
    rw [inserted, deleted]
    rcases lt_or_ge row used with old | new
    · rw [if_neg (by omega), before row old, sound.ids row old]
    · rw [if_pos ⟨new, inside⟩, after row new inside, sound.unused row new]
  · intro kept row
    rw [deleted]
    exact sound.kept (anyDeleted ▸ kept) row
  · intro row beyond
    rw [deleted]
    exact sound.unused row (by omega)
  · intro same row inside
    rw [inserted]
    by_cases atStart : used = 0
    · have insertId : (info.append id used total).insertId = id := by
        simp [ChunkVectorInfo.append, atStart]
      rw [if_pos ⟨by omega, inside⟩, insertId]
    by_cases differs : info.insertId = id
    · have flags : (info.append id used total).insertId = id ∧
          (info.append id used total).sameInsertedId = info.sameInsertedId := by
        simp [ChunkVectorInfo.append, atStart, differs]
      rw [flags.2] at same
      rw [flags.1]
      split
      · rfl
      · rw [sound.same same row (by omega), differs]
    · simp [ChunkVectorInfo.append, atStart, differs] at same

end SoundVector

namespace Sound

variable {used : Nat} {rows : Nat → RowVersion} {info : Option ChunkInfo}
  {transaction : Transaction}

variable (sound : Sound used rows info)
include sound

theorem fetch (reads : transaction.CanRead) {row : Nat} (inside : row < used) :
    ChunkInfo.fetch info transaction.startTime transaction.transactionId row = (rows row).visible transaction := by
  match info, sound with
  | none, recorded =>
    simp [ChunkInfo.fetch, recorded row inside, RowVersion.visible, reads.zero_visible, reads.not_deleted]
  | some (.constant insertId deleteId), recorded =>
    rw [recorded.2 row inside]
    rfl
  | some (.vector _), vector => exact vector.2.fetch inside

theorem getSelVector (reads : transaction.CanRead) (within : maxCount ≤ used) : selectedRows maxCount
        (ChunkInfo.getSelVector info transaction.startTime transaction.transactionId maxCount) =
      (range maxCount).filter fun row => (rows row).visible transaction := by
  have fetched : ∀ row < maxCount, (rows row).visible transaction =
      ChunkInfo.fetch info transaction.startTime transaction.transactionId row :=
    fun row inside => (sound.fetch reads (lt_of_lt_of_le inside within)).symm
  match info, sound with
  | none, _ =>
    rw [filter_range_congr fetched]
    exact selectedRows_constant true
  | some (.constant insertId deleteId), _ =>
    rw [filter_range_congr fetched]
    exact selectedRows_constant _
  | some (.vector _), vector => exact vector.2.getSelVector reads within

theorem append {total : Nat} (room : used < total) (bounded : total ≤ standardVectorSize) (id : Nat)
    {appended : Nat → RowVersion} (before : ∀ row < used, appended row = rows row)
    (after : ∀ row, used ≤ row → row < total → appended row = { inserted := id, deleted := notDeletedId }) :
    ∃ changed, ChunkInfo.append id used total info = some changed ∧ Grown used total appended info changed := by
  unfold ChunkInfo.append
  by_cases whole : used = 0 ∧ total = standardVectorSize
  · rw [if_pos whole]
    refine ⟨_, rfl, ⟨whole.2, fun row inside => after row (by omega) inside⟩, ?_, ?_⟩
    · rintro _ _ ⟨⟩
      exact ⟨whole.1, whole.2, rfl⟩
    · rintro chunk rfl
      have positive := sound.1
      omega
  · rw [if_neg whole]
    match info, sound with
    | none, unwritten =>
      exact ⟨_, rfl, ⟨by omega, (SoundVector.fresh unwritten).append room before after⟩, nofun, nofun⟩
    | some (.vector chunk), vector =>
      refine ⟨_, rfl, ⟨by omega, vector.2.append room before after⟩, nofun, ?_⟩
      rintro _ ⟨⟩
      exact ⟨_, rfl, ChunkVectorInfo.append_anyDeleted _ _ _ _⟩
    | some (.constant _ _), constant =>
      have full := constant.1
      omega

theorem revert {rest : Nat} (positive : 0 < rest) (within : rest ≤ used)
    (notConstant : rest < used → ∀ insertId deleteId, info ≠ some (.constant insertId deleteId))
    (undeleted : ∀ row, rest ≤ row → row < used → (rows row).deleted = notDeletedId) :
    Sound rest rows info := by
  match info, sound with
  | none, unwritten => exact fun row inside => unwritten row (by omega)
  | some (.constant insertId deleteId), constant =>
    have same : rest = used := by
      by_contra differs
      exact notConstant (by omega) insertId deleteId rfl
    rw [same]
    exact constant
  | some (.vector chunk), vector =>
    refine ⟨positive, ?_⟩
    refine { ids := ?_, kept := vector.2.kept, unused := ?_, same := ?_ }
    · exact fun row inside => vector.2.ids row (by omega)
    · intro row beyond
      rcases lt_or_ge row used with dropped | unused
      · have recorded := vector.2.ids row dropped
        rw [← undeleted row beyond dropped, recorded]
      · exact vector.2.unused row unused
    · exact fun same row inside => vector.2.same same row (by omega)

theorem toVector (undeleted : ∀ insertId deleteId, info = some (.constant insertId deleteId) →
      deleteId = notDeletedId) : SoundVector used rows (ChunkInfo.toVector info) := by
  match info, sound with
  | none, unwritten => exact .fresh unwritten
  | some (.constant insertId deleteId), constant =>
    have notDeleted := undeleted insertId deleteId rfl
    subst notDeleted
    exact .constant constant.2
  | some (.vector chunk), vector => exact vector.2

end Sound

/-! Deleting rows of a vector -/

def markDeleted (rows : Nat → RowVersion) (list : List Nat) (id : Nat) : Nat → RowVersion :=
  fun row => if row ∈ list then { rows row with deleted := id } else rows row

variable {rows : Nat → RowVersion} {used : Nat} {info : ChunkVectorInfo} {list : List Nat}

theorem Stands.commitDelete (stands : Stands used rows info) (marked : info.anyDeleted = true)
    (inside : ∀ row ∈ list, row < used) (id : Nat) :
    Stands used (markDeleted rows list id) (info.commitDelete id list) where
  ids := by
    intro row bound
    by_cases member : row ∈ list <;>
      simp [markDeleted, ChunkVectorInfo.commitDelete, member, stands.ids row bound]
  kept := fun kept => absurd (marked.symm.trans kept) (by simp)
  unused := by
    intro row beyond
    have outside : row ∉ list := fun member => not_lt.mpr beyond (inside row member)
    simp only [ChunkVectorInfo.commitDelete, if_neg outside]
    exact stands.unused row beyond

theorem SoundVector.commitDelete (sound : SoundVector used rows info)
    (marked : info.anyDeleted = true) (inside : ∀ row ∈ list, row < used) (id : Nat) :
    SoundVector used (markDeleted rows list id) (info.commitDelete id list) :=
  { sound.toStands.commitDelete marked inside id with same := sound.same }

theorem SoundVector.mark (sound : SoundVector used rows info) :
    SoundVector used rows { info with anyDeleted := true } where
  ids := sound.ids
  kept := nofun
  unused := sound.unused
  same := sound.same

def RowVersion.deletable (version : RowVersion) : Bool :=
  version.deleted == notDeletedId && version.inserted < transactionIdStart

theorem RowVersion.deletable_iff {version : RowVersion} : version.deletable = true ↔
      version.deleted = notDeletedId ∧ version.inserted < transactionIdStart := by
  simp [RowVersion.deletable]

theorem SoundVector.delete (sound : SoundVector used rows info) (inside : ∀ row ∈ list, row < used) (id : Nat) :
    (info.delete id list).1.anyDeleted = true ∧ if ∀ row ∈ list, (rows row).deletable then
        (info.delete id list).2 = none ∧ SoundVector used (markDeleted rows list id) (info.delete id list).1
      else
        (∃ message, (info.delete id list).2 = some message) ∧ SoundVector used rows (info.delete id list).1 := by
  unfold ChunkVectorInfo.delete
  dsimp only
  split
  next message conflict =>
    obtain ⟨row, member, refused⟩ := exists_of_findSome?_eq_some conflict
    have stuck : ¬∀ row ∈ list, (rows row).deletable := by
      intro deletable
      obtain ⟨undeleted, committed⟩ := RowVersion.deletable_iff.mp (deletable row member)
      rw [sound.ids row (inside row member)] at undeleted committed
      rw [if_neg (not_not_intro undeleted), if_neg (not_le.mpr committed)] at refused
      cases refused
    rw [if_neg stuck]
    exact ⟨rfl, ⟨message, rfl⟩, sound.mark⟩
  next clear =>
    have deletable : ∀ row ∈ list, (rows row).deletable := by
      intro row member
      have passed := findSome?_eq_none_iff.mp clear row member
      rw [RowVersion.deletable_iff, sound.ids row (inside row member)]
      split at passed
      · cases passed
      rename_i undeleted
      split at passed
      · cases passed
      next committed =>
        exact ⟨not_not.mp undeleted, Nat.lt_of_not_le committed⟩
    rw [if_pos deletable]
    exact ⟨rfl, rfl, sound.mark.commitDelete rfl inside id⟩

/-! Committing the appends of a transaction, range by range -/

/-- Between the ranges of a commit, `insertId` may already be the commit id while rows of
the transaction still have its own id. -/
structure CommittingVector (id commitId used : Nat) (rows : Nat → RowVersion)
    (info : ChunkVectorInfo) : Prop extends Stands used rows info where
  same : info.sameInsertedId = true → (∀ row < used, info.inserted row = info.insertId) ∨
    info.insertId = commitId ∧
      ∀ row < used, info.inserted row = commitId ∨ info.inserted row = id

def Committing (id commitId used : Nat) (rows : Nat → RowVersion) : Option ChunkInfo → Prop
  | none => Sound used rows none
  | some (.constant insertId deleteId) => Sound used rows (some (.constant insertId deleteId))
  | some (.vector info) => 0 < used ∧ CommittingVector id commitId used rows info

structure Committed (id commitId used : Nat) (rows : Nat → RowVersion)
    (before after : Option ChunkInfo) : Prop where
  committing : Committing id commitId used rows after
  constants : ∀ insertId deleteId, after = some (.constant insertId deleteId) →
    ∃ replaced, before = some (.constant replaced deleteId)
  vectors : ∀ chunk, before = some (.vector chunk) →
    ∃ changed, after = some (.vector changed) ∧ changed.anyDeleted = chunk.anyDeleted

theorem Sound.committing {info : Option ChunkInfo} (sound : Sound used rows info)
    (id commitId : Nat) : Committing id commitId used rows info := by
  match info, sound with
  | none, sound => exact sound
  | some (.constant _ _), sound => exact sound
  | some (.vector _), sound =>
    exact ⟨sound.1, { sound.2.toStands with same := fun same => .inl (sound.2.same same) }⟩

namespace Committing

variable {id commitId used : Nat} {rows : Nat → RowVersion} {info : Option ChunkInfo}

theorem sound (committing : Committing id commitId used rows info)
    (settled : ∀ row < used, (rows row).inserted = id → commitId = id) : Sound used rows info := by
  match info, committing with
  | none, sound => exact sound
  | some (.constant _ _), sound => exact sound
  | some (.vector chunk), vector =>
    refine ⟨vector.1, { vector.2.toStands with same := ?_ }⟩
    intro same row inside
    rcases vector.2.same same with all | ⟨insertId, each⟩
    · exact all row inside
    · rcases each row inside with committed | own
      · rw [committed, insertId]
      · have recorded := vector.2.ids row inside
        rw [own, insertId, settled row inside (by rw [recorded]; exact own)]

theorem commitDelete {chunk : ChunkVectorInfo} (committing : Committing id commitId used rows (some (.vector chunk)))
    (marked : chunk.anyDeleted = true) {list : List Nat} (inside : ∀ row ∈ list, row < used)
    (deleteId : Nat) :
    Committing id commitId used (markDeleted rows list deleteId) (some (.vector (chunk.commitDelete deleteId list))) :=
  ⟨committing.1, { committing.2.toStands.commitDelete marked inside deleteId with
    same := committing.2.same }⟩

theorem commitAppend (committing : Committing id commitId used rows info) {start stop : Nat}
    (nonempty : start < stop) (within : stop ≤ used)
    (own : ∀ row, start ≤ row → row < stop → (rows row).inserted = id ∨ (rows row).inserted = commitId)
    (positive : 0 < id ∧ 0 < commitId)
    (whole : ∀ insertId deleteId, info = some (.constant insertId deleteId) → start = 0 ∧ stop = standardVectorSize)
    {committed : Nat → RowVersion}
    (changed : ∀ row < used, committed row =
      if start ≤ row ∧ row < stop then { rows row with inserted := commitId } else rows row) :
    ∃ result, ChunkInfo.commitAppend commitId start stop info = some result ∧
      Committed id commitId used committed info result := by
  match info, committing with
  | none, unwritten =>
    have recorded := unwritten start (by omega)
    have zero := own start (le_refl _) nonempty
    rw [recorded] at zero
    simp only at zero
    omega
  | some (.constant insertId deleteId), constant =>
    obtain ⟨atStart, atEnd⟩ := whole insertId deleteId rfl
    refine ⟨some (.constant commitId deleteId), ?_, ⟨constant.1, ?_⟩, ?_, nofun⟩
    · rw [ChunkInfo.commitAppend, if_pos ⟨atStart, atEnd⟩]
    · intro row inside
      have full : used = standardVectorSize := constant.1
      rw [changed row inside, if_pos (by omega), constant.2 row inside]
    · rintro _ _ ⟨⟩
      exact ⟨insertId, rfl⟩
  | some (.vector chunk), vector =>
    refine ⟨_, rfl, ⟨vector.1, ?_⟩, nofun, ?_⟩
    · refine { ids := ?_, kept := vector.2.kept, unused := vector.2.unused, same := ?_ }
      · intro row inside
        rw [changed row inside, vector.2.ids row inside]
        by_cases part : start ≤ row ∧ row < stop <;> simp [ChunkVectorInfo.commitAppend, part]
      intro same
      right
      have sameBefore : chunk.sameInsertedId = true := same
      refine ⟨by simp [ChunkVectorInfo.commitAppend, sameBefore], ?_⟩
      intro row inside
      by_cases part : start ≤ row ∧ row < stop
      · left
        simp [ChunkVectorInfo.commitAppend, part]
      simp only [ChunkVectorInfo.commitAppend, if_neg part]
      rcases vector.2.same sameBefore with all | ⟨_, each⟩
      · have first := own start (le_refl _) nonempty
        rw [vector.2.ids start (by omega)] at first
        simp only [all start (by omega)] at first
        rw [all row inside]
        exact first.symm
      · exact each row inside
    · rintro _ ⟨⟩
      exact ⟨_, rfl, rfl⟩

end Committing

end GuinsooDB
