import GuinsooDB.Version.Departing

/-!
Version information in a checkpoint: `CheckpointDeletes` writes the infos of all morsels to
the meta blocks and `ReadTableData` reads them back. Ids are not written, only which slots
are deleted.
-/

namespace GuinsooDB

open List ChunkVectorInfo RowVersion Option Function

def invalidIndex : Nat := 18446744073709551615

inductive ChunkInfoType where
  | emptyInfo
  | constantInfo
  | vectorInfo
  deriving Repr, DecidableEq

inductive MetaItem where
  | index (value : Nat)
  | infoType (type : ChunkInfoType)
  | flags (deletedTuples : List Bool)
  deriving Repr, DecidableEq

namespace ChunkInfo

def serialize (start : Nat) : ChunkInfo → List MetaItem
  | .constant insertId deleteId =>
    if insertId ≥ transactionIdStart ∨ deleteId < transactionIdStart then
      [.infoType .constantInfo, .index start]
    else [.infoType .emptyInfo]
  | .vector info =>
    let (count, selection) :=
      info.getSelVector (transactionIdStart - 1) invalidIndex standardVectorSize
    if count = standardVectorSize then [.infoType .emptyInfo]
    else if count = 0 then [.infoType .constantInfo, .index start]
    else [.infoType .vectorInfo, .index start, .flags ((range standardVectorSize).map
      fun slot => !(selection.take count).contains slot)]

def deserialize : List MetaItem → Option (Option ChunkInfo × List MetaItem)
  | .infoType .emptyInfo :: rest => some (none, rest)
  | .infoType .constantInfo :: .index _ :: rest => some (some (.constant 0 0), rest)
  | .infoType .vectorInfo :: .index _ :: .flags deletedTuples :: rest =>
    some (some (.vector { fresh with
      anyDeleted := true
      deleted := fun slot => if deletedTuples.getD slot false then 0 else notDeletedId }), rest)
  | _ => none

end ChunkInfo

namespace MorselInfo

def infoIndices (morsel : MorselInfo) : List Nat :=
  (range morselVectorCount).filter fun vectorIdx => (morsel.info vectorIdx).isSome

def writeInfo (morsel : MorselInfo) (vectorIdx : Nat) : List MetaItem :=
  match morsel.info vectorIdx with
  | none => []
  | some info =>
    .index vectorIdx :: info.serialize (morsel.start + vectorIdx * standardVectorSize)

def checkpoint (morsel : MorselInfo) : List MetaItem :=
  .index morsel.infoIndices.length :: morsel.infoIndices.flatMap morsel.writeInfo

def readInfos : Nat → (Nat → Option ChunkInfo) → List MetaItem →
    Option ((Nat → Option ChunkInfo) × List MetaItem)
  | 0, infos, items => some (infos, items)
  | count + 1, infos, .index vectorIdx :: items =>
    (ChunkInfo.deserialize items).bind fun (info, rest) =>
      readInfos count (update infos vectorIdx info) rest
  | _ + 1, _, _ => none

def read (start : Nat) : List MetaItem → Option (MorselInfo × List MetaItem)
  | .index chunkInfoCount :: items =>
    (readInfos chunkInfoCount (fun _ => none) items).map fun (info, rest) =>
      ({ start, info }, rest)
  | _ => none

end MorselInfo

namespace VersionedTable

def checkpointDeletes (table : VersionedTable) : List MetaItem :=
  (range table.segmentCount).flatMap fun segment => (table.versions segment).checkpoint

def morselCount (totalRows : Nat) : Nat := (totalRows + (morselSize - 1)) / morselSize

def readMorsels : Nat → Nat → (Nat → MorselInfo) → List MetaItem → Option (Nat → MorselInfo)
  | 0, _, versions, _ => some versions
  | count + 1, segment, versions, items =>
    (MorselInfo.read (segment * morselSize) items).bind fun (morsel, rest) =>
      readMorsels count (segment + 1) (update versions segment morsel) rest

/-- The reader creates the morsels that the rows need, and an empty table has one morsel. -/
def readTableData (totalRows : Nat) (items : List MetaItem) : Option VersionedTable :=
  (readMorsels (morselCount totalRows) 0 (fun segment => .empty (segment * morselSize)) items).map
    fun versions => { totalRows, segmentCount := max 1 (morselCount totalRows), versions }

def reload (table : VersionedTable) : Option VersionedTable :=
  readTableData table.totalRows table.checkpointDeletes

end VersionedTable

/-! Reading back what was written -/

def ChunkVectorInfo.keeping (slots : List Nat) : ChunkVectorInfo :=
  { fresh with
    anyDeleted := true
    deleted := fun slot =>
      if slot < standardVectorSize ∧ slot ∉ slots then 0 else notDeletedId }

namespace ChunkInfo

def reloaded : Option ChunkInfo → Option ChunkInfo
  | none => none
  | some (.constant insertId deleteId) =>
    if insertId ≥ transactionIdStart ∨ deleteId < transactionIdStart then some (.constant 0 0)
    else none
  | some (.vector info) =>
    let (count, selection) :=
      info.getSelVector (transactionIdStart - 1) invalidIndex standardVectorSize
    if count = standardVectorSize then none
    else if count = 0 then some (.constant 0 0)
    else some (.vector (.keeping (selection.take count)))

theorem getD_flags (size : Nat) (selected : List Nat) (slot : Nat) :
    ((range size).map fun slot => !selected.contains slot).getD slot false =
      decide (slot < size ∧ slot ∉ selected) := by
  by_cases small : slot < size
  · rw [getD_eq_getElem?_getD, getElem?_map, getElem?_range small]
    simp [small]
  · have outside : ((range size).map fun slot => !selected.contains slot)[slot]? = none :=
      getElem?_eq_none (by simpa using small)
    simp [small]

theorem deserialize_serialize (info : ChunkInfo) (start : Nat) (rest : List MetaItem) :
    deserialize (info.serialize start ++ rest) = some (reloaded (some info), rest) := by
  cases info with
  | constant insertId deleteId =>
    simp only [serialize, reloaded]
    by_cases deleted : insertId ≥ transactionIdStart ∨ deleteId < transactionIdStart
    · rw [if_pos deleted, if_pos deleted]
      rfl
    · rw [if_neg deleted, if_neg deleted]
      rfl
  | vector info =>
    simp only [serialize, reloaded]
    generalize info.getSelVector (transactionIdStart - 1) invalidIndex standardVectorSize = selected
    by_cases all : selected.1 = standardVectorSize
    · rw [if_pos all, if_pos all]
      rfl
    by_cases none : selected.1 = 0
    · rw [if_neg all, if_neg all, if_pos none, if_pos none]
      rfl
    · rw [if_neg all, if_neg all, if_neg none, if_neg none]
      simp only [cons_append, nil_append, deserialize, getD_flags, decide_eq_true_eq]
      rfl

end ChunkInfo

namespace MorselInfo

theorem readInfos_write {morsel : MorselInfo} {indices : List Nat}
    (written : ∀ vectorIdx ∈ indices, (morsel.info vectorIdx).isSome)
    (infos : Nat → Option ChunkInfo) (rest : List MetaItem) :
    readInfos indices.length infos (indices.flatMap morsel.writeInfo ++ rest) =
      some (fun vectorIdx => if vectorIdx ∈ indices then
        ChunkInfo.reloaded (morsel.info vectorIdx) else infos vectorIdx, rest) := by
  induction indices generalizing infos with
  | nil => simp [readInfos]
  | cons first indices ih =>
    obtain ⟨info, found⟩ := isSome_iff_exists.mp (written first mem_cons_self)
    have later := ih (fun vectorIdx member => written vectorIdx (mem_cons_of_mem _ member))
      (update infos first (ChunkInfo.reloaded (some info)))
    rw [flatMap_cons, writeInfo, found, length_cons, append_assoc,
      cons_append, readInfos, ChunkInfo.deserialize_serialize, bind_some]
    refine later.trans ?_
    congr 2
    funext vectorIdx
    by_cases inside : vectorIdx ∈ indices
    · simp [inside]
    · by_cases same : vectorIdx = first
      · subst same
        simp [inside, found]
      · simp [inside, same]

theorem read_checkpoint (morsel : MorselInfo) (start : Nat) (rest : List MetaItem) :
    read start (morsel.checkpoint ++ rest) = some ({ start, info := fun vectorIdx =>
      if vectorIdx < morselVectorCount then ChunkInfo.reloaded (morsel.info vectorIdx) else none },
      rest) := by
  have written : ∀ vectorIdx ∈ morsel.infoIndices, (morsel.info vectorIdx).isSome :=
    fun vectorIdx member => (mem_filter.mp member).2
  rw [checkpoint, cons_append, read, readInfos_write written]
  simp only [map_some]
  congr 3
  funext vectorIdx
  have listed : vectorIdx ∈ morsel.infoIndices ↔ vectorIdx < morselVectorCount ∧ (morsel.info vectorIdx).isSome := by
    simp [infoIndices]
  by_cases small : vectorIdx < morselVectorCount
  · cases found : morsel.info vectorIdx with
    | none => simp [listed, found, ChunkInfo.reloaded]
    | some info => simp [listed, found, small]
  · simp [listed, small]

end MorselInfo

namespace VersionedTable

def reloaded (table : VersionedTable) : VersionedTable where
  totalRows := table.totalRows
  segmentCount := max 1 (morselCount table.totalRows)
  versions := fun segment =>
    { start := segment * morselSize
      info := fun vectorIdx =>
        if segment < morselCount table.totalRows ∧ vectorIdx < morselVectorCount then
          ChunkInfo.reloaded ((table.versions segment).info vectorIdx)
        else none }

theorem readMorsels_write (table : VersionedTable) (count segment : Nat)
    (versions : Nat → MorselInfo) (rest : List MetaItem) :
    readMorsels count segment versions
        ((range' segment count).flatMap (fun segment => (table.versions segment).checkpoint) ++ rest) =
      some fun other =>
        if segment ≤ other ∧ other < segment + count then
          { start := other * morselSize
            info := fun vectorIdx => if vectorIdx < morselVectorCount then
              ChunkInfo.reloaded ((table.versions other).info vectorIdx) else none }
        else versions other := by
  induction count generalizing segment versions with
  | zero =>
    rw [readMorsels]
    congr 1
    funext other
    rw [if_neg (by omega)]
  | succ count ih =>
    rw [range'_succ, flatMap_cons, append_assoc, readMorsels, MorselInfo.read_checkpoint, bind_some]
    refine (ih (segment + 1) _).trans ?_
    congr 1
    funext other
    by_cases here : other = segment
    · subst here
      rw [if_neg (by omega), if_pos (by omega), update_self]
    · rw [update_of_ne here]
      by_cases later : segment + 1 ≤ other ∧ other < segment + 1 + count
      · rw [if_pos later, if_pos (by omega)]
      · rw [if_neg later, if_neg (by omega)]

theorem reload_eq {table : VersionedTable} (enough : morselCount table.totalRows ≤ table.segmentCount) :
    table.reload = some table.reloaded := by
  have written : table.checkpointDeletes = (range' 0 (morselCount table.totalRows)).flatMap
          (fun segment => (table.versions segment).checkpoint) ++
        (range' (morselCount table.totalRows) (table.segmentCount - morselCount table.totalRows)).flatMap
          (fun segment => (table.versions segment).checkpoint) := by
    rw [checkpointDeletes, range_eq_range', ← flatMap_append]
    congr 1
    have joined : range' 0 (morselCount table.totalRows) ++ range' (0 + morselCount table.totalRows)
          (table.segmentCount - morselCount table.totalRows) =
        range' 0 (morselCount table.totalRows + (table.segmentCount - morselCount table.totalRows)) := range'_append_1
    rw [Nat.zero_add, Nat.add_sub_cancel' enough] at joined
    exact joined.symm
  rw [reload, readTableData, written, readMorsels_write, map_some]
  congr 2
  funext segment
  by_cases needed : segment < morselCount table.totalRows
  · simp [needed]
  · simp [needed, MorselInfo.empty]

end VersionedTable

/-! The ids after a checkpoint -/

def checkpointReader : Transaction where
  startTime := transactionIdStart - 1
  transactionId := invalidIndex
  commitId := 0
  highestActiveQuery := 0
  activeQuery := 0

theorem checkpointReader_canRead : checkpointReader.CanRead := by
  constructor <;> decide

namespace RowVersion

structure Settled (version : RowVersion) : Prop where
  inserted : version.inserted < transactionIdStart - 1 ∨
    transactionIdStart ≤ version.inserted ∧ version.inserted < notDeletedId
  deleted : version.deleted < transactionIdStart - 1 ∨ version.deleted = notDeletedId

variable {version : RowVersion}

theorem visible_iff {transaction : Transaction} : version.visible transaction = true ↔
      (version.inserted < transaction.startTime ∨ version.inserted = transaction.transactionId) ∧
        ¬(version.deleted < transaction.startTime ∨ version.deleted = transaction.transactionId) := by
  simp [visible, useVersion]

theorem Settled.visible_checkpoint (settled : version.Settled) : version.visible checkpointReader = true ↔
      version.inserted < transactionIdStart - 1 ∧ version.deleted = notDeletedId := by
  have inserted := settled.inserted
  have deleted := settled.deleted
  rw [visible_iff]
  simp only [checkpointReader, invalidIndex, notDeletedId, transactionIdStart] at inserted deleted ⊢
  omega

def reloaded (version : RowVersion) : RowVersion where
  inserted := 0
  deleted := if version.visible checkpointReader then notDeletedId else 0

end RowVersion

def ChunkVectorInfo.checkpointSlots (info : ChunkVectorInfo) : List Nat :=
  selectedRows standardVectorSize
    (info.getSelVector (transactionIdStart - 1) invalidIndex standardVectorSize)

variable {info : ChunkVectorInfo}

theorem ChunkVectorInfo.mem_checkpointSlots {slot : Nat} : slot ∈ info.checkpointSlots ↔ slot < standardVectorSize ∧
        info.selects checkpointReader.startTime checkpointReader.transactionId slot = true := by
  rw [checkpointSlots, selectedRows_getSelVector, mem_filter, mem_range]
  rfl

theorem ChunkInfo.reloaded_vector : reloaded (some (.vector info)) = none ∧
        (∀ slot < standardVectorSize, slot ∈ info.checkpointSlots) ∨
      reloaded (some (.vector info)) = some (.constant 0 0) ∧ info.checkpointSlots = [] ∨
      reloaded (some (.vector info)) = some (.vector (.keeping info.checkpointSlots)) := by
  unfold checkpointSlots
  simp only [reloaded, selectedRows]
  generalize info.getSelVector (transactionIdStart - 1) invalidIndex standardVectorSize = selected
  by_cases all : selected.1 = standardVectorSize
  · refine .inl ⟨if_pos all, fun slot small => ?_⟩
    rw [if_pos all]
    exact mem_range.mpr small
  by_cases none : selected.1 = 0
  · refine .inr (.inl ⟨?_, ?_⟩)
    · rw [if_neg all, if_pos none]
    · rw [if_neg all, none, take_zero]
  · refine .inr (.inr ?_)
    rw [if_neg all, if_neg none, if_neg all]

variable {version : RowVersion}

theorem RowVersion.reloaded_of_visible (visible : version.visible checkpointReader = true) :
    version.reloaded = { inserted := 0, deleted := notDeletedId } := by
  rw [RowVersion.reloaded, if_pos visible]

theorem RowVersion.reloaded_of_hidden (hidden : ¬version.visible checkpointReader = true) :
    version.reloaded = { inserted := 0, deleted := 0 } := by
  rw [RowVersion.reloaded, if_neg hidden]

theorem Sound.reloaded {used : Nat} {rows : Nat → RowVersion} {info : Option ChunkInfo}
    (sound : Sound used rows info) (bounded : used ≤ standardVectorSize)
    (settled : ∀ row < used, (rows row).Settled)
    (clean : ∀ chunk, info = some (.vector chunk) → ∀ slot, used ≤ slot →
      slot < standardVectorSize → slot ∈ chunk.checkpointSlots) :
    Sound used (fun row => (rows row).reloaded) (ChunkInfo.reloaded info) := by
  match info, sound with
  | none, unwritten =>
    intro row inside
    apply reloaded_of_visible
    rw [unwritten row inside]
    decide
  | some (.constant insertId deleteId), constant =>
    obtain ⟨full, ids⟩ := constant
    have visible (row : Nat) (inside : row < used) : (rows row).visible checkpointReader = true ↔
          ¬(insertId ≥ transactionIdStart ∨ deleteId < transactionIdStart) := by
      have known := settled row inside
      rw [known.visible_checkpoint]
      have inserted := known.inserted
      have deleted := known.deleted
      rw [ids row inside] at inserted deleted ⊢
      simp only [notDeletedId, transactionIdStart] at inserted deleted ⊢
      omega
    simp only [ChunkInfo.reloaded]
    by_cases gone : insertId ≥ transactionIdStart ∨ deleteId < transactionIdStart
    · rw [if_pos gone]
      refine ⟨full, fun row inside => reloaded_of_hidden ?_⟩
      rw [visible row inside]
      exact not_not_intro gone
    · rw [if_neg gone]
      exact fun row inside => reloaded_of_visible ((visible row inside).mpr gone)
  | some (.vector chunk), vector =>
    have kept (row : Nat) (inside : row < used) :
        (rows row).visible checkpointReader = true ↔ row ∈ chunk.checkpointSlots := by
      rw [mem_checkpointSlots, ← vector.2.selects checkpointReader_canRead inside]
      exact (and_iff_right (lt_of_lt_of_le inside bounded)).symm
    rcases ChunkInfo.reloaded_vector with ⟨none, all⟩ | ⟨constant, empty⟩ | marked
    · rw [none]
      exact fun row inside => reloaded_of_visible ((kept row inside).mpr (all row (lt_of_lt_of_le inside bounded)))
    · rw [constant]
      have full : used = standardVectorSize := by
        by_contra partlyUsed
        have slot := clean chunk rfl used (le_refl _) (by omega)
        rw [empty] at slot
        cases slot
      refine ⟨full, fun row inside => reloaded_of_hidden ?_⟩
      rw [kept row inside, empty]
      exact not_mem_nil
    · rw [marked]
      refine ⟨vector.1, { ids := ?_, kept := ?_, unused := ?_, same := fun _ _ _ => rfl }⟩
      · intro row inside
        have small := lt_of_lt_of_le inside bounded
        by_cases slot : row ∈ chunk.checkpointSlots
        · rw [reloaded_of_visible ((kept row inside).mpr slot)]
          simp [keeping, fresh, slot]
        · rw [reloaded_of_hidden (fun visible => slot ((kept row inside).mp visible))]
          simp [keeping, fresh, slot, small]
      · intro unmarked
        cases unmarked
      · intro slot beyond
        refine if_neg ?_
        rintro ⟨small, missing⟩
        exact missing (clean chunk rfl slot beyond small)

namespace VersionedTable

/-- Every slot behind the last row is one that a checkpoint keeps. -/
def NoStaleSlots (table : VersionedTable) : Prop :=
  ∀ vector chunk, table.info vector = some (.vector chunk) → ∀ slot,
    table.rowsIn vector ≤ slot → slot < standardVectorSize → slot ∈ chunk.checkpointSlots

theorem reloaded_info (table : VersionedTable) (vector : Nat) : table.reloaded.info vector =
      if vector / morselVectorCount < morselCount table.totalRows then
        ChunkInfo.reloaded (table.info vector) else none := by
  have small : vector % morselVectorCount < morselVectorCount := Nat.mod_lt _ (by decide)
  simp [info, reloaded, small]

theorem reloaded_totalRows (table : VersionedTable) : table.reloaded.totalRows = table.totalRows := by
  rw [reloaded]

theorem reloaded_layout (table : VersionedTable) : table.reloaded.Layout where
  starts := fun _ => rfl
  beyond := by
    intro segment outside
    have unneeded : ¬segment < morselCount table.totalRows := by
      change max 1 (morselCount table.totalRows) ≤ segment at outside
      omega
    simp [reloaded, MorselInfo.empty, unneeded]
  positive := Nat.le_max_left _ _
  ends := by
    have size : morselSize = 102400 := rfl
    simp only [EndsAt, reloaded, morselCount, size]
    omega

variable {table : VersionedTable}

theorem Layout.reload (layout : table.Layout) : table.reload = some table.reloaded := by
  apply reload_eq
  have ends := layout.ends.2
  have size : morselSize = 102400 := rfl
  simp only [morselCount, size] at ends ⊢
  omega

theorem morsel_needed {vector row totalRows : Nat} (inTable : vector * standardVectorSize + row < totalRows) :
    vector / morselVectorCount < morselCount totalRows := by
  have size : morselSize = 102400 := rfl
  rw [morselCount, size]
  simp only [standardVectorSize, morselVectorCount] at inTable ⊢
  omega

theorem reloaded_sound {recorded : RowVersions} (sound : AllSound table recorded)
    (clean : table.NoStaleSlots) (settled : ∀ row < table.totalRows, (recorded row).Settled) :
    AllSound table.reloaded fun row => (recorded row).reloaded := by
  intro vector
  have ids : rowsOf (fun row => (recorded row).reloaded) vector =
      fun row => (rowsOf recorded vector row).reloaded := rfl
  rw [reloaded_info, rowsIn, reloaded_totalRows, ← rowsIn, ids]
  split
  · exact (sound vector).reloaded (table.rowsIn_le vector)
      (fun row inside => settled _ (lt_totalRows inside)) (clean vector)
  next outside =>
    exact fun row inside => absurd (morsel_needed (lt_totalRows inside)) outside

theorem reloaded_constants {vector insertId deleteId : Nat}
    (found : table.reloaded.info vector = some (.constant insertId deleteId)) :
    insertId = 0 ∧ deleteId = 0 := by
  rw [reloaded_info] at found
  split at found
  · match given : table.info vector with
    | none =>
      rw [given] at found
      cases found
    | some (.constant _ _) =>
      rw [given, ChunkInfo.reloaded] at found
      split at found
      · cases found
        exact ⟨rfl, rfl⟩
      · cases found
    | some (.vector chunk) =>
      rw [given] at found
      rcases ChunkInfo.reloaded_vector with ⟨none, _⟩ | ⟨constant, _⟩ | marked
      · rw [none] at found
        cases found
      · rw [constant] at found
        cases found
        exact ⟨rfl, rfl⟩
      · rw [marked] at found
        cases found
  · cases found

end VersionedTable

end GuinsooDB
