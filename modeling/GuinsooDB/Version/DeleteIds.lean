import Mathlib.Data.List.Dedup
import GuinsooDB.Version.Table

/-!
`DataTable::Delete` for an arbitrary vector of row ids. The ids need not be sorted or distinct,
and they may belong to several vectors, to several morsels or to the rows that the transaction
has not written to the table yet.
-/

namespace GuinsooDB

open List Function

structure LocalDeletes where
  deletedEntries : Nat → Nat → Bool
  deletedRows : Nat

namespace LocalDeletes

def markLoop (baseIndex : Nat) : List Nat → (Nat → Bool) → Option (Nat → Bool)
  | [], deleted => some deleted
  | id :: rest, deleted =>
    if baseIndex ≤ id ∧ id < baseIndex + standardVectorSize then
      markLoop baseIndex rest (update deleted (id - baseIndex) true)
    else none

def delete (storage : LocalDeletes) (firstId : Nat) (ids : List Nat) : Option LocalDeletes :=
  let chunkIdx := (firstId - maxRowId) / standardVectorSize
  let baseIndex := maxRowId + chunkIdx * standardVectorSize
  (markLoop baseIndex ids (storage.deletedEntries chunkIdx)).map fun deleted =>
    { deletedEntries := update storage.deletedEntries chunkIdx deleted
      deletedRows := storage.deletedRows + ids.length }

def isDeleted (storage : LocalDeletes) (id : Nat) : Bool :=
  storage.deletedEntries ((id - maxRowId) / standardVectorSize)
    ((id - maxRowId) % standardVectorSize)

end LocalDeletes

/-- The loop of `MorselInfo::Delete` for a morsel that starts at the given row. The infos of a
morsel are an array for its own vectors, and the position of an id of another morsel is outside
of it. -/
def VersionDeleteState.deleteIds (transactionId start : Nat) (state : VersionDeleteState) :
    List Nat → Option (VersionDeleteState × Option String)
  | [] => some (state.flush transactionId)
  | id :: rest =>
    if start ≤ id ∧ id < start + morselSize then
      match state.delete transactionId (id - start) with
      | (stopped, some message) => some (stopped, some message)
      | (next, none) => deleteIds transactionId start next rest
    else
      match state.flush transactionId with
      | (stopped, some message) => some (stopped, some message)
      | (_, none) => none

variable {state : VersionDeleteState}

theorem VersionDeleteState.deleteIds_eq_deleteLoop {transactionId start : Nat} {ids : List Nat}
    (inside : ∀ id ∈ ids, start ≤ id ∧ id < start + morselSize) :
    state.deleteIds transactionId start ids = some (state.deleteLoop transactionId (ids.map (· - start))) := by
  induction ids generalizing state with
  | nil => rfl
  | cons id rest ih =>
    rw [deleteIds, if_pos (inside id mem_cons_self), map_cons, deleteLoop]
    rcases state.delete transactionId (id - start) with ⟨next, _ | message⟩
    · exact ih fun other member => inside other (mem_cons_of_mem _ member)
    · rfl

structure DeleteInfo where
  vectorStart : Nat
  rows : List Nat
  deriving Repr, DecidableEq

namespace DeleteInfo

def rowNumbers (pushed : List DeleteInfo) : List Nat :=
  pushed.flatMap fun info => info.rows.map (info.vectorStart + ·)

def cleanupCount : List DeleteInfo → Nat
  | [] => 0
  | info :: rest => info.rows.length + cleanupCount rest

theorem cleanupCount_eq (pushed : List DeleteInfo) : cleanupCount pushed = (rowNumbers pushed).length := by
  induction pushed with
  | nil => rfl
  | cons info rest ih =>
    rw [cleanupCount, ih, rowNumbers, rowNumbers, flatMap_cons, length_append, length_map]

end DeleteInfo

/-- A table with the local storage that one transaction has for it. -/
structure DeletableTable where
  versions : VersionedTable
  storage : LocalDeletes

structure DeleteResult where
  table : DeletableTable
  pushed : List DeleteInfo
  error : Option String

namespace DeletableTable

def delete (table : DeletableTable) (transactionId : Nat) (ids : List Nat) :
    Option DeleteResult :=
  match ids with
  | [] => some { table, pushed := [], error := none }
  | firstId :: _ =>
    if maxRowId ≤ firstId then
      (table.storage.delete firstId ids).map fun storage =>
        { table := { table with storage }, pushed := [], error := none }
    else
      let segment := firstId / morselSize
      if segment < table.versions.segmentCount then
        let start := segment * morselSize
        let initial : VersionDeleteState :=
          { morsel := table.versions.versions segment, currentChunk := none, rows := [],
            pushed := [] }
        (initial.deleteIds transactionId start ids).map fun (state, error) =>
          { table := { table with versions := table.versions.setMorsel segment state.morsel }
            pushed := state.pushed.map fun (vectorIdx, rows) =>
              { vectorStart := start + vectorIdx * standardVectorSize, rows }
            error }
      else
        some { table, pushed := [],
               error := some "Could not find node in column segment tree!" }

end DeletableTable

/-! The ids of a row -/

namespace ChunkInfo

def deletedId : Option ChunkInfo → Nat → Nat
  | none, _ => notDeletedId
  | some (.constant _ deleteId), _ => deleteId
  | some (.vector info), row => info.deleted row

def insertedId : Option ChunkInfo → Nat → Nat
  | none, _ => 0
  | some (.constant insertId _), _ => insertId
  | some (.vector info), row => info.inserted row

def Clean (info : Option ChunkInfo) : Prop :=
  ∀ insertId deleteId, info = some (.constant insertId deleteId) → deleteId = notDeletedId

theorem insertedId_toVector (info : Option ChunkInfo) (row : Nat) :
    (toVector info).inserted row = insertedId info row := by
  rcases info with _ | ⟨insertId, deleteId⟩ | chunk <;> rfl

variable {info : Option ChunkInfo}

theorem deletedId_toVector (clean : Clean info) (row : Nat) : (toVector info).deleted row = deletedId info row := by
  rcases info with _ | ⟨insertId, deleteId⟩ | chunk
  · rfl
  · exact (clean insertId deleteId rfl).symm
  · rfl

theorem deleted_toVector_of_not_clean (whole : ¬Clean info) (row : Nat) :
    (toVector info).deleted row = notDeletedId := by
  rcases info with _ | ⟨insertId, deleteId⟩ | chunk
  · rfl
  · rfl
  · exact absurd (fun _ _ found => nomatch found) whole

end ChunkInfo

namespace MorselInfo

def infoOf (morsel : MorselInfo) (row : Nat) : Option ChunkInfo :=
  morsel.info (row / standardVectorSize)

def deletedId (morsel : MorselInfo) (row : Nat) : Nat :=
  ChunkInfo.deletedId (morsel.infoOf row) (row % standardVectorSize)

def insertedId (morsel : MorselInfo) (row : Nat) : Nat :=
  ChunkInfo.insertedId (morsel.infoOf row) (row % standardVectorSize)

def Deletable (morsel : MorselInfo) (row : Nat) : Prop :=
  morsel.deletedId row = notDeletedId ∧ morsel.insertedId row < transactionIdStart

instance (morsel : MorselInfo) (row : Nat) : Decidable (morsel.Deletable row) :=
  inferInstanceAs (Decidable (_ ∧ _))

end MorselInfo

namespace ChunkVectorInfo

def Deletable (info : ChunkVectorInfo) (row : Nat) : Prop :=
  info.deleted row = notDeletedId ∧ info.inserted row < transactionIdStart

def mark (info : ChunkVectorInfo) (transactionId : Nat) (rows : List Nat) : ChunkVectorInfo :=
  { info with
    anyDeleted := true
    deleted := fun row => if row ∈ rows then transactionId else info.deleted row }

variable {info : ChunkVectorInfo} {rows : List Nat}

theorem delete_of_deletable (deletable : ∀ row ∈ rows, info.Deletable row) (id : Nat) :
    info.delete id rows = (info.mark id rows, none) := by
  dsimp only [delete]
  split
  next message thrown =>
    obtain ⟨row, member, thrown⟩ := exists_of_findSome?_eq_some thrown
    obtain ⟨free, committed⟩ := deletable row member
    rw [if_neg (not_not_intro free), if_neg (Nat.not_le_of_lt committed)] at thrown
    cases thrown
  · rfl

theorem delete_of_conflict {row : Nat} (member : row ∈ rows) (conflict : ¬info.Deletable row) (id : Nat) :
    ∃ message, info.delete id rows = ({ info with anyDeleted := true }, some message) := by
  dsimp only [delete]
  split
  next message _ => exact ⟨message, rfl⟩
  next thrown =>
    have quiet := (findSome?_eq_none_iff.mp thrown) row member
    refine absurd ⟨?_, ?_⟩ conflict
    · by_contra marked
      rw [if_pos marked] at quiet
      exact nomatch quiet
    by_contra uncommitted
    split at quiet
    · exact nomatch quiet
    · rw [if_pos (Nat.le_of_not_lt uncommitted)] at quiet
      exact nomatch quiet

end ChunkVectorInfo

namespace VersionDeleteState

variable {state flushed : VersionDeleteState} {base : MorselInfo} {transactionId vector row : Nat}
  {run : List Nat}

def pushedRows (state : VersionDeleteState) : List Nat :=
  state.pushed.flatMap fun group => group.2.map (group.1 * standardVectorSize + ·)

structure Entered (state : VersionDeleteState) (vector : Nat) (run : List Nat) : Prop where
  current : state.currentChunk = some vector
  converted : ∃ chunk, state.morsel.info vector = some (.vector chunk)
  collected : state.rows = run.map (· % standardVectorSize)
  nonempty : run ≠ []
  inside : ∀ row ∈ run, row / standardVectorSize = vector

/-- The rows of the run have got the id of the transaction that deletes them. -/
structure Marked (transactionId : Nat) (run : List Nat) (morsel marked : MorselInfo) : Prop where
  deleted : ∀ row, marked.deletedId row =
    if row ∈ run then transactionId else morsel.deletedId row
  inserted : ∀ row, marked.insertedId row = morsel.insertedId row
  infos : ∀ vector, marked.info vector = morsel.info vector ∨
    ∃ chunk, marked.info vector = some (.vector chunk)

structure Flushed (transactionId : Nat) (run : List Nat) (state flushed : VersionDeleteState) :
    Prop where
  pushed : flushed.pushedRows = state.pushedRows ++ run
  marks : Marked transactionId run state.morsel flushed.morsel

theorem setInfo_infoOf (state : VersionDeleteState) (vector row : Nat) (chunk : ChunkVectorInfo) :
    (state.setInfo vector chunk).morsel.infoOf row = if row / standardVectorSize = vector then some (.vector chunk)
      else state.morsel.infoOf row := by
  rw [MorselInfo.infoOf, MorselInfo.infoOf, setInfo]
  exact update_apply ..

variable {chunk : ChunkVectorInfo}

theorem mem_map_mod (inside : ∀ row ∈ run, row / standardVectorSize = vector)
    (here : row / standardVectorSize = vector) :
    row % standardVectorSize ∈ run.map (· % standardVectorSize) ↔ row ∈ run := by
  rw [mem_map]
  constructor
  · rintro ⟨other, member, same⟩
    have place := inside other member
    have equal : other = row := by
      rw [← Nat.div_add_mod other standardVectorSize, ← Nat.div_add_mod row standardVectorSize, place, here, same]
    exact equal ▸ member
  · exact fun member => ⟨row, member, rfl⟩

variable (converted : state.morsel.info vector = some (.vector chunk))

include converted in
theorem setInfo_marked (inside : ∀ row ∈ run, row / standardVectorSize = vector) (id : Nat) :
    Marked id run state.morsel (state.setInfo vector (chunk.mark id (run.map (· % standardVectorSize)))).morsel where
  deleted := by
    intro row
    rw [MorselInfo.deletedId, setInfo_infoOf]
    by_cases here : row / standardVectorSize = vector
    · rw [if_pos here]
      change (if row % standardVectorSize ∈ _ then _ else _) = _
      simp only [mem_map_mod inside here]
      split
      · rfl
      · rw [MorselInfo.deletedId, MorselInfo.infoOf, here, converted]
        rfl
    · rw [if_neg here, if_neg fun member => here (inside row member)]
      rfl
  inserted := by
    intro row
    rw [MorselInfo.insertedId, setInfo_infoOf, MorselInfo.insertedId]
    split
    · next here =>
        rw [MorselInfo.infoOf, here, converted]
        rfl
    · rfl
  infos := by
    intro other
    by_cases same : other = vector
    · refine .inr ⟨chunk.mark id (run.map (· % standardVectorSize)), ?_⟩
      rw [same]
      exact update_self ..
    · exact .inl (update_of_ne same ..)

section

variable (entered : Entered state vector run)
include entered

include converted in
theorem Entered.infoOf (member : row ∈ run) : state.morsel.infoOf row = some (.vector chunk) := by
  rw [MorselInfo.infoOf, entered.inside row member, converted]

include converted in
theorem Entered.deletable_iff (member : row ∈ run) :
    chunk.Deletable (row % standardVectorSize) ↔ state.morsel.Deletable row := by
  rw [ChunkVectorInfo.Deletable, MorselInfo.Deletable, MorselInfo.deletedId, MorselInfo.insertedId,
    entered.infoOf converted member]
  exact Iff.rfl

theorem Entered.rows_ne_nil : state.rows ≠ [] := by
  rw [entered.collected]
  exact fun none => entered.nonempty (map_eq_nil_iff.mp none)

theorem Entered.flush_deletable (deletable : ∀ row ∈ run, state.morsel.Deletable row) (id : Nat) :
    ∃ flushed, state.flush id = (flushed, none) ∧ flushed.rows = [] ∧ Flushed id run state flushed := by
  obtain ⟨chunk, converted⟩ := entered.converted
  have free : ∀ row ∈ state.rows, chunk.Deletable row := by
    rw [entered.collected]
    intro position member
    obtain ⟨row, inRun, rfl⟩ := mem_map.mp member
    exact (entered.deletable_iff converted inRun).mpr (deletable row inRun)
  rw [flush_eq entered.current converted rfl entered.rows_ne_nil, ChunkVectorInfo.delete_of_deletable free id]
  refine ⟨_, rfl, rfl, ?_, ?_⟩
  · change (state.pushed ++ [(vector, state.rows)]).flatMap _ = state.pushed.flatMap _ ++ run
    rw [flatMap_append, flatMap_singleton, entered.collected, map_map]
    congr 1
    refine map_congr_left ?_ |>.trans (map_id run)
    intro row member
    rw [← entered.inside row member, Nat.mul_comm]
    exact Nat.div_add_mod row standardVectorSize
  · rw [entered.collected]
    exact setInfo_marked converted entered.inside id

theorem Entered.flush_conflict (member : row ∈ run) (conflict : ¬state.morsel.Deletable row) (id : Nat) :
    ∃ stopped message, state.flush id = (stopped, some message) ∧ Flushed id [] state stopped := by
  obtain ⟨chunk, converted⟩ := entered.converted
  have collected : row % standardVectorSize ∈ state.rows := by
    rw [entered.collected]
    exact mem_map_of_mem member
  obtain ⟨message, thrown⟩ := ChunkVectorInfo.delete_of_conflict collected
    (fun free => conflict ((entered.deletable_iff converted member).mp free)) id
  rw [flush_eq entered.current converted rfl entered.rows_ne_nil, thrown]
  exact ⟨_, message, rfl, (append_nil _).symm, setInfo_marked converted (by simp) id⟩

end

structure Progress (base : MorselInfo) (transactionId : Nat) (state : VersionDeleteState) :
    Prop where
  infos : ∀ vector, state.morsel.info vector = base.info vector ∨
    ∃ chunk, state.morsel.info vector = some (.vector chunk)
  inserted : ∀ row, state.morsel.insertedId row = base.insertedId row
  deleted : ∀ row, ChunkInfo.Clean (base.infoOf row) → state.morsel.deletedId row =
    if row ∈ state.pushedRows then transactionId else base.deletedId row

theorem Progress.flush (progress : Progress base transactionId state)
    (flushes : Flushed transactionId run state flushed) :
    Progress base transactionId flushed where
  infos := by
    intro vector
    rcases flushes.marks.infos vector with same | converted
    · rw [same]
      exact progress.infos vector
    · exact .inr converted
  inserted := fun row => (flushes.marks.inserted row).trans (progress.inserted row)
  deleted := by
    intro row clean
    rw [flushes.marks.deleted, flushes.pushed, progress.deleted row clean]
    by_cases pushed : row ∈ state.pushedRows <;> simp [pushed]

theorem Progress.clean (progress : Progress base transactionId state)
    (clean : ChunkInfo.Clean (base.infoOf row)) : ChunkInfo.Clean (state.morsel.infoOf row) := by
  rcases progress.infos (row / standardVectorSize) with same | ⟨chunk, converted⟩
  · rw [MorselInfo.infoOf, same]
    exact clean
  · rw [MorselInfo.infoOf, converted]
    exact fun _ _ found => nomatch found

def enter (state : VersionDeleteState) (rowId : Nat) : VersionDeleteState :=
  { state.setInfo (rowId / standardVectorSize)
      (ChunkInfo.toVector (state.morsel.infoOf rowId)) with
    currentChunk := some (rowId / standardVectorSize)
    rows := state.rows ++ [rowId - rowId / standardVectorSize * standardVectorSize] }

theorem enter_infoOf (state : VersionDeleteState) (rowId row : Nat) :
    (state.enter rowId).morsel.infoOf row = if row / standardVectorSize = rowId / standardVectorSize then
        some (.vector (ChunkInfo.toVector (state.morsel.infoOf row)))
      else state.morsel.infoOf row := by
  change (state.setInfo _ _).morsel.infoOf row = _
  rw [setInfo_infoOf]
  split
  · next here => rw [MorselInfo.infoOf, MorselInfo.infoOf, here]
  · rfl

theorem enter_insertedId {rowId row : Nat} :
    (state.enter rowId).morsel.insertedId row = state.morsel.insertedId row := by
  rw [MorselInfo.insertedId, enter_infoOf]
  split
  · exact ChunkInfo.insertedId_toVector ..
  · rfl

variable {rowId : Nat}

theorem enter_deletedId (clean : row / standardVectorSize = rowId / standardVectorSize →
      ChunkInfo.Clean (state.morsel.infoOf row)) :
    (state.enter rowId).morsel.deletedId row = state.morsel.deletedId row := by
  rw [MorselInfo.deletedId, enter_infoOf]
  split
  · next here => exact ChunkInfo.deletedId_toVector (clean here) _
  · rfl

theorem enter_entered (idle : state.rows = []) : Entered (state.enter rowId) (rowId / standardVectorSize) [rowId] where
  current := rfl
  converted := ⟨_, update_self ..⟩
  collected := by
    change state.rows ++ _ = _
    rw [idle, nil_append, map_singleton, Nat.mod_eq_sub_mul_div, Nat.mul_comm]
  nonempty := cons_ne_nil _ _
  inside := by simp

theorem Progress.enter (progress : Progress base transactionId state) (rowId : Nat) :
    Progress base transactionId (state.enter rowId) where
  infos := by
    intro vector
    by_cases here : vector = rowId / standardVectorSize
    · refine .inr ⟨ChunkInfo.toVector (state.morsel.infoOf rowId), ?_⟩
      rw [here]
      exact update_self ..
    · rw [show (state.enter rowId).morsel.info vector = state.morsel.info vector from
        update_of_ne here ..]
      exact progress.infos vector
  inserted := fun row => (enter_insertedId).trans (progress.inserted row)
  deleted := by
    intro row clean
    rw [enter_deletedId fun _ => progress.clean clean]
    exact progress.deleted row clean

def collect (state : VersionDeleteState) (rowId : Nat) : VersionDeleteState :=
  { state with
    rows := state.rows ++ [rowId - rowId / standardVectorSize * standardVectorSize] }

variable (entered : Entered state vector run)

include entered in
theorem Entered.collect (here : rowId / standardVectorSize = vector) (id : Nat) :
    state.delete id rowId = (state.collect rowId, none) ∧ Entered (state.collect rowId) vector (run ++ [rowId]) := by
  refine ⟨?_, entered.current, entered.converted, ?_, by simp, ?_⟩
  · rw [delete, if_neg (not_not_intro (entered.current.trans (by rw [here])))]
    rfl
  · change state.rows ++ _ = _
    rw [entered.collected, map_append, map_singleton, Nat.mod_eq_sub_mul_div, Nat.mul_comm]
  · intro row member
    rcases mem_append.mp member with old | new
    · exact entered.inside row old
    · rw [mem_singleton.mp new, here]

theorem delete_of_flush (elsewhere : state.currentChunk ≠ some (rowId / standardVectorSize))
    (flushes : state.flush transactionId = (flushed, none)) :
    state.delete transactionId rowId = (flushed.enter rowId, none) := by
  rw [delete, if_pos elsewhere, flushes]
  rfl

include entered in
theorem Entered.flush_cases (progress : Progress base transactionId state) :
    (∃ flushed, state.flush transactionId = (flushed, none) ∧ flushed.rows = [] ∧
        Flushed transactionId run state flushed ∧ Progress base transactionId flushed ∧
        ∀ row ∈ run, state.morsel.Deletable row) ∨
      ∃ stopped message, state.flush transactionId = (stopped, some message) ∧
        stopped.pushedRows = state.pushedRows ∧ Progress base transactionId stopped ∧
        ∃ row ∈ run, ¬state.morsel.Deletable row := by
  by_cases deletable : ∀ row ∈ run, state.morsel.Deletable row
  · obtain ⟨flushed, flushes, idle, effect⟩ := entered.flush_deletable deletable transactionId
    exact .inl ⟨flushed, flushes, idle, effect, progress.flush effect, deletable⟩
  push Not at deletable
  obtain ⟨row, member, conflict⟩ := deletable
  obtain ⟨stopped, message, flushes, effect⟩ := entered.flush_conflict member conflict transactionId
  exact .inr ⟨stopped, message, flushes, effect.pushed.trans (append_nil _),
    progress.flush effect, row, member, conflict⟩

variable {start : Nat} {ids : List Nat} {final : VersionDeleteState} {error : Option String}

section

variable (progress : Progress base transactionId state)
include progress

include entered in
theorem Entered.deleteIds_cons (start id : Nat) (rest : List Nat) :
    (start ≤ id ∧ id < start + morselSize) ∧ (id - start) / standardVectorSize = vector ∧
        state.deleteIds transactionId start (id :: rest) =
          (state.collect (id - start)).deleteIds transactionId start rest ∨
      ((start ≤ id ∧ id < start + morselSize) → (id - start) / standardVectorSize ≠ vector) ∧
        ((∃ flushed, flushed.rows = [] ∧ Flushed transactionId run state flushed ∧ Progress base transactionId flushed ∧
            (∀ row ∈ run, state.morsel.Deletable row) ∧
            state.deleteIds transactionId start (id :: rest) = if start ≤ id ∧ id < start + morselSize then
                (flushed.enter (id - start)).deleteIds transactionId start rest
              else none) ∨
          ∃ stopped message, state.flush transactionId = (stopped, some message) ∧
            stopped.pushedRows = state.pushedRows ∧ Progress base transactionId stopped ∧
            (∃ row ∈ run, ¬state.morsel.Deletable row) ∧
            state.deleteIds transactionId start (id :: rest) = some (stopped, some message)) := by
  rw [deleteIds]
  by_cases inside : start ≤ id ∧ id < start + morselSize
  · rw [if_pos inside]
    by_cases here : (id - start) / standardVectorSize = vector
    · refine .inl ⟨inside, here, ?_⟩
      rw [(entered.collect here transactionId).1]
    refine .inr ⟨fun _ => here, ?_⟩
    have elsewhere : state.currentChunk ≠ some ((id - start) / standardVectorSize) := by
      rw [entered.current]
      exact fun same => here (Option.some.inj same).symm
    rcases entered.flush_cases progress with
      ⟨flushed, flushes, idle, effect, next, deletable⟩ |
      ⟨stopped, message, flushes, pushed, next, conflict⟩
    · refine .inl ⟨flushed, idle, effect, next, deletable, ?_⟩
      rw [delete_of_flush elsewhere flushes, if_pos inside]
    · refine .inr ⟨stopped, message, flushes, pushed, next, conflict, ?_⟩
      rw [delete, if_pos elsewhere, flushes]
  · rw [if_neg inside]
    refine .inr ⟨fun within => absurd within inside, ?_⟩
    rcases entered.flush_cases progress with
      ⟨flushed, flushes, idle, effect, next, deletable⟩ |
      ⟨stopped, message, flushes, pushed, next, conflict⟩
    · refine .inl ⟨flushed, idle, effect, next, deletable, ?_⟩
      rw [flushes, if_neg inside]
    · refine .inr ⟨stopped, message, flushes, pushed, next, conflict, ?_⟩
      rw [flushes]

theorem Progress.collect (rowId : Nat) : Progress base transactionId (state.collect rowId) :=
  ⟨progress.infos, progress.inserted, progress.deleted⟩

theorem Progress.committed (deletable : state.morsel.Deletable row) : base.insertedId row < transactionIdStart := by
  rw [← progress.inserted row]
  exact deletable.2

end

include entered in
theorem deleteIds_spec (progress : Progress base transactionId state)
    (result : state.deleteIds transactionId start ids = some (final, error)) :
    Progress base transactionId final ∧ (∀ row ∈ state.pushedRows, row ∈ final.pushedRows) ∧
      (error = none → (∀ id ∈ ids, start ≤ id ∧ id < start + morselSize) ∧
        final.pushedRows = state.pushedRows ++ run ++ ids.map (· - start) ∧
        ∀ row ∈ run ++ ids.map (· - start), base.insertedId row < transactionIdStart) := by
  induction ids generalizing state vector run with
  | nil =>
    rw [deleteIds] at result
    rcases entered.flush_cases progress with
      ⟨flushed, flushes, idle, effect, next, deletable⟩ | ⟨stopped, message, flushes, pushed, next, -⟩
    · rw [flushes] at result
      cases result
      refine ⟨next, ?_, fun _ => ⟨by simp, ?_, ?_⟩⟩
      · intro row member
        rw [effect.pushed]
        exact mem_append_left _ member
      · rw [effect.pushed, map_nil, append_nil]
      · rw [map_nil, append_nil]
        exact fun row member => progress.committed (deletable row member)
    · rw [flushes] at result
      cases result
      exact ⟨next, by simp [pushed], fun none => nomatch none⟩
  | cons id rest ih =>
    rcases entered.deleteIds_cons progress start id rest with
      ⟨inside, here, moves⟩ | ⟨-, ⟨flushed, idle, effect, next, deletable, moves⟩ |
        ⟨stopped, message, -, pushed, next, -, moves⟩⟩
    · rw [moves] at result
      obtain ⟨last, kept, whole⟩ := ih (entered.collect here transactionId).2 (progress.collect _) result
      refine ⟨last, kept, fun none => ?_⟩
      obtain ⟨restInside, pushed, committed⟩ := whole none
      rw [append_assoc] at committed
      refine ⟨forall_mem_cons.mpr ⟨inside, restInside⟩, ?_, committed⟩
      rw [pushed, ← append_assoc, append_assoc _ [_]]
      rfl
    · rw [moves] at result
      split at result
      · next inside =>
          obtain ⟨last, kept, whole⟩ := ih (enter_entered idle) (next.enter _) result
          have enterPushed : (flushed.enter (id - start)).pushedRows = state.pushedRows ++ run := effect.pushed
          rw [enterPushed] at kept whole
          refine ⟨last, fun row member => kept row (mem_append_left _ member), fun none => ?_⟩
          obtain ⟨restInside, pushed, committed⟩ := whole none
          refine ⟨forall_mem_cons.mpr ⟨inside, restInside⟩, ?_, ?_⟩
          · rw [pushed, append_assoc]
            rfl
          · intro row member
            rcases mem_append.mp member with flushedRow | later
            · exact progress.committed (deletable row flushedRow)
            · exact committed row later
      · exact nomatch result
    · rw [moves] at result
      cases result
      exact ⟨next, by simp [pushed], fun none => nomatch none⟩

def runOf (start vector : Nat) (ids : List Nat) : List Nat :=
  ids.takeWhile fun id =>
    (start ≤ id ∧ id < start + morselSize) ∧ (id - start) / standardVectorSize = vector

variable {id : Nat}

theorem runOf_inside (member : id ∈ runOf start vector ids) : start ≤ id ∧ id < start + morselSize := by
  have test := mem_takeWhile_imp member
  exact (of_decide_eq_true test).1

variable {rest : List Nat}

theorem runOf_cons_of_here (inside : start ≤ id ∧ id < start + morselSize)
    (here : (id - start) / standardVectorSize = vector) :
    runOf start vector (id :: rest) = id :: runOf start vector rest :=
  takeWhile_cons_of_pos (decide_eq_true ⟨inside, here⟩)

theorem runOf_cons_of_elsewhere (elsewhere : (start ≤ id ∧ id < start + morselSize) →
      (id - start) / standardVectorSize ≠ vector) : runOf start vector (id :: rest) = [] :=
  takeWhile_cons_of_neg (by simpa using fun low high => elsewhere ⟨low, high⟩)

section

variable (entered : Entered state vector run) (progress : Progress base transactionId state)
include entered progress

theorem deleteIds_conflict (member : row ∈ run ++ (runOf start vector ids).map (· - start))
    (conflict : ¬state.morsel.Deletable row) :
    ∃ stopped message, state.deleteIds transactionId start ids = some (stopped, some message) ∧
      ∀ row, stopped.morsel.deletedId row = state.morsel.deletedId row := by
  induction ids generalizing state vector run with
  | nil =>
    rw [runOf, takeWhile_nil, map_nil, append_nil] at member
    obtain ⟨stopped, message, flushes, effect⟩ := entered.flush_conflict member conflict transactionId
    exact ⟨stopped, message, by rw [deleteIds, flushes], effect.marks.deleted⟩
  | cons id rest ih =>
    rcases entered.deleteIds_cons progress start id rest with
      ⟨inside, here, moves⟩ | ⟨elsewhere, outcome⟩
    · rw [runOf_cons_of_here inside here, map_cons, append_cons] at member
      rw [moves]
      exact ih (entered.collect here transactionId).2 (progress.collect _) member conflict
    rw [runOf_cons_of_elsewhere elsewhere, map_nil, append_nil] at member
    obtain ⟨stopped, message, flushes, effect⟩ := entered.flush_conflict member conflict transactionId
    refine ⟨stopped, message, ?_, effect.marks.deleted⟩
    rcases outcome with ⟨-, -, -, -, deletable, -⟩ | ⟨other, text, otherFlushes, -, -, -, moves⟩
    · exact absurd (deletable row member) conflict
    · rw [moves, ← otherFlushes, flushes]

theorem deleteIds_first (deletable : ∀ row ∈ run ++ (runOf start vector ids).map (· - start),
      state.morsel.Deletable row)
    (result : state.deleteIds transactionId start ids = some (final, error)) :
    ∀ row ∈ run, row ∈ final.pushedRows := by
  induction ids generalizing state vector run with
  | nil =>
    rw [runOf, takeWhile_nil, map_nil, append_nil] at deletable
    obtain ⟨flushed, flushes, -, effect⟩ := entered.flush_deletable deletable transactionId
    rw [deleteIds, flushes] at result
    cases result
    intro row member
    rw [effect.pushed]
    exact mem_append_right _ member
  | cons id rest ih =>
    rcases entered.deleteIds_cons progress start id rest with
      ⟨inside, here, moves⟩ | ⟨elsewhere, outcome⟩
    · rw [runOf_cons_of_here inside here, map_cons, append_cons] at deletable
      rw [moves] at result
      intro row member
      exact ih (entered.collect here transactionId).2 (progress.collect _) deletable result row
        (mem_append_left _ member)
    rw [runOf_cons_of_elsewhere elsewhere, map_nil, append_nil] at deletable
    rcases outcome with ⟨flushed, idle, effect, next, -, moves⟩ | ⟨-, -, -, -, -, conflict, -⟩
    · rw [moves] at result
      split at result
      · intro row member
        refine (deleteIds_spec (enter_entered idle) (next.enter _) result).2.1 row ?_
        rw [show (flushed.enter (id - start)).pushedRows = _ from effect.pushed]
        exact mem_append_right _ member
      · exact nomatch result
    · obtain ⟨row, member, conflict⟩ := conflict
      exact absurd (deletable row member) conflict

end

theorem clean_of_deletable (deletable : base.Deletable row) : ChunkInfo.Clean (base.infoOf row) := by
  intro insertId deleteId found
  have free := deletable.1
  rw [MorselInfo.deletedId, found] at free
  exact free

theorem Progress.deletable (progress : Progress base transactionId state)
    (deletable : base.Deletable row) (fresh : row ∉ state.pushedRows) :
    state.morsel.Deletable row := by
  refine ⟨?_, ?_⟩
  · rw [progress.deleted row (clean_of_deletable deletable), if_neg fresh]
    exact deletable.1
  · rw [progress.inserted row]
    exact deletable.2

theorem Progress.run_deletable (progress : Progress base transactionId state) {later : List Nat}
    (deletable : ∀ row ∈ run ++ later, base.Deletable row)
    (distinct : (state.pushedRows ++ run ++ later).Nodup) :
    ∀ row ∈ run, state.morsel.Deletable row := by
  intro row member
  refine progress.deletable (deletable row (mem_append_left _ member)) ?_
  intro pushed
  exact disjoint_of_nodup_append (List.Nodup.of_append_left distinct) pushed member

include entered in
theorem deleteIds_succeeds (progress : Progress base transactionId state)
    (inside : ∀ id ∈ ids, start ≤ id ∧ id < start + morselSize)
    (deletable : ∀ row ∈ run ++ ids.map (· - start), base.Deletable row)
    (distinct : (state.pushedRows ++ run ++ ids.map (· - start)).Nodup) :
    ∃ final, state.deleteIds transactionId start ids = some (final, none) := by
  induction ids generalizing state vector run with
  | nil =>
    obtain ⟨flushed, flushes, -⟩ := entered.flush_deletable (progress.run_deletable deletable distinct) transactionId
    exact ⟨flushed, by rw [deleteIds, flushes]⟩
  | cons id rest ih =>
    have within := inside id mem_cons_self
    have later : ∀ other ∈ rest, start ≤ other ∧ other < start + morselSize :=
      fun other member => inside other (mem_cons_of_mem id member)
    rcases entered.deleteIds_cons progress start id rest with
      ⟨-, here, moves⟩ | ⟨-, ⟨flushed, idle, effect, next, -, moves⟩ | ⟨-, -, -, -, -, conflict, -⟩⟩
    · rw [moves]
      rw [map_cons, append_cons] at deletable distinct
      refine ih (entered.collect here transactionId).2 (progress.collect _) later deletable ?_
      rw [← append_assoc]
      exact distinct
    · rw [moves, if_pos within]
      refine ih (enter_entered idle) (next.enter _) later ?_ ?_
      · exact fun row member => deletable row (mem_append_right _ member)
      · rw [show (flushed.enter (id - start)).pushedRows = _ from effect.pushed]
        rw [map_cons, append_cons] at distinct
        exact distinct
    · obtain ⟨row, member, conflict⟩ := conflict
      exact absurd (progress.run_deletable deletable distinct row member) conflict

/-! The vectors without a given row -/

section

variable (elsewhere : state.currentChunk ≠ some vector)
include elsewhere

theorem flush_frame (id : Nat) : (state.flush id).1.morsel.info vector = state.morsel.info vector ∧
      (state.flush id).1.currentChunk = state.currentChunk := by
  rw [flush]
  split
  · exact ⟨rfl, rfl⟩
  · exact ⟨rfl, rfl⟩
  next current _ _ =>
    have other : vector ≠ current := by
      rintro rfl
      simp_all
    dsimp only
    split
    · exact ⟨update_of_ne other .., rfl⟩
    · exact ⟨update_of_ne other .., rfl⟩

theorem delete_frame (other : rowId / standardVectorSize ≠ vector) (id : Nat) :
    (state.delete id rowId).1.morsel.info vector = state.morsel.info vector ∧
      (state.delete id rowId).1.currentChunk ≠ some vector := by
  have flushes := flush_frame elsewhere id
  rw [delete]
  split
  · split
    · next flushed message result =>
        rw [result] at flushes
        exact ⟨flushes.1, by rw [flushes.2]; exact elsewhere⟩
    next flushed result =>
      rw [result] at flushes
      refine ⟨?_, by simpa using other⟩
      rw [← flushes.1]
      exact update_of_ne other.symm ..
  · exact ⟨rfl, elsewhere⟩

theorem deleteIds_frame (others : ∀ id ∈ ids, (id - start) / standardVectorSize ≠ vector)
    (result : state.deleteIds transactionId start ids = some (final, error)) :
    final.morsel.info vector = state.morsel.info vector := by
  induction ids generalizing state with
  | nil =>
    have flushes := flush_frame elsewhere transactionId
    rw [deleteIds, Option.some.injEq] at result
    rw [result] at flushes
    exact flushes.1
  | cons id rest ih =>
    have moves := delete_frame elsewhere (others id mem_cons_self) transactionId
    have flushes := flush_frame elsewhere transactionId
    rw [deleteIds] at result
    split at result
    · split at result
      · next stopped message deletes =>
          rw [deletes] at moves
          cases result
          exact moves.1
      · next next deletes =>
          rw [deletes] at moves
          exact (ih moves.2 (fun other member => others other (mem_cons_of_mem _ member)) result).trans moves.1
    · split at result
      · next stopped message stops =>
          rw [stops] at flushes
          cases result
          exact flushes.1
      · exact nomatch result

end

theorem deleteIds_initial (morsel : MorselInfo) (transactionId : Nat) {start id : Nat} (rest : List Nat)
    (inside : start ≤ id ∧ id < start + morselSize) :
    let initial : VersionDeleteState := { morsel, currentChunk := none, rows := [], pushed := [] }
    initial.deleteIds transactionId start (id :: rest) =
        (initial.enter (id - start)).deleteIds transactionId start rest ∧
      Entered (initial.enter (id - start)) ((id - start) / standardVectorSize) [id - start] ∧
      Progress (initial.enter (id - start)).morsel transactionId (initial.enter (id - start)) := by
  intro initial
  have deletes : initial.delete transactionId (id - start) = (initial.enter (id - start), none) :=
    delete_of_flush (by simp [initial]) rfl
  refine ⟨?_, enter_entered rfl, fun _ => .inl rfl, fun _ => rfl, fun _ _ => ?_⟩
  · rw [deleteIds, if_pos inside, deletes]
  · exact (if_neg (by simp [pushedRows, initial, enter, setInfo])).symm

end VersionDeleteState

end GuinsooDB
