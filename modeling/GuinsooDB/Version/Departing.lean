import GuinsooDB.Version.Sound

/-!
A transaction that leaves the table: its undo entries are committed or reverted one after
the other, while the entries of the transactions that stay keep their meaning.
-/

namespace GuinsooDB

open BlockRange Function VersionedTable RowVersions List

def rowsOf (recorded : RowVersions) (vector : Nat) : Nat → RowVersion :=
  fun offset => recorded (vector * standardVectorSize + offset)

variable {rows others : Nat → RowVersion} {info : Option ChunkInfo} {used id : Nat}

theorem Committing.congr {commitId : Nat} (committing : Committing id commitId used rows info)
    (same : ∀ row < used, others row = rows row) : Committing id commitId used others info := by
  match info, committing with
  | none, unwritten => exact fun row inside => (same row inside).trans (unwritten row inside)
  | some (.constant _ _), constant =>
    exact ⟨constant.1, fun row inside => (same row inside).trans (constant.2 row inside)⟩
  | some (.vector _), vector =>
    exact ⟨vector.1, { vector.2 with
      ids := fun row inside => (same row inside).trans (vector.2.ids row inside) }⟩

theorem Sound.iff_committing : Sound used rows info ↔ Committing 0 0 used rows info :=
  ⟨fun sound => sound.committing 0 0, fun committing => committing.sound fun _ _ _ => rfl⟩

theorem Sound.congr (sound : Sound used rows info)
    (same : ∀ row < used, others row = rows row) : Sound used others info :=
  iff_committing.mpr ((iff_committing.mp sound).congr same)

/-- The vector holds rows of the range. -/
abbrev Reaches (start count vector : Nat) : Prop :=
  Touches standardVectorSize start (start + count) vector

namespace VersionedTable

def Covers (table : VersionedTable) (start count : Nat) : Prop :=
  ∀ vector insertId deleteId, table.info vector = some (.constant insertId deleteId) →
    Touches standardVectorSize start (start + count) vector →
    lower standardVectorSize start vector = 0 ∧
      upper standardVectorSize (start + count) vector = standardVectorSize

/-- Every constant info was one before, with the same delete id. -/
def KeepsConstants (table changed : VersionedTable) : Prop :=
  ∀ vector insertId deleteId, changed.info vector = some (.constant insertId deleteId) →
    ∃ before, table.info vector = some (.constant before deleteId)

def InfoAt (good : Nat → (Nat → RowVersion) → Option ChunkInfo → Prop) (table : VersionedTable)
    (recorded : RowVersions) (vector : Nat) : Prop :=
  good (table.rowsIn vector) (rowsOf recorded vector) (table.info vector)

structure Marked (table : VersionedTable) (recorded : RowVersions) (vector : Nat)
    (rows : List Nat) : Prop where
  nonempty : rows ≠ []
  chunk : ∃ chunk, table.info vector = some (.vector chunk) ∧ chunk.anyDeleted = true
  inside : ∀ row ∈ rows, row < table.rowsIn vector
  committed : ∀ row ∈ rows, (rowsOf recorded vector row).inserted < transactionIdStart

theorem rowsIn_le (table : VersionedTable) (vector : Nat) : table.rowsIn vector ≤ standardVectorSize := upper_le

theorem rowsIn_congr {table changed : VersionedTable} (total : changed.totalRows = table.totalRows)
    (vector : Nat) : changed.rowsIn vector = table.rowsIn vector := by
  rw [rowsIn, total, rowsIn]

theorem lt_totalRows {table : VersionedTable} {vector row : Nat}
    (inside : row < table.rowsIn vector) : vector * standardVectorSize + row < table.totalRows := by
  unfold rowsIn upper at inside
  omega

end VersionedTable

def Mine (entries : List VersionEntry) (row : Nat) : Prop :=
  ∃ start count, .append start count ∈ entries ∧ start ≤ row ∧ row < start + count

/-- What the entries of an open transaction say about the table, apart from rows of a
transaction that is leaving. -/
structure Held (leaving : Nat → Prop) (table : VersionedTable) (recorded : RowVersions) (id : Nat)
    (entries : List VersionEntry) : Prop where
  appends : ∀ start count, .append start count ∈ entries →
    0 < count ∧ start + count ≤ table.totalRows ∧ ∀ row, start ≤ row → row < start + count →
      recorded row = { inserted := id, deleted := notDeletedId } ∧ ¬leaving row
  covers : ∀ start count, .append start count ∈ entries → table.Covers start count
  deletes : ∀ vector rows, .delete vector rows ∈ entries → table.Marked recorded vector rows ∧
      ∀ row ∈ rows, ¬leaving (vector * standardVectorSize + row)
  owned : ∀ row < table.totalRows, ¬leaving row → (recorded row).inserted = id → Mine entries row

/-- A transaction with these entries is leaving. Its rows have its own id or its commit id.
Constant infos have delete ids of the given kind only. -/
structure Departing (whole : Nat → Prop) (staying : List Transaction)
    (undo : Nat → List VersionEntry) (entries : List VersionEntry) (id commitId limit : Nat)
    (table : VersionedTable)
    (recorded : RowVersions) : Prop where
  layout : table.Layout
  constants : ∀ vector insertId deleteId,
    table.info vector = some (.constant insertId deleteId) → whole deleteId
  above : ∀ other ∈ staying, transactionIdStart ≤ other.transactionId
  held : ∀ other ∈ staying,
    Held (Mine entries) table recorded other.transactionId (undo other.transactionId)
  covers : ∀ start count, .append start count ∈ entries → 0 < count ∧ table.Covers start count
  rows : ∀ row < table.totalRows, Mine entries row → (recorded row).deleted = notDeletedId ∧
    ((recorded row).inserted = id ∨ (recorded row).inserted = commitId)
  deletes : ∀ vector rows, .delete vector rows ∈ entries → table.Marked recorded vector rows ∧
      ∀ row ∈ rows, ¬Mine entries (vector * standardVectorSize + row)
  past : ∀ row < table.totalRows, (recorded row).inserted < limit

def AllSound (table : VersionedTable) (recorded : RowVersions) : Prop :=
  ∀ vector, Sound (table.rowsIn vector) (rowsOf recorded vector) (table.info vector)

namespace Departing

variable {whole : Nat → Prop} {staying : List Transaction} {undo : Nat → List VersionEntry}
  {entries : List VersionEntry} {id commitId limit : Nat} {table : VersionedTable}
  {recorded : RowVersions}

variable {start count : Nat} {changed : VersionedTable} {rows : List Nat} {vector row : Nat}
  {list rest : List VersionEntry}

/-! What the entries do to the ids of the rows -/

theorem covers_of_subset (kept : table.KeepsConstants changed) (covers : table.Covers start count) :
    changed.Covers start count := by
  intro vector insertId deleteId found
  obtain ⟨before, constant⟩ := kept vector insertId deleteId found
  exact covers vector before deleteId constant

theorem marked_revert {reverted : VersionedTable} (marked : table.Marked recorded vector rows)
    (total : reverted.totalRows = start) (last : table.totalRows = start + count)
    (infos : ∀ vector, reverted.info vector = if start ≤ vector * standardVectorSize then none else table.info vector)
    (stay : ∀ row ∈ rows, ¬(start ≤ vector * standardVectorSize + row ∧
      vector * standardVectorSize + row < start + count)) :
    reverted.Marked recorded vector rows := by
  have before : ∀ row ∈ rows, vector * standardVectorSize + row < start := by
    intro row member
    have inside := lt_totalRows (marked.inside row member)
    have outside := stay row member
    omega
  obtain ⟨first, member⟩ := exists_mem_of_ne_nil rows marked.nonempty
  have firstBefore := before first member
  obtain ⟨chunk, found, flag⟩ := marked.chunk
  refine ⟨marked.nonempty, ⟨chunk, ?_, flag⟩, ?_, marked.committed⟩
  · rw [infos, if_neg (by omega), found]
  intro row member
  have bound := marked.inside row member
  have small := table.rowsIn_le vector
  have := before row member
  unfold rowsIn upper
  omega

variable {other id : Nat} {recorded : RowVersions}

theorem rowsOf_delete {rows : List Nat}
    (small : row < standardVectorSize) : rowsOf (recorded.delete vector rows id) other row =
      if other = vector then markDeleted (rowsOf recorded vector) rows id row
      else rowsOf recorded other row := by
  have place : (other * standardVectorSize + row) / standardVectorSize = other ∧
      (other * standardVectorSize + row) % standardVectorSize = row := by
    unfold standardVectorSize at small ⊢
    omega
  unfold rowsOf delete
  rw [place.1, place.2]
  by_cases same : other = vector
  · subst other
    by_cases member : row ∈ rows <;> simp [markDeleted, member]
  · simp [same]

theorem delete_inserted (recorded : RowVersions) (vector : Nat) (rows : List Nat) (id row : Nat) :
    (recorded.delete vector rows id row).inserted = (recorded row).inserted := by
  unfold delete
  split <;> rfl

theorem delete_of_not_mem (recorded : RowVersions) (id : Nat)
    (outside : ∀ offset ∈ rows, vector * standardVectorSize + offset ≠ row) :
    recorded.delete vector rows id row = recorded row := by
  unfold delete
  rw [if_neg]
  rintro ⟨sameVector, member⟩
  refine outside _ member ?_
  rw [← sameVector, Nat.mul_comm, Nat.div_add_mod]

section

variable {chunk : ChunkVectorInfo} {other : Nat}
  (infos : changed.info = update table.info vector (some (.vector chunk)))
include infos

theorem constant_of_update {insertId deleteId : Nat} (found : changed.info other = some (.constant insertId deleteId)) :
    table.info other = some (.constant insertId deleteId) := by
  rw [infos] at found
  by_cases here : other = vector
  · subst other
    rw [update_self] at found
    cases found
  · rwa [update_of_ne here] at found

variable (kept : ∀ current, table.info vector = some (.vector current) → current.anyDeleted = true →
  chunk.anyDeleted = true)
include kept

theorem vector_of_update (marked : ∃ current, table.info other = some (.vector current) ∧ current.anyDeleted = true) :
    ∃ current, changed.info other = some (.vector current) ∧ current.anyDeleted = true := by
  obtain ⟨current, found, deleted⟩ := marked
  rw [infos]
  by_cases here : other = vector
  · subst other
    exact ⟨chunk, update_self .., kept current found deleted⟩
  · exact ⟨current, by rw [update_of_ne here, found], deleted⟩

theorem marked_of_update {list : List Nat} (total : changed.totalRows = table.totalRows)
    (marked : table.Marked recorded other list) : changed.Marked (recorded.delete vector rows id) other list where
  nonempty := marked.nonempty
  chunk := vector_of_update infos kept marked.chunk
  inside := by
    rw [rowsIn_congr total]
    exact marked.inside
  committed := by
    intro row member
    have before := marked.committed row member
    unfold rowsOf at before ⊢
    rwa [delete_inserted]

end

theorem forall_of_delete (good : Nat → (Nat → RowVersion) → Option ChunkInfo → Prop)
    (congr : ∀ used rows others info, good used rows info →
      (∀ row < used, others row = rows row) → good used others info) {info : Option ChunkInfo}
    {deleteId : Nat} (total : changed.totalRows = table.totalRows)
    (infos : changed.info = update table.info vector info)
    (deleted : table.InfoAt good recorded vector →
      good (table.rowsIn vector) (markDeleted (rowsOf recorded vector) rows deleteId) info)
    (other : Nat) (before : table.InfoAt good recorded other) :
    changed.InfoAt good (recorded.delete vector rows deleteId) other := by
  have ids : ∀ row < table.rowsIn other, rowsOf (recorded.delete vector rows deleteId) other row =
      if other = vector then markDeleted (rowsOf recorded vector) rows deleteId row
      else rowsOf recorded other row := fun row inside =>
    rowsOf_delete (lt_of_lt_of_le inside (table.rowsIn_le other))
  rw [InfoAt, rowsIn_congr total, infos]
  by_cases same : other = vector
  · subst other
    rw [update_self]
    exact congr _ _ _ _ (deleted before) fun row inside => by rw [ids row inside, if_pos rfl]
  · rw [update_of_ne same]
    exact congr _ _ _ _ before fun row inside => by rw [ids row inside, if_neg same]

theorem rowsOf_commitInsert (small : row < standardVectorSize) (touches : Reaches start count vector) :
    rowsOf (recorded.commitInsert start count id) vector row =
      if lower standardVectorSize start vector ≤ row ∧ row < upper standardVectorSize (start + count) vector
        then { rowsOf recorded vector row with inserted := id } else rowsOf recorded vector row := by
  have range : start ≤ vector * standardVectorSize + row ∧
      vector * standardVectorSize + row < start + count ↔ _ := mem_range_iff small
  unfold rowsOf commitInsert
  simp only [range, touches, true_and]

theorem commitInsert_of_not_mine (member : .append start count ∈ entries) (foreign : ¬Mine entries row) :
    recorded.commitInsert start count id row = recorded row := by
  unfold commitInsert
  rw [if_neg fun range => foreign ⟨start, count, member, range.1, range.2⟩]

theorem commitInsert_deleted {start count row : Nat} :
    (recorded.commitInsert start count id row).deleted = (recorded row).deleted := by
  unfold commitInsert
  split <;> rfl

theorem mine_cons_append :
    Mine (.append start count :: rest) row ↔ (start ≤ row ∧ row < start + count) ∨ Mine rest row := by
  constructor
  · rintro ⟨otherStart, otherCount, member, low, high⟩
    rcases mem_cons.mp member with same | later
    · cases same
      exact .inl ⟨low, high⟩
    · exact .inr ⟨otherStart, otherCount, later, low, high⟩
  · rintro (⟨low, high⟩ | ⟨otherStart, otherCount, later, low, high⟩)
    · exact ⟨start, count, mem_cons_self, low, high⟩
    · exact ⟨otherStart, otherCount, mem_cons_of_mem _ later, low, high⟩

theorem mine_cons_delete : Mine (.delete vector rows :: rest) row ↔ Mine rest row := by
  simp [Mine]

theorem foldl_commitEntry_inserted (list : List VersionEntry) (commitId row : Nat) (recorded : RowVersions) :
    (Mine list row → (list.foldl (commitEntry commitId) recorded row).inserted = commitId) ∧
      (¬Mine list row → (list.foldl (commitEntry commitId) recorded row).inserted = (recorded row).inserted) := by
  induction list generalizing recorded with
  | nil => exact ⟨fun ⟨_, _, member, _⟩ => absurd member not_mem_nil, fun _ => rfl⟩
  | cons entry rest ih =>
    rw [foldl_cons]
    obtain ⟨later, untouched⟩ := ih (recorded.commitEntry commitId entry)
    cases entry with
    | append start count =>
      rw [mine_cons_append]
      constructor
      · rintro (range | inRest)
        · by_cases again : Mine rest row
          · exact later again
          · rw [untouched again, commitEntry, commitInsert, if_pos range]
        · exact later inRest
      · intro missed
        rw [untouched fun inRest => missed (.inr inRest), commitEntry,
          commitInsert, if_neg fun range => missed (.inl range)]
    | delete vector rows =>
      rw [mine_cons_delete]
      exact ⟨later, fun missed => (untouched missed).trans (delete_inserted recorded vector rows commitId row)⟩

/-! What the entries do to the table -/

variable (departing : Departing whole staying undo entries id commitId limit table recorded)
include departing

theorem of_change {rerecorded : RowVersions} (layout : changed.Layout) (total : changed.totalRows ≤ table.totalRows)
    (dropped : ∀ row, changed.totalRows ≤ row → row < table.totalRows → Mine entries row)
    (kept : table.KeepsConstants changed) (marks : ∀ vector rows, table.Marked recorded vector rows →
      (∀ row ∈ rows, ¬Mine entries (vector * standardVectorSize + row)) →
      changed.Marked rerecorded vector rows)
    (foreign : ∀ row, ¬Mine entries row → (rerecorded row).inserted = (recorded row).inserted ∧
      (transactionIdStart ≤ (recorded row).inserted → rerecorded row = recorded row))
    (mine : ∀ row, Mine entries row → (rerecorded row).deleted = (recorded row).deleted ∧
      ((rerecorded row).inserted = (recorded row).inserted ∨ (rerecorded row).inserted = commitId ∧ commitId < limit)) :
    Departing whole staying undo entries id commitId limit changed rerecorded where
  layout := layout
  constants := by
    intro vector insertId deleteId found
    obtain ⟨before, constant⟩ := kept vector insertId deleteId found
    exact departing.constants vector before deleteId constant
  above := departing.above
  held := by
    intro other stays
    have held := departing.held other stays
    refine { appends := ?_, covers := ?_, deletes := ?_, owned := ?_ }
    · intro start count appended
      obtain ⟨positive, inside, rows⟩ := held.appends start count appended
      refine ⟨positive, ?_, fun row low high => ?_⟩
      · by_contra beyond
        have lastRow := (rows (start + count - 1) (by omega) (by omega)).2
        exact lastRow (dropped _ (by omega) (by omega))
      · obtain ⟨ids, notMine⟩ := rows row low high
        refine ⟨?_, notMine⟩
        rw [(foreign row notMine).2 (by rw [ids]; exact departing.above other stays), ids]
    · exact fun start count appended => covers_of_subset kept (held.covers start count appended)
    · intro vector rows deleted
      obtain ⟨marked, notMine⟩ := held.deletes vector rows deleted
      exact ⟨marks vector rows marked notMine, notMine⟩
    · intro row inside notMine own
      rw [(foreign row notMine).1] at own
      exact held.owned row (by omega) notMine own
  covers := fun start count appended =>
    ⟨(departing.covers start count appended).1, covers_of_subset kept (departing.covers start count appended).2⟩
  rows := by
    intro row inside own
    obtain ⟨undeleted, ids⟩ := departing.rows row (by omega) own
    obtain ⟨sameDeleted, inserted⟩ := mine row own
    refine ⟨sameDeleted.trans undeleted, ?_⟩
    rcases inserted with same | ⟨committed, _⟩
    · rw [same]
      exact ids
    · exact .inr committed
  deletes := by
    intro vector rows deleted
    obtain ⟨marked, notMine⟩ := departing.deletes vector rows deleted
    exact ⟨marks vector rows marked notMine, notMine⟩
  past := by
    intro row inside
    have before := departing.past row (by omega)
    by_cases own : Mine entries row
    · rcases (mine row own).2 with same | ⟨committed, small⟩
      · rw [same]
        exact before
      · rw [committed]
        exact small
    · rw [(foreign row own).1]
      exact before

theorem revertAppend (sound : AllSound table recorded) (member : .append start count ∈ entries) :
    Departing whole staying undo entries id commitId limit (table.revertAppend start count) recorded ∧
      AllSound (table.revertAppend start count) recorded := by
  by_cases last : table.totalRows = start + count
  · obtain ⟨positive, covered⟩ := departing.covers start count member
    obtain ⟨layout, total, infos⟩ := departing.layout.revertAppend positive last
    have mine : ∀ row, start ≤ row → row < start + count → Mine entries row :=
      fun row low high => ⟨start, count, member, low, high⟩
    have kept : table.KeepsConstants (table.revertAppend start count) := by
      intro vector insertId deleteId found
      rw [infos] at found
      split at found
      · cases found
      · exact ⟨insertId, found⟩
    refine ⟨?_, fun vector => ?_⟩
    · refine departing.of_change layout (by omega) (fun row low high => mine row (by omega) (by omega)) kept ?_
        (fun _ _ => ⟨rfl, fun _ => rfl⟩) (fun _ _ => ⟨rfl, .inl rfl⟩)
      intro vector rows marked foreign
      exact marked_revert marked total last infos fun row inside range => foreign row inside (mine _ range.1 range.2)
    rw [infos]
    have restRows : (table.revertAppend start count).rowsIn vector = upper standardVectorSize start vector := by
      rw [rowsIn, total]
    have oldRows : table.rowsIn vector = upper standardVectorSize (start + count) vector := by
      rw [rowsIn, last]
    split
    next cut =>
      intro row inside
      rw [restRows] at inside
      unfold upper at inside
      omega
    rename_i uncut
    refine (sound vector).revert ?_ ?_ ?_ ?_
    · rw [restRows]
      unfold upper standardVectorSize at *
      omega
    · rw [restRows, oldRows]
      unfold upper
      omega
    · intro shorter insertId deleteId found
      rw [restRows, oldRows] at shorter
      have touches : Touches standardVectorSize start (start + count) vector := by
        unfold upper at shorter
        unfold Touches
        omega
      have atStart := (covered vector insertId deleteId found touches).1
      unfold lower at atStart
      omega
    · intro row beyond inside
      rw [restRows] at beyond
      have small := table.rowsIn_le vector
      have inTable := lt_totalRows inside
      refine (departing.rows (vector * standardVectorSize + row) inTable (mine _ ?_ (by omega))).1
      unfold upper at beyond
      omega
  · rw [revertAppend_of_ne last]
    exact ⟨departing, sound⟩

theorem commitDelete (member : .delete vector rows ∈ entries) (deleteId : Nat) :
    ∃ changed, VersionEntry.commit deleteId table (.delete vector rows) = some changed ∧
      changed.totalRows = table.totalRows ∧
      Departing whole staying undo entries id commitId limit changed (recorded.delete vector rows deleteId) ∧
      ∀ id commitId other, table.InfoAt (Committing id commitId) recorded other →
        changed.InfoAt (Committing id commitId) (recorded.delete vector rows deleteId) other := by
  obtain ⟨marked, foreign⟩ := departing.deletes vector rows member
  obtain ⟨chunk, found, flag⟩ := marked.chunk
  obtain ⟨changed, ran, layout, total, infos⟩ := departing.layout.commitDelete found deleteId rows
  have unchanged : ∀ row, Mine entries row → recorded.delete vector rows deleteId row = recorded row := by
    intro row mine
    refine delete_of_not_mem recorded deleteId ?_
    intro offset inside same
    exact foreign offset inside (same ▸ mine)
  refine ⟨changed, ran, total, ?_, ?_⟩
  · refine departing.of_change layout (le_of_eq total) (fun row low high => by omega)
      (fun _ insertId _ constant => ⟨insertId, constant_of_update infos constant⟩)
      (fun _ _ otherMarked _ => marked_of_update infos (fun _ _ _ => flag) total otherMarked) ?_ ?_
    · intro row _
      refine ⟨delete_inserted recorded vector rows deleteId row, fun uncommitted => ?_⟩
      refine delete_of_not_mem recorded deleteId ?_
      intro offset inside same
      have committed := marked.committed offset inside
      unfold rowsOf at committed
      rw [same] at committed
      omega
    · intro row own
      rw [unchanged row own]
      exact ⟨rfl, .inl rfl⟩
  · intro id commitId
    refine forall_of_delete (Committing id commitId)
      (fun _ _ _ _ committing same => committing.congr same) total infos ?_
    intro committing
    rw [InfoAt, found] at committing
    exact committing.commitDelete flag marked.inside deleteId

variable (committing : ∀ vector, table.InfoAt (Committing id commitId) recorded vector)

include committing in
theorem commitAppend
    (member : .append start count ∈ entries)
    (inside : start + count ≤ table.totalRows) (positive : 0 < id ∧ 0 < commitId)
    (small : commitId < limit) :
    ∃ committed, table.commitAppend commitId start count = some committed ∧ committed.totalRows = table.totalRows ∧
      Departing whole staying undo entries id commitId limit committed (recorded.commitInsert start count commitId) ∧
      ∀ vector first second, (Reaches start count vector → first = id ∧ second = commitId) →
        table.InfoAt (Committing first second) recorded vector →
        committed.InfoAt (Committing first second) (recorded.commitInsert start count commitId) vector := by
  obtain ⟨nonempty, covered⟩ := departing.covers start count member
  -- What committing does to a vector that the range touches.
  have touched : ∀ vector, Reaches start count vector →
      ∃ result, ChunkInfo.commitAppend commitId (lower standardVectorSize start vector)
          (upper standardVectorSize (start + count) vector) (table.info vector) = some result ∧
        Committed id commitId (table.rowsIn vector)
          (rowsOf (recorded.commitInsert start count commitId) vector) (table.info vector)
          result := by
    intro vector touches
    refine Committing.commitAppend (committing vector) (lower_lt_upper (by decide) (by omega) touches) ?_ ?_ positive
      (fun insertId deleteId found => covered vector insertId deleteId found touches) ?_
    · unfold rowsIn upper
      omega
    · intro row low high
      have range := (mem_range_iff (lt_of_lt_of_le high (upper_le))).mpr ⟨touches, low, high⟩
      exact (departing.rows _ (by omega) ⟨start, count, member, range.1, range.2⟩).2
    · intro row bound
      exact rowsOf_commitInsert (lt_of_lt_of_le bound (table.rowsIn_le vector)) touches
  have changeable : Changeable (ChunkInfo.commitAppend commitId) start (start + count) table.info := by
    intro vector touches
    obtain ⟨result, ran, _⟩ := touched vector touches
    rw [ran]
    rfl
  obtain ⟨committed, ran, layout, total, applied⟩ := departing.layout.commitAppend nonempty inside changeable
  have after : ∀ vector, Reaches start count vector → Committed id commitId (table.rowsIn vector)
      (rowsOf (recorded.commitInsert start count commitId) vector) (table.info vector) (committed.info vector) := by
    intro vector touches
    obtain ⟨result, changed, after⟩ := touched vector touches
    rwa [Option.some.inj (changed.symm.trans ((applied vector).1 touches))] at after
  refine ⟨committed, ran, total, ?_, fun vector first second same before => ?_⟩
  · refine departing.of_change layout (le_of_eq total) (fun row low high => by omega) ?_ ?_ ?_ ?_
    · intro vector insertId deleteId found
      by_cases touches : Reaches start count vector
      · exact (after vector touches).constants insertId deleteId found
      · rw [(applied vector).2 touches] at found
        exact ⟨insertId, found⟩
    · intro vector rows marked foreign
      refine ⟨marked.nonempty, ?_, by rw [rowsIn_congr total]; exact marked.inside, ?_⟩
      · obtain ⟨chunk, found, flag⟩ := marked.chunk
        by_cases touches : Reaches start count vector
        · obtain ⟨changed, isVector, sameFlag⟩ := (after vector touches).vectors chunk found
          exact ⟨changed, isVector, sameFlag.trans flag⟩
        · exact ⟨chunk, ((applied vector).2 touches).trans found, flag⟩
      · intro row rowMember
        unfold rowsOf
        rw [commitInsert_of_not_mine member (foreign row rowMember)]
        exact marked.committed row rowMember
    · intro row notMine
      rw [commitInsert_of_not_mine member notMine]
      exact ⟨rfl, fun _ => rfl⟩
    intro row _
    refine ⟨commitInsert_deleted, ?_⟩
    unfold commitInsert
    split
    · exact .inr ⟨rfl, small⟩
    · exact .inl rfl
  rw [InfoAt, rowsIn_congr total]
  by_cases touches : Reaches start count vector
  · obtain ⟨rfl, rfl⟩ := same touches
    exact (after vector touches).committing
  · rw [(applied vector).2 touches]
    refine Committing.congr before fun row bound => ?_
    unfold rowsOf commitInsert
    rw [if_neg]
    intro range
    exact touches ((mem_range_iff (lt_of_lt_of_le bound (table.rowsIn_le vector))).mp range).1

theorem revertEntries (sound : AllSound table recorded) (deleteId : Nat) (subset : ∀ entry ∈ list, entry ∈ entries) :
    ∃ reverted, list.foldlM (VersionEntry.revert deleteId) table = some reverted ∧
      Departing whole staying undo entries id commitId limit reverted (list.foldl (revertEntry deleteId) recorded) ∧
      AllSound reverted (list.foldl (revertEntry deleteId) recorded) := by
  induction list generalizing table recorded with
  | nil => exact ⟨table, rfl, departing, sound⟩
  | cons entry rest ih =>
    obtain ⟨member, restSubset⟩ := forall_mem_cons.mp subset
    cases entry with
    | append start count =>
      obtain ⟨next, nextSound⟩ := departing.revertAppend sound member
      obtain ⟨reverted, ran, result⟩ := ih next nextSound restSubset
      exact ⟨reverted, by rw [foldlM_cons]; exact ran, result⟩
    | delete vector rows =>
      obtain ⟨changed, step, _, next, committings⟩ := departing.commitDelete member deleteId
      obtain ⟨reverted, ran, result⟩ := ih next (fun vector => Sound.iff_committing.mpr
        (committings 0 0 vector (Sound.iff_committing.mp (sound vector)))) restSubset
      exact ⟨reverted, by rw [foldlM_cons, VersionEntry.revert, step]; exact ran, result⟩

include committing in
theorem commitEntries
    (inside : ∀ start count, .append start count ∈ entries → start + count ≤ table.totalRows)
    (positive : 0 < id ∧ 0 < commitId) (small : commitId < limit)
    (subset : ∀ entry ∈ list, entry ∈ entries) :
    ∃ committed, list.foldlM (VersionEntry.commit commitId) table = some committed ∧
      committed.totalRows = table.totalRows ∧
      Departing whole staying undo entries id commitId limit committed (list.foldl (commitEntry commitId) recorded) ∧
      ∀ vector first second, ((∃ start count, .append start count ∈ list ∧ Reaches start count vector) →
          first = id ∧ second = commitId) → table.InfoAt (Committing first second) recorded vector →
        committed.InfoAt (Committing first second) (list.foldl (commitEntry commitId) recorded) vector := by
  induction list generalizing table recorded with
  | nil => exact ⟨table, rfl, rfl, departing, fun _ _ _ _ before => before⟩
  | cons entry rest ih =>
    obtain ⟨member, restSubset⟩ := forall_mem_cons.mp subset
    cases entry with
    | append start count =>
      obtain ⟨changed, step, total, next, kept⟩ :=
        departing.commitAppend committing member (inside start count member) positive small
      obtain ⟨committed, ran, restTotal, done, restKept⟩ :=
        ih next (fun vector => kept vector id commitId (fun _ => ⟨rfl, rfl⟩) (committing vector))
          (by rw [total]; exact inside) restSubset
      refine ⟨committed, ?_, restTotal.trans total, done, fun vector first second same before => ?_⟩
      · rw [foldlM_cons, VersionEntry.commit, step]
        exact ran
      · exact restKept vector first second
          (fun touched => same (touched.imp fun _ => Exists.imp fun _ => And.imp_left (mem_cons_of_mem _)))
          (kept vector first second (fun touches => same ⟨start, count, mem_cons_self, touches⟩) before)
    | delete vector rows =>
      obtain ⟨changed, step, total, next, committings⟩ := departing.commitDelete member commitId
      obtain ⟨committed, ran, restTotal, done, restKept⟩ :=
        ih next (fun vector => committings id commitId vector (committing vector))
          (by rw [total]; exact inside) restSubset
      refine ⟨committed, ?_, restTotal.trans total, done, fun other first second same before => ?_⟩
      · rw [foldlM_cons, step]
        exact ran
      · exact restKept other first second
          (fun touched => same (touched.imp fun _ => Exists.imp fun _ => And.imp_left (mem_cons_of_mem _)))
          (committings first second other before)

theorem commitEntries_sound (sound : AllSound table recorded)
    (inside : ∀ start count, .append start count ∈ entries → start + count ≤ table.totalRows)
    (foreign : ∀ row < table.totalRows, ¬Mine entries row → (recorded row).inserted ≠ id)
    (positive : 0 < id ∧ 0 < commitId) (small : commitId < limit) (fresh : commitId ≠ id)
    (subset : ∀ entry ∈ list, entry ∈ entries)
    (cut : ∀ start count, .append start count ∈ entries → .append start count ∉ list →
      ∀ otherStart otherCount, .append otherStart otherCount ∈ list → ∀ vector, Reaches start count vector →
        ¬Reaches otherStart otherCount vector) :
    ∃ committed, list.foldlM (VersionEntry.commit commitId) table = some committed ∧
      committed.totalRows = table.totalRows ∧
      Departing whole staying undo entries id commitId limit committed (list.foldl (commitEntry commitId) recorded) ∧
      AllSound committed (list.foldl (commitEntry commitId) recorded) := by
  obtain ⟨committed, ran, total, done, kept⟩ := departing.commitEntries
    (fun vector => (sound vector).committing id commitId) inside positive small subset
  refine ⟨committed, ran, total, done, ?_⟩
  intro vector
  by_cases touched : ∃ start count, .append start count ∈ list ∧ Reaches start count vector
  · obtain ⟨start, count, member, touches⟩ := touched
    refine Committing.sound (kept vector id commitId (fun _ => ⟨rfl, rfl⟩) ((sound vector).committing id commitId))
      fun row bound own => ?_
    exfalso
    obtain ⟨changed, unchanged⟩ := foldl_commitEntry_inserted list commitId (vector * standardVectorSize + row) recorded
    have inTable := lt_totalRows bound
    have notListed : ¬Mine list (vector * standardVectorSize + row) := fun mine => fresh ((changed mine).symm.trans own)
    have before : (recorded (vector * standardVectorSize + row)).inserted = id := (unchanged notListed).symm.trans own
    have mine : Mine entries (vector * standardVectorSize + row) := by
      by_contra notMine
      exact foreign _ (total ▸ inTable) notMine before
    obtain ⟨otherStart, otherCount, otherMember, low, high⟩ := mine
    have left : .append otherStart otherCount ∉ list :=
      fun listed => notListed ⟨otherStart, otherCount, listed, low, high⟩
    have otherTouches : Reaches otherStart otherCount vector :=
      ((mem_range_iff (lt_of_lt_of_le bound (committed.rowsIn_le vector))).mp ⟨low, high⟩).1
    exact cut otherStart otherCount otherMember left start count member vector otherTouches touches
  · exact Sound.iff_committing.mpr (kept vector 0 0 (fun touches => absurd touches touched)
      (Sound.iff_committing.mp (sound vector)))

end Departing

end GuinsooDB
