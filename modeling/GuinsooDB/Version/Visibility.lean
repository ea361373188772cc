import GuinsooDB.Version.Delete

/-!
Visibility of rows over whole runs: in every state that is reached, selections and fetches
agree with the ids that were recorded for the rows.
-/

namespace GuinsooDB

open BlockRange Transition List Function VersionedTable TransactionManager VersionState Option

namespace Held

variable {leaving : Nat → Prop} {table : VersionedTable} {recorded : RowVersions} {id : Nat}
  {entries : List VersionEntry}

theorem leave (held : Held (fun _ => False) table recorded id entries) (apart : ∀ row < table.totalRows, leaving row →
      transactionIdStart ≤ (recorded row).inserted ∧ (recorded row).inserted ≠ id) :
    Held leaving table recorded id entries where
  appends := by
    intro start count appended
    obtain ⟨positive, inside, rows⟩ := held.appends start count appended
    refine ⟨positive, inside, fun row low high => ⟨(rows row low high).1, ?_⟩⟩
    intro leaves
    exact (apart row (by omega) leaves).2 (by rw [(rows row low high).1])
  covers := held.covers
  deletes := by
    intro vector rows deleted
    have marked := (held.deletes vector rows deleted).1
    refine ⟨marked, ?_⟩
    intro row member leaves
    have inTable := lt_totalRows (marked.inside row member)
    have committed := marked.committed row member
    have above := (apart _ inTable leaves).1
    unfold rowsOf at committed
    omega
  owned := fun row inside _ own => held.owned row inside (by simp) own

theorem settle (held : Held leaving table recorded id entries)
    (apart : ∀ row < table.totalRows, leaving row → (recorded row).inserted ≠ id) :
    Held (fun _ => False) table recorded id entries where
  appends := by
    intro start count appended
    obtain ⟨positive, inside, rows⟩ := held.appends start count appended
    exact ⟨positive, inside, fun row low high => ⟨(rows row low high).1, by simp⟩⟩
  covers := held.covers
  deletes := fun vector rows deleted => ⟨(held.deletes vector rows deleted).1, by simp⟩
  owned := fun row inside _ own =>
    held.owned row inside (fun leaves => apart row inside leaves own) own

theorem mine_eq (held : Held (fun _ => False) table recorded id entries) {row : Nat} (mine : Mine entries row) :
    row < table.totalRows ∧ recorded row = { inserted := id, deleted := notDeletedId } := by
  obtain ⟨start, count, appended, low, high⟩ := mine
  obtain ⟨_, inside, rows⟩ := held.appends start count appended
  exact ⟨by omega, (rows row low high).1⟩

end Held

def AppendsApart (first second : List VersionEntry) : Prop :=
  ∀ start count, .append start count ∈ second → ∀ otherStart otherCount,
    .append otherStart otherCount ∈ first → ∀ vector,
    Touches standardVectorSize start (start + count) vector →
    ¬Touches standardVectorSize otherStart (otherStart + otherCount) vector

structure VersionInvariant (whole : Nat → Prop) (state : VersionState) : Prop where
  valid : state.manager.Valid
  room : state.manager.Room
  bounded : state.manager.currentTransactionId ≤
    transactionIdStart + state.manager.currentStartTimestamp
  layout : state.table.Layout
  constants : ∀ vector insertId deleteId,
    state.table.info vector = some (.constant insertId deleteId) → whole deleteId
  sound : AllSound state.table state.recorded
  held : ∀ transaction ∈ state.manager.activeTransactions,
    Held (fun _ => False) state.table state.recorded transaction.transactionId
      (state.undo transaction.transactionId)
  past : ∀ row < state.table.totalRows,
    (state.recorded row).inserted < state.manager.currentTransactionId
  unused : ∀ id, state.manager.currentTransactionId ≤ id → state.undo id = []

namespace VersionInvariant

variable {whole : Nat → Prop} {state : VersionState} {transaction : Transaction}

/-! Transactions that start -/

variable {manager : TransactionManager}

theorem start (invariant : VersionInvariant whole state)
    (started : state.manager.startTransaction = .ok (manager, transaction)) (room : manager.Room) :
    VersionInvariant whole { state with manager } := by
  obtain ⟨_, _, idEq, nextStart, nextId, nextActive, _, _⟩ := startTransaction_eq started
  have bounded := invariant.bounded
  refine { invariant with
    valid := startTransaction_valid invariant.valid started
    room
    bounded := by change manager.currentTransactionId ≤ _ + manager.currentStartTimestamp; omega
    held := ?_, past := ?_, unused := ?_ }
  · intro other member
    rw [nextActive, mem_append, mem_singleton] at member
    rcases member with old | new
    · exact invariant.held other old
    subst other
    have none := invariant.unused transaction.transactionId (by omega)
    rw [none]
    refine { appends := by simp, covers := by simp, deletes := by simp, owned := ?_ }
    intro row inside _ own
    have past := invariant.past row inside
    change (state.recorded row).inserted = _ at own
    omega
  · intro row inside
    have past := invariant.past row inside
    change (state.recorded row).inserted < manager.currentTransactionId
    omega
  · intro id above
    change manager.currentTransactionId ≤ id at above
    exact invariant.unused id (by omega)

/-! Transactions that leave -/

abbrev Leaving (whole : Nat → Prop) (state : VersionState) (transaction : Transaction)
    (commitId : Nat) : VersionedTable → RowVersions → Prop :=
  Departing whole (state.manager.others transaction) state.undo
    (state.undo transaction.transactionId) transaction.transactionId commitId
    state.manager.currentTransactionId

theorem departing (invariant : VersionInvariant whole state)
    (member : transaction ∈ state.manager.activeTransactions) (commitId : Nat) :
    Leaving whole state transaction commitId state.table state.recorded := by
  have held := invariant.held transaction member
  have above := (invariant.valid.active transaction member).idAbove
  refine { layout := invariant.layout, constants := invariant.constants, above := ?_, held := ?_,
           covers := ?_, rows := ?_, deletes := ?_, past := invariant.past }
  · intro other stays
    exact (invariant.valid.active other (mem_others.mp stays).1).idAbove
  · intro other stays
    obtain ⟨active, apart⟩ := mem_others.mp stays
    refine (invariant.held other active).leave ?_
    intro row _ mine
    rw [(held.mine_eq mine).2]
    exact ⟨above, apart.symm⟩
  · intro start count appended
    exact ⟨(held.appends start count appended).1, held.covers start count appended⟩
  · intro row _ mine
    rw [(held.mine_eq mine).2]
    exact ⟨rfl, .inl rfl⟩
  · intro vector rows deleted
    have marked := (held.deletes vector rows deleted).1
    refine ⟨marked, ?_⟩
    intro row inside mine
    have committed := marked.committed row inside
    unfold rowsOf at committed
    rw [(held.mine_eq mine).2] at committed
    dsimp only at committed
    omega

variable {recorded : RowVersions} {table : VersionedTable}

section

variable (invariant : VersionInvariant whole state)
include invariant

theorem remaining {commitId : Nat} (low : commitId < transactionIdStart) (valid : manager.Valid) (room : manager.Room)
    (later : state.manager.currentStartTimestamp ≤ manager.currentStartTimestamp)
    (sameId : manager.currentTransactionId = state.manager.currentTransactionId)
    (active : manager.activeTransactions = state.manager.others transaction)
    (departing : Leaving whole state transaction commitId table recorded)
    (sound : AllSound table recorded) :
    VersionInvariant whole { state with manager, table, recorded } where
  valid := valid
  room := room
  bounded := by
    have bounded := invariant.bounded
    change manager.currentTransactionId ≤ _ + manager.currentStartTimestamp
    omega
  layout := departing.layout
  constants := departing.constants
  sound := sound
  held := by
    intro other stays
    rw [active] at stays
    obtain ⟨otherActive, apart⟩ := mem_others.mp stays
    have above := (invariant.valid.active other otherActive).idAbove
    refine (departing.held other stays).settle ?_
    intro row inside mine own
    rcases (departing.rows row inside mine).2 with same | committed
    · exact apart (own.symm.trans same)
    · omega
  past := by
    intro row inside
    rw [sameId]
    exact departing.past row inside
  unused := by
    intro id above
    exact invariant.unused id (sameId ▸ above)

variable (member : transaction ∈ state.manager.activeTransactions)
include member

theorem rollback : ∃ next, state.rollback transaction = some next ∧ VersionInvariant whole next := by
  obtain ⟨table, reverted, departing, sound⟩ := (invariant.departing member 0).revertEntries
    invariant.sound notDeletedId (fun entry inside => mem_reverse.mp inside)
  have identified := invariant.valid.active transaction member
  obtain ⟨sameStart, sameId⟩ := state.manager.removeTransaction_timestamps transaction
  have started := identified.startBelow
  have room := invariant.room
  have fresh := identified.uncommitted
  refine ⟨_, ?_, invariant.remaining (by decide) (removeTransaction_valid invariant.valid member rfl (by omega))
    (by unfold TransactionManager.Room; rwa [sameStart]) (by omega) sameId
    (state.manager.removeTransaction_active transaction) departing sound⟩
  rw [VersionState.rollback, revertEntries, forEntries, reverted]
  rfl

theorem commitEntries (count : Nat) (apart : AppendsApart ((state.undo transaction.transactionId).take count)
      ((state.undo transaction.transactionId).drop count)) :
    ∃ table, ((state.undo transaction.transactionId).take count).foldlM
        (VersionEntry.commit state.manager.currentStartTimestamp) state.table = some table ∧
      Leaving whole state transaction state.manager.currentStartTimestamp table
        (((state.undo transaction.transactionId).take count).foldl
          (RowVersions.commitEntry state.manager.currentStartTimestamp) state.recorded) ∧
      AllSound table (((state.undo transaction.transactionId).take count).foldl
        (RowVersions.commitEntry state.manager.currentStartTimestamp) state.recorded) := by
  have held := invariant.held transaction member
  have identified := invariant.valid.active transaction member
  have started := identified.startBelow
  have above := identified.idAbove
  have below := identified.idBelow
  have room := invariant.room
  unfold TransactionManager.Room at room
  obtain ⟨table, ran, _, departing, sound⟩ :=
    (invariant.departing member state.manager.currentStartTimestamp).commitEntries_sound
      invariant.sound (fun start count appended => (held.appends start count appended).2.1)
      (fun row inside notMine own => notMine (held.owned row inside (by simp) own))
      (by omega) (by omega) (by omega) (fun entry inside => mem_of_mem_take inside)
      (by
        intro start size inside left
        have split := inside
        rw [← take_append_drop count (state.undo transaction.transactionId)] at split
        exact apart start size ((mem_append.mp split).resolve_left left))
  exact ⟨table, ran, departing, sound⟩

theorem commit (timed : state.manager.currentStartTimestamp + 1 < transactionIdStart) (failure : Option (Nat × Nat))
    (apart : ∀ committed reverted, failure = some (committed, reverted) →
      AppendsApart ((state.undo transaction.transactionId).take committed)
        ((state.undo transaction.transactionId).drop committed)) :
    ∃ next, state.commit transaction failure = some next ∧ VersionInvariant whole next := by
  have drawn := drawCommitId_valid invariant.valid
  have leave (leaving : Transaction) (same : leaving.transactionId = transaction.transactionId)
      (commitBelow : leaving.commitId < state.manager.currentStartTimestamp + 1)
      {table : VersionedTable} {recorded : RowVersions}
      (departing : Leaving whole state transaction state.manager.currentStartTimestamp table recorded)
      (sound : AllSound table recorded) :
      VersionInvariant whole { state with
        manager := (state.manager.drawCommitId.1.removeTransaction leaving).1
        table, recorded } := by
    obtain ⟨sameStart, sameId⟩ := state.manager.drawCommitId.1.removeTransaction_timestamps leaving
    refine invariant.remaining (by omega) (removeTransaction_valid drawn member same commitBelow) ?_ ?_ sameId ?_
      departing sound
    · unfold TransactionManager.Room
      rw [sameStart]
      exact timed
    · rw [sameStart]
      exact Nat.le_succ _
    · rw [removeTransaction_active]
      unfold others
      rw [same]
      rfl
  cases failure with
  | none =>
    obtain ⟨table, ran, departing, sound⟩ := invariant.commitEntries member
      (state.undo transaction.transactionId).length (by simp [AppendsApart])
    rw [take_length] at ran departing sound
    refine ⟨_, ?_, leave { transaction with commitId := state.manager.currentStartTimestamp } rfl
      (Nat.lt_succ_self _) departing sound⟩
    simp only [VersionState.commit, drawCommitId, VersionState.commitEntries, forEntries, ran]
    rfl
  | some outcome =>
    obtain ⟨committed, reverted⟩ := outcome
    obtain ⟨table, ran, departing, sound⟩ := invariant.commitEntries member committed (apart committed reverted rfl)
    obtain ⟨unmarked, unmarkedRan, departing, sound⟩ := departing.revertEntries sound transaction.transactionId
      (fun entry (inside : entry ∈ (state.undo transaction.transactionId).take reverted) =>
        mem_of_mem_take inside)
    obtain ⟨rolledBack, rolledBackRan, departing, sound⟩ := departing.revertEntries sound
      notDeletedId (fun entry inside => mem_reverse.mp inside)
    refine ⟨_, ?_, leave { transaction with commitId := 0 } rfl (Nat.succ_pos _) departing sound⟩
    simp only [VersionState.commit, drawCommitId, VersionState.commitEntries,
      revertEntries, forEntries, ran, unmarkedRan, rolledBackRan,
      map_some, bind_some]
    rfl

end

variable {count id : Nat}

theorem append_vector {vector : Nat} (sound : AllSound table recorded) (nonempty : 0 < count)
    (touches : Reaches table.totalRows count vector) :
    ∃ changed, ChunkInfo.append id (lower standardVectorSize table.totalRows vector)
        (upper standardVectorSize (table.totalRows + count) vector) (table.info vector) = some changed ∧
      Grown (lower standardVectorSize table.totalRows vector)
        (upper standardVectorSize (table.totalRows + count) vector)
        (rowsOf (recorded.insert table.totalRows count id) vector) (table.info vector) changed := by
  have filled : lower standardVectorSize table.totalRows vector = table.rowsIn vector := by
    have := touches.2
    unfold rowsIn lower upper
    omega
  have room := lower_lt_upper (by decide) (Nat.lt_add_of_pos_right nonempty) touches
  have start := sound vector
  rw [← filled] at start
  have before : ∀ row < lower standardVectorSize table.totalRows vector,
      rowsOf (recorded.insert table.totalRows count id) vector row = rowsOf recorded vector row := by
    intro row inside
    unfold rowsOf RowVersions.insert
    rw [if_neg]
    unfold lower at inside
    omega
  have after : ∀ row, lower standardVectorSize table.totalRows vector ≤ row →
      row < upper standardVectorSize (table.totalRows + count) vector →
      rowsOf (recorded.insert table.totalRows count id) vector row = { inserted := id, deleted := notDeletedId } := by
    intro row low high
    unfold rowsOf RowVersions.insert
    rw [if_pos]
    unfold lower at low
    unfold upper at high
    omega
  exact start.append room (upper_le) id before after

/-- The infos after an append. A constant one that is new was filled as a whole. -/
structure Appended (table : VersionedTable) (recorded : RowVersions) (count id : Nat)
    (appended : VersionedTable) : Prop where
  layout : appended.Layout
  total : appended.totalRows = table.totalRows + count
  sound : AllSound appended (recorded.insert table.totalRows count id)
  constants : ∀ vector insertId deleteId,
    appended.info vector = some (.constant insertId deleteId) →
    table.info vector = some (.constant insertId deleteId) ∨
      deleteId = notDeletedId ∧ lower standardVectorSize table.totalRows vector = 0 ∧
        upper standardVectorSize (table.totalRows + count) vector = standardVectorSize
  marks : ∀ vector chunk, table.info vector = some (.vector chunk) →
    ∃ grown, appended.info vector = some (.vector grown) ∧ grown.anyDeleted = chunk.anyDeleted

variable {id : Nat} {appended : VersionedTable}

theorem Appended.of_applied (sound : AllSound table recorded) (nonempty : 0 < count)
    (layout : appended.Layout) (total : appended.totalRows = table.totalRows + count)
    (applied : InfosApplied (ChunkInfo.append id) table.totalRows (table.totalRows + count)
      table.info appended.info) : Appended table recorded count id appended := by
  have grown : ∀ vector, Reaches table.totalRows count vector → Grown (lower standardVectorSize table.totalRows vector)
        (upper standardVectorSize (table.totalRows + count) vector)
        (rowsOf (recorded.insert table.totalRows count id) vector) (table.info vector)
        (appended.info vector) := by
    intro vector touches
    obtain ⟨changed, ran, grown⟩ := append_vector sound nonempty touches
    rwa [some.inj (ran.symm.trans ((applied vector).1 touches))] at grown
  refine { layout, total, sound := ?_, constants := ?_, marks := ?_ }
  · intro vector
    unfold rowsIn
    rw [total]
    by_cases touches : Reaches table.totalRows count vector
    · exact (grown vector touches).sound
    rw [(applied vector).2 touches]
    have used : upper standardVectorSize (table.totalRows + count) vector = table.rowsIn vector := by
      unfold Reaches Touches at touches
      unfold rowsIn upper
      omega
    rw [used]
    refine (sound vector).congr ?_
    intro row inside
    have inTable := lt_totalRows inside
    unfold rowsOf RowVersions.insert
    rw [if_neg (by omega)]
  · intro vector insertId deleteId found
    by_cases touches : Reaches table.totalRows count vector
    · obtain ⟨low, high, undeleted⟩ := (grown vector touches).constants insertId deleteId found
      exact .inr ⟨undeleted, low, high⟩
    · rw [(applied vector).2 touches] at found
      exact .inl found
  · intro vector chunk found
    by_cases touches : Reaches table.totalRows count vector
    · exact (grown vector touches).vectors chunk found
    · rw [(applied vector).2 touches]
      exact ⟨chunk, found, rfl⟩

theorem append_spec (layout : table.Layout) (sound : AllSound table recorded) (nonempty : 0 < count) :
    ∃ appended, table.initializeAppend id count = some appended ∧ Appended table recorded count id appended := by
  have changeable : Changeable (ChunkInfo.append id) table.totalRows (table.totalRows + count) table.info := by
    intro vector touches
    obtain ⟨changed, ran, _⟩ := append_vector sound nonempty touches
    rw [ran]
    rfl
  obtain ⟨appended, ran, newLayout, total, applied⟩ := layout.initializeAppend nonempty changeable
  exact ⟨appended, ran, .of_applied sound nonempty newLayout total applied⟩

theorem Appended.covers {start size : Nat} (result : Appended table recorded count id appended)
    (inside : start + size ≤ table.totalRows) (covers : table.Covers start size) :
    appended.Covers start size := by
  intro vector insertId deleteId found touches
  rcases result.constants vector insertId deleteId found with old | ⟨_, low, _⟩
  · exact covers vector insertId deleteId old touches
  · have := touches.1
    unfold lower at low
    omega

theorem Appended.held {other : Nat} {entries : List VersionEntry} (result : Appended table recorded count id appended)
    (held : Held (fun _ => False) table recorded other entries) :
    Held (Mine [.append table.totalRows count]) appended (recorded.insert table.totalRows count id) other entries := by
  have old (row : Nat) (inside : row < table.totalRows) :
      recorded.insert table.totalRows count id row = recorded row ∧ ¬Mine [.append table.totalRows count] row := by
    refine ⟨if_neg (by omega), ?_⟩
    rintro ⟨start, size, appended, low, _⟩
    simp only [mem_singleton, VersionEntry.append.injEq] at appended
    omega
  have total := result.total
  refine { appends := ?_, covers := ?_, deletes := ?_, owned := ?_ }
  · intro start size appended
    obtain ⟨positive, inside, rows⟩ := held.appends start size appended
    refine ⟨positive, by omega, fun row low high => ?_⟩
    obtain ⟨same, notMine⟩ := old row (by omega)
    exact ⟨same.trans (rows row low high).1, notMine⟩
  · intro start size appended
    exact result.covers (held.appends start size appended).2.1 (held.covers start size appended)
  · intro vector rows deleted
    obtain ⟨marked, _⟩ := held.deletes vector rows deleted
    obtain ⟨chunk, found, flag⟩ := marked.chunk
    obtain ⟨grown, grownFound, grownFlag⟩ := result.marks vector chunk found
    have inTable (row : Nat) (member : row ∈ rows) := lt_totalRows (marked.inside row member)
    refine ⟨⟨marked.nonempty, ⟨grown, grownFound, grownFlag.trans flag⟩, ?_, ?_⟩, ?_⟩
    · intro row member
      have before := marked.inside row member
      unfold rowsIn upper at before ⊢
      omega
    · intro row member
      unfold rowsOf
      rw [(old _ (inTable row member)).1]
      exact marked.committed row member
    · exact fun row member => (old _ (inTable row member)).2
  · intro row inside notMine own
    by_cases before : row < table.totalRows
    · rw [(old row before).1] at own
      exact held.owned row before (by simp) own
    · exact absurd ⟨table.totalRows, count, mem_singleton.mpr rfl, by omega, by omega⟩ notMine

theorem mine_singleton {start row : Nat} : Mine [.append start count] row ↔ start ≤ row ∧ row < start + count := by
  simp [Mine]

variable (invariant : VersionInvariant whole state)
  (member : transaction ∈ state.manager.activeTransactions)
include invariant member

theorem unused_update (entries : List VersionEntry) (id : Nat) (above : state.manager.currentTransactionId ≤ id) :
    update state.undo transaction.transactionId entries id = [] := by
  have below := (invariant.valid.active transaction member).idBelow
  rw [update_of_ne (by omega)]
  exact invariant.unused id above

section

variable (kept : whole notDeletedId) (nonempty : 0 < count)
  (result : Appended state.table state.recorded count transaction.transactionId appended)
include kept nonempty result

theorem append_departing : Departing whole state.manager.activeTransactions state.undo
      [.append state.table.totalRows count] transaction.transactionId transaction.transactionId
      state.manager.currentTransactionId appended
      (state.recorded.insert state.table.totalRows count transaction.transactionId) := by
  have total := result.total
  refine { layout := result.layout, constants := ?_, above := ?_, held := ?_, covers := ?_
           rows := ?_, deletes := by simp, past := ?_ }
  · intro vector insertId deleteId found
    rcases result.constants vector insertId deleteId found with old | ⟨undeleted, _⟩
    · exact invariant.constants vector insertId deleteId old
    · rw [undeleted]
      exact kept
  · exact fun other active => (invariant.valid.active other active).idAbove
  · exact fun other active => result.held (invariant.held other active)
  · intro start size same
    simp only [mem_singleton, VersionEntry.append.injEq] at same
    rw [same.1, same.2]
    refine ⟨nonempty, ?_⟩
    intro vector insertId deleteId found touches
    rcases result.constants vector insertId deleteId found with old | ⟨_, low, high⟩
    · have full := invariant.sound vector
      rw [old] at full
      have filled := full.1
      have := touches.2
      have positive : 0 < standardVectorSize := by decide
      unfold rowsIn upper at filled
      omega
    · exact ⟨low, high⟩
  · intro row _ mine
    rw [mine_singleton] at mine
    rw [RowVersions.insert, if_pos mine]
    exact ⟨rfl, .inl rfl⟩
  · intro row inside
    unfold RowVersions.insert
    split
    · exact (invariant.valid.active transaction member).idBelow
    · exact invariant.past row (by omega)

theorem append_push :
    VersionInvariant whole (push { state with
        table := appended
        recorded := state.recorded.insert state.table.totalRows count transaction.transactionId }
      transaction.transactionId [.append state.table.totalRows count]) := by
  have departing := invariant.append_departing member kept nonempty result
  refine { invariant with
    layout := result.layout
    constants := departing.constants
    sound := result.sound
    held := ?_, past := departing.past, unused := invariant.unused_update member _ }
  · intro other active
    have held := departing.held other active
    change Held _ appended _ other.transactionId (update state.undo transaction.transactionId _ other.transactionId)
    by_cases same : other.transactionId = transaction.transactionId
    · rw [same, update_self]
      rw [same] at held
      refine { appends := ?_, covers := ?_, deletes := ?_, owned := ?_ }
      · intro start size appended
        rcases mem_append.mp appended with old | new
        · obtain ⟨positive, inside, rows⟩ := held.appends start size old
          exact ⟨positive, inside, fun row low high => ⟨(rows row low high).1, by simp⟩⟩
        · simp only [mem_singleton, VersionEntry.append.injEq] at new
          rw [new.1, new.2]
          refine ⟨nonempty, by rw [result.total], fun row low high => ⟨?_, by simp⟩⟩
          exact if_pos ⟨low, high⟩
      · intro start size appended
        rcases mem_append.mp appended with old | new
        · exact held.covers start size old
        · exact (departing.covers start size new).2
      · intro vector rows deleted
        rcases mem_append.mp deleted with old | new
        · exact ⟨(held.deletes vector rows old).1, by simp⟩
        · simp at new
      · intro row inside _ own
        by_cases mine : Mine [.append state.table.totalRows count] row
        · obtain ⟨start, size, appended, bounds⟩ := mine
          exact ⟨start, size, mem_append_right _ appended, bounds⟩
        · obtain ⟨start, size, appended, bounds⟩ := held.owned row inside mine own
          exact ⟨start, size, mem_append_left _ appended, bounds⟩
    · rw [update_of_ne same]
      refine held.settle ?_
      intro row inside mine own
      rcases (departing.rows row inside mine).2 with id | id <;>
        exact same (own.symm.trans id)

end

theorem append (kept : whole notDeletedId) (count : Nat) (constraintViolated : Bool) :
    ∃ next, state.append transaction.transactionId count constraintViolated = some next ∧
      VersionInvariant whole next := by
  unfold VersionState.append
  split
  · exact ⟨state, rfl, invariant⟩
  rename_i positive
  have nonempty := Nat.pos_of_ne_zero positive
  obtain ⟨appended, ran, result⟩ := append_spec invariant.layout invariant.sound nonempty
  rw [ran]
  refine ⟨_, rfl, ?_⟩
  split
  · obtain ⟨departing, sound⟩ := (invariant.append_departing member kept nonempty
      result).revertAppend result.sound (mem_singleton.mpr rfl)
    have total : (appended.revertAppend state.table.totalRows count).totalRows =
        state.table.totalRows := (result.layout.revertAppend nonempty result.total).2.1
    refine { invariant with
      layout := departing.layout
      constants := departing.constants
      sound, held := ?_, past := departing.past }
    intro other active
    refine (departing.held other active).settle ?_
    intro row inside mine
    rw [mine_singleton] at mine
    omega
  · exact invariant.append_push member kept nonempty result

theorem delete {segment : Nat} {rowIds : List Nat} (targets : state.table.Targets segment rowIds) :
    VersionInvariant whole (state.delete transaction.transactionId segment rowIds) := by
  obtain ⟨pushed, deleting⟩ := delete_spec invariant.layout invariant.sound targets transaction.transactionId
  rw [delete_eq pushed]
  refine { invariant with
    layout := deleting.layout
    constants := fun vector insertId deleteId found =>
      invariant.constants vector insertId deleteId (deleting.constants _ _ _ found)
    sound := deleting.sound
    held := ?_, past := ?_, unused := invariant.unused_update member _ }
  · intro other active
    have held := deleting.held (invariant.held other active) (invariant.valid.active other active).idAbove
    change Held _ _ _ other.transactionId (update state.undo transaction.transactionId _ other.transactionId)
    by_cases same : other.transactionId = transaction.transactionId
    · rw [same, update_self]
      rw [same] at held
      exact deleting.held_push held
    · rwa [update_of_ne same]
  · intro row inside
    rw [deleting.inserted]
    exact invariant.past row (deleting.total ▸ inside)

end VersionInvariant

def VersionedTable.loaded (totalRows : Nat) : VersionedTable where
  totalRows
  segmentCount := max 1 ((totalRows + (morselSize - 1)) / morselSize)
  versions := fun segment => .empty (segment * morselSize)

def RowVersions.loaded : RowVersions := fun _ => { inserted := 0, deleted := notDeletedId }

namespace VersionState

def Reads (state : VersionState) (transaction : Transaction) : Prop :=
  (∀ vector maxCount, maxCount ≤ state.table.rowsIn vector →
    selectedRows maxCount (state.table.getSelVector transaction vector maxCount) =
      (List.range maxCount).filter fun row =>
        (rowsOf state.recorded vector row).visible transaction) ∧
  ∀ row < state.table.totalRows,
    state.table.fetch transaction row = (state.recorded row).visible transaction

/-- Timestamps do not run out, deleted rows exist, and when a commit fails, the entries
committed by then share no vector with later appends of the transaction. -/
def Allowed (state : VersionState) : VersionAction → Prop
  | .start => state.manager.currentStartTimestamp + 1 < transactionIdStart
  | .append _ _ _ => True
  | .delete _ segment rowIds =>
    ∀ rowId ∈ rowIds, rowId < morselSize ∧ segment * morselSize + rowId < state.table.totalRows
  | .commit transactionId failure =>
    state.manager.currentStartTimestamp + 1 < transactionIdStart ∧
      ∀ committed reverted, failure = some (committed, reverted) →
        AppendsApart ((state.undo transactionId).take committed)
          ((state.undo transactionId).drop committed)
  | .rollback _ => True

/-- What an open transaction deletes are rows that the version information can mark. -/
def Aims (state : VersionState) (action : VersionAction) : Prop :=
  ∀ ⦃transaction segment rowIds⦄, transaction ∈ state.manager.activeTransactions →
    action = .delete transaction.transactionId segment rowIds → state.table.Targets segment rowIds

end VersionState

variable {totalRows : Nat}

theorem VersionedTable.loaded_layout : (loaded totalRows).Layout where
  starts := fun _ => rfl
  beyond := fun _ _ => rfl
  positive := by
    simp only [loaded]
    omega
  ends := by
    simp only [EndsAt, loaded, morselSize, standardVectorSize, morselVectorCount]
    omega

theorem VersionInvariant.loaded (totalRows : Nat) :
    VersionInvariant (· = notDeletedId) (.initial (.loaded totalRows) .loaded) where
  valid := initial_valid
  room := by
    change 0 < transactionIdStart
    decide
  bounded := le_refl _
  layout := loaded_layout
  constants := by
    intro vector insertId deleteId found
    simp [VersionState.initial, VersionedTable.loaded, info, MorselInfo.empty] at found
  sound := fun _ _ _ => rfl
  held := by simp [VersionState.initial, TransactionManager.initial]
  past := by
    intro row _
    change 0 < transactionIdStart
    decide
  unused := fun _ _ => rfl

theorem VersionedTable.fetch_eq (table : VersionedTable) (transaction : Transaction) (row : Nat) :
    table.fetch transaction row = ChunkInfo.fetch (table.info (row / standardVectorSize)) transaction.startTime
        transaction.transactionId (row % standardVectorSize) := by
  have morsel : row / morselSize = row / standardVectorSize / morselVectorCount := by
    simp only [morselSize, Nat.div_div_eq_div_mul]
  have vector : row % morselSize / standardVectorSize = row / standardVectorSize % morselVectorCount := by
    simp only [morselSize, Nat.mod_mul_right_div_self]
  have offset : row % morselSize - row % morselSize / standardVectorSize * standardVectorSize =
      row % standardVectorSize := by
    simp only [morselSize, standardVectorSize, morselVectorCount]
    omega
  rw [fetch, MorselInfo.fetch]
  rw [offset, vector, morsel]
  rfl

namespace VersionInvariant

variable {whole : Nat → Prop} {state : VersionState} {transaction : Transaction}

section

variable (invariant : VersionInvariant whole state)
  (member : transaction ∈ state.manager.activeTransactions) (started : 0 < transaction.startTime)
include invariant member started

theorem canRead : transaction.CanRead := by
  have identified := invariant.valid.active transaction member
  have early := identified.startBounded
  have below := identified.idBelow
  have bounded := invariant.bounded
  have room := invariant.room
  simp only [TransactionManager.Room, transactionIdStart] at early room bounded
  refine ⟨started, ?_, ?_⟩ <;> simp only [notDeletedId] <;> omega

theorem reads : state.Reads transaction := by
  have canRead := invariant.canRead member started
  constructor
  · intro vector maxCount within
    exact (invariant.sound vector).getSelVector canRead within
  intro row inside
  have inVector : row % standardVectorSize < state.table.rowsIn (row / standardVectorSize) := by
    simp only [rowsIn, upper, standardVectorSize]
    omega
  rw [fetch_eq, (invariant.sound (row / standardVectorSize)).fetch canRead inVector, rowsOf, Nat.div_add_mod']

end

variable {action : VersionAction}

theorem step (invariant : VersionInvariant whole state) (kept : whole notDeletedId)
    (allowed : state.Allowed action) (targets : state.Aims action) :
    ∃ next, state.step action = some next ∧ VersionInvariant whole next := by
  cases action with
  | start =>
    simp only [VersionState.step]
    cases started : state.manager.startTransaction with
    | error message => exact ⟨state, rfl, invariant⟩
    | ok result =>
      obtain ⟨manager, transaction⟩ := result
      refine ⟨_, rfl, invariant.start started ?_⟩
      obtain ⟨_, _, _, nextStart, _⟩ := startTransaction_eq started
      change manager.currentStartTimestamp < _
      rw [nextStart]
      exact allowed
  | append transactionId count constraintViolated =>
    simp only [VersionState.step]
    exact state.manager.find_cases transactionId ⟨state, rfl, invariant⟩ fun _ member _ =>
      invariant.append member kept count constraintViolated
  | delete transactionId segment rowIds =>
    simp only [VersionState.step]
    refine state.manager.find_cases transactionId ⟨state, rfl, invariant⟩ ?_
    exact fun _ member same => ⟨_, rfl, invariant.delete member (targets member (same ▸ rfl))⟩
  | commit transactionId failure =>
    simp only [VersionState.step]
    refine state.manager.find_cases transactionId ⟨state, rfl, invariant⟩ ?_
    rintro transaction member rfl
    exact invariant.commit member allowed.1 failure allowed.2
  | rollback transactionId =>
    simp only [VersionState.step]
    exact state.manager.find_cases transactionId ⟨state, rfl, invariant⟩ fun _ member _ =>
      invariant.rollback member

theorem targets (invariant : VersionInvariant (· = notDeletedId) state)
    (allowed : state.Allowed action) : state.Aims action := by
  rintro _ segment rowIds _ rfl rowId member
  exact ⟨(allowed rowId member).1, (allowed rowId member).2,
    fun insertId deleteId => invariant.constants _ insertId deleteId⟩

theorem run {actions : List VersionAction}
    (meets : MeetsPartial VersionState.step VersionState.Allowed (.initial (.loaded totalRows) .loaded) actions) :
    ∃ final, runPartial VersionState.step (.initial (.loaded totalRows) .loaded) actions =
      some final ∧ VersionInvariant (· = notDeletedId) final :=
  runPartial_invariant (fun _ _ invariant allowed => invariant.step rfl allowed (invariant.targets allowed))
    (VersionInvariant.loaded totalRows) meets

end VersionInvariant

namespace VersionState

/-- In every state that is reached, all representations of the version information show
the recorded ids. -/
theorem run_reads {totalRows : Nat} {actions : List VersionAction}
    (meets : MeetsPartial step Allowed (.initial (.loaded totalRows) .loaded) actions) :
    ∃ final, runPartial step (.initial (.loaded totalRows) .loaded) actions = some final ∧
      ∀ transaction ∈ final.manager.activeTransactions, 0 < transaction.startTime →
        final.Reads transaction := by
  obtain ⟨final, ran, invariant⟩ := VersionInvariant.run meets
  exact ⟨final, ran, fun _ member started => invariant.reads member started⟩

def allowedCheck (state : VersionState) : VersionAction → Bool
  | .start => state.manager.currentStartTimestamp + 1 < transactionIdStart
  | .append _ _ _ => true
  | .delete _ segment rowIds =>
    rowIds.all fun rowId =>
      rowId < morselSize && segment * morselSize + rowId < state.table.totalRows
  | .commit _ failure =>
    state.manager.currentStartTimestamp + 1 < transactionIdStart && failure.isNone
  | .rollback _ => true

theorem allowed_of_check (state : VersionState) {action : VersionAction}
    (checked : state.allowedCheck action = true) : state.Allowed action := by
  cases action with
  | start => simpa [allowedCheck, Allowed] using checked
  | append _ _ _ => trivial
  | delete _ _ _ => simpa [allowedCheck, Allowed] using checked
  | commit _ failure =>
    simp only [allowedCheck, Bool.and_eq_true, decide_eq_true_eq, isNone_iff_eq_none] at checked
    refine ⟨checked.1, ?_⟩
    intro committed reverted failed
    rw [checked.2] at failed
    cases failed
  | rollback _ => trivial

def insertAndDelete : List VersionAction := [
  .start,
  .start,
  .append (transactionIdStart + 1) 3 false,
  .delete (transactionIdStart + 1) 0 [0, 4],
  .commit (transactionIdStart + 1) none,
  .start
]

theorem insertAndDelete_reads :
    ∃ final, runPartial step (.initial (.loaded 5) .loaded) insertAndDelete = some final ∧
      ∀ transaction ∈ final.manager.activeTransactions, 0 < transaction.startTime →
        final.Reads transaction := by
  exact run_reads (meetsPartial_of_check allowed_of_check (by decide +kernel))

/-- The first transaction reaches the flush limit of its local storage twice, and the second
one once. The commit of the first one fails between its two ranges, which share a vector.
Because other rows follow, the ranges stay in the table. -/
def interruptedCommit : List VersionAction := [
  .start,
  .start,
  .start,
  .append (transactionIdStart + 1) (2 * morselSize) false,
  .append (transactionIdStart + 1) (2 * morselSize) false,
  .append (transactionIdStart + 2) (2 * morselSize) false,
  .commit (transactionIdStart + 1) (some (1, 2)),
  .start
]

def selectsWrongly (state : VersionState) (vector maxCount : Nat) : Bool :=
  state.manager.activeTransactions.any fun transaction =>
    0 < transaction.startTime && maxCount ≤ state.table.rowsIn vector &&
      selectedRows maxCount (state.table.getSelVector transaction vector maxCount) ≠
        (List.range maxCount).filter fun row =>
          (rowsOf state.recorded vector row).visible transaction

theorem interruptedCommit_not_reads :
    ∃ final, runPartial step (.initial (.loaded 10) .loaded) interruptedCommit = some final ∧
      ∃ transaction ∈ final.manager.activeTransactions, 0 < transaction.startTime ∧
        ¬final.Reads transaction := by
  have evaluated : (runPartial step (.initial (.loaded 10) .loaded) interruptedCommit).any
      (selectsWrongly · 200 11) = true := by
    decide +kernel
  obtain ⟨final, ran, selects⟩ := (any_eq_true _ _).mp evaluated
  obtain ⟨transaction, member, differs⟩ := any_eq_true.mp selects
  simp only [Bool.and_eq_true, decide_eq_true_eq] at differs
  exact ⟨final, ran, transaction, member, differs.1.1,
    fun reads => differs.2 (reads.1 200 11 differs.1.2)⟩

end VersionState

end GuinsooDB
