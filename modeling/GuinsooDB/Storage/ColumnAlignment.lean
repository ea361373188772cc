import GuinsooDB.Storage.ColumnData

/-!
The segments of a column are aligned to vectors and its update segments to morsels. Appends,
reverted appends, updates and reloads keep this, whatever number of rows fits in a segment.
-/

namespace GuinsooDB

open Extents Transition List Option DataPointer ColumnSegment Prod

/-! Update segments -/

namespace UpdateMorsel

/-- The update segments partition the rows: all but the last one are whole morsels. The last
one is never full, so that there is one for the row after the last. -/
structure Partition (updates : List UpdateMorsel) (rows : Nat) : Prop where
  nonempty : updates ≠ []
  contiguous : Contiguous start count 0 updates
  stops : stop count 0 updates = rows
  whole : ∀ morsel ∈ updates.dropLast, morsel.count = morselSize
  open_ : ∀ morsel ∈ updates.getLast?, morsel.count < morselSize

variable {updates : List UpdateMorsel} {rows : Nat}

variable (partition : Partition updates rows)

include partition in
theorem Partition.tiled : Tiled start count standardVectorSize updates := by
  refine ⟨partition.contiguous, ?_⟩
  intro morsel member
  rw [partition.whole morsel member]
  decide

include partition in
theorem Partition.count_le : ∀ morsel ∈ updates, morsel.count ≤ morselSize := by
  intro morsel member
  rcases eq_nil_or_concat' updates with rfl | ⟨front, last, rfl⟩
  · exact nomatch member
  rcases mem_append.mp member with inFront | isLast
  · refine le_of_eq (partition.whole morsel ?_)
    rw [dropLast_concat]
    exact inFront
  · cases mem_singleton.mp isLast
    exact le_of_lt (partition.open_ morsel (by simp))

variable {front : List UpdateMorsel} {last : UpdateMorsel}

theorem partition_concat : Partition (front ++ [last]) rows ↔ Contiguous start count 0 front ∧
      last.start = stop count 0 front ∧ last.start + last.count = rows ∧
        (∀ morsel ∈ front, morsel.count = morselSize) ∧ last.count < morselSize := by
  constructor
  · rintro ⟨-, contiguous, stops, whole, notFull⟩
    rw [dropLast_concat] at whole
    rw [stop_concat contiguous] at stops
    exact ⟨(contiguous_append.mp contiguous).1, start_eq contiguous, stops, whole, notFull last (by simp)⟩
  rintro ⟨contiguous, starts, stops, whole, notFull⟩
  have together : Contiguous start count 0 (front ++ [last]) := contiguous_append.mpr ⟨contiguous, starts, trivial⟩
  refine ⟨by simp, together, (stop_concat together).trans stops, ?_, ?_⟩
  · rw [dropLast_concat]
    exact whole
  · intro morsel isLast
    rw [getLast?_concat] at isLast
    cases isLast
    exact notFull

variable {morsel : UpdateMorsel}

theorem Partition.cut {later : List UpdateMorsel} {row : Nat}
    (partition : Partition (front ++ morsel :: later) rows) (holds : Holds start count morsel row) :
    Partition (front ++ [{ morsel with count := row - morsel.start }]) row := by
  obtain ⟨starts, stops⟩ := holds
  have bounded := partition.count_le morsel (by simp)
  have begins : morsel.start = stop count 0 front := start_eq partition.contiguous
  refine partition_concat.mpr ⟨(contiguous_append.mp partition.contiguous).1, begins, ?_, ?_, ?_⟩
  · change morsel.start + (row - morsel.start) = row
    omega
  · intro other isBefore
    refine partition.whole other ?_
    rw [dropLast_append_of_ne_nil (by simp)]
    exact mem_append_left _ isBefore
  · change row - morsel.start < morselSize
    omega

def extent (morsel : UpdateMorsel) : Nat × Nat := (morsel.start, morsel.count)

include partition in
theorem Partition.of_extents {others : List UpdateMorsel}
    (same : others.map extent = updates.map extent) : Partition others rows := by
  have contiguous := partition.contiguous
  have stops := partition.stops
  have asPairs : ∀ morsels : List UpdateMorsel, Contiguous start count 0 morsels ↔
      Contiguous fst snd 0 (morsels.map extent) := by
    intro morsels
    rw [contiguous_map]
    rfl
  have stopsAsPairs : ∀ morsels : List UpdateMorsel, stop count 0 morsels = stop snd 0 (morsels.map extent) := by
    intro morsels
    rw [stop_map]
    rfl
  refine ⟨?_, ?_, ?_, ?_, ?_⟩
  · intro none
    rw [none, map_nil] at same
    exact partition.nonempty (map_eq_nil_iff.mp same.symm)
  · rw [asPairs, same, ← asPairs]
    exact contiguous
  · rw [stopsAsPairs, same, ← stopsAsPairs]
    exact stops
  · intro morsel member
    have mapped : morsel.extent ∈ (others.map extent).dropLast := by
      rw [← map_dropLast]
      exact mem_map_of_mem member
    rw [same, ← map_dropLast] at mapped
    obtain ⟨twin, twinMember, twinSame⟩ := mem_map.mp mapped
    exact (congrArg snd twinSame).symm.trans (partition.whole twin twinMember)
  · intro morsel isLast
    have mapped : (others.map extent).getLast? = some morsel.extent := by
      rw [getLast?_map, isLast, map_some]
    rw [same, getLast?_map] at mapped
    obtain ⟨twin, twinLast, twinSame⟩ := map_eq_some_iff.mp mapped
    have notFull := partition.open_ twin twinLast
    rw [show morsel.count = twin.count from (congrArg snd twinSame).symm]
    exact notFull

theorem map_extent_modify {index : Nat} {change : UpdateMorsel → UpdateMorsel}
    (same : ∀ morsel, (change morsel).extent = morsel.extent) :
    (updates.modify index change).map extent = updates.map extent := by
  apply ext_getElem?
  intro position
  rw [getElem?_map, getElem?_map, getElem?_modify]
  cases updates[position]? with
  | none => rfl
  | some morsel =>
    by_cases here : index = position
    · simp only [if_pos here, Option.map_eq_map, map_some, same]
    · simp only [if_neg here, Option.map_eq_map, map_some]

theorem growLoop_partition {fuel remaining : Nat}
    (partition : Partition (front ++ [last]) rows) (enough : remaining < fuel) :
    Partition (growLoop fuel front last remaining) (rows + remaining) := by
  induction fuel generalizing remaining rows front last with
  | zero => omega
  | succ fuel ih =>
    rw [growLoop]
    split
    · next none =>
        rw [none]
        exact partition
    next some =>
      obtain ⟨contiguous, starts, stops, whole, notFull⟩ := partition_concat.mp partition
      have total : rows + remaining = rows + min remaining (morselSize - last.count) +
          (remaining - min remaining (morselSize - last.count)) := by omega
      dsimp only
      rw [total]
      split
      · next full =>
          refine ih ?_ (by omega)
          refine partition_concat.mpr ⟨?_, ?_, ?_, ?_, morselSize_pos⟩
          · exact contiguous_append.mpr ⟨contiguous, starts, trivial⟩
          · rw [stop_append, ← starts]
            rfl
          · change last.start + (last.count + min _ _) + 0 = _
            omega
          intro morsel member
          rcases mem_append.mp member with inFront | isLast
          · exact whole morsel inFront
          · cases mem_singleton.mp isLast
            exact full
      · next notYet =>
          refine ih ?_ (by omega)
          refine partition_concat.mpr ⟨contiguous, starts, ?_, whole, ?_⟩
          · change last.start + (last.count + min _ _) = _
            omega
          · change last.count + min _ _ < morselSize
            omega

variable {persistentRows : Nat}

theorem loadLoop_partition {fuel rowCount : Nat}
    (contiguous : Contiguous start count 0 front) (stops : stop count 0 front = rowCount)
    (whole : ∀ morsel ∈ front, morsel.count = morselSize) (inside : rowCount ≤ persistentRows)
    (enough : persistentRows < rowCount + fuel) :
    Partition (front ++ loadLoop persistentRows fuel rowCount) persistentRows := by
  induction fuel generalizing front rowCount with
  | zero => omega
  | succ fuel ih =>
    have positive := morselSize_pos
    have aligned : morselSize ∣ rowCount := by
      rw [← stops]
      refine unit_dvd_stop (Nat.dvd_zero _) ?_
      intro morsel member
      exact ⟨1, by rw [whole morsel member, mul_one]⟩
    rw [loadLoop]
    split
    · next less =>
        dsimp only
        by_cases full : rowCount + morselSize ≤ persistentRows
        · rw [Nat.min_eq_left full, Nat.add_sub_cancel_left, append_cons]
          refine ih ?_ ?_ ?_ full (by omega)
          · exact contiguous_append.mpr ⟨contiguous, stops.symm, trivial⟩
          · rw [stop_append, stops]
            rfl
          intro morsel member
          rcases mem_append.mp member with inFront | isLast
          · exact whole morsel inFront
          · cases mem_singleton.mp isLast
            rfl
        · -- the last rows do not fill a morsel, and nothing is set up behind them
          have notAligned : ¬persistentRows % morselSize = 0 := by
            intro divides
            obtain ⟨before, rfl⟩ := aligned
            obtain ⟨all, rfl⟩ := Nat.dvd_of_mod_eq_zero divides
            have more : before < all := Nat.lt_of_mul_lt_mul_left less
            exact full (Nat.mul_le_mul_left morselSize more)
          have ends : loadLoop persistentRows fuel persistentRows = [] := by
            cases fuel with
            | zero => rfl
            | succ fuel => rw [loadLoop, if_neg (lt_irrefl _), if_neg notAligned]
          rw [min_eq_right (by omega), ends]
          refine partition_concat.mpr ⟨contiguous, stops.symm, ?_, whole, ?_⟩
          · change rowCount + (persistentRows - rowCount) = persistentRows
            omega
          · change persistentRows - rowCount < morselSize
            omega
    · next notLess =>
        rw [if_pos (Nat.mod_eq_zero_of_dvd aligned)]
        refine partition_concat.mpr ⟨contiguous, stops.symm, ?_, whole, positive⟩
        change rowCount + 0 = persistentRows
        omega

theorem load_partition : Partition (load persistentRows) persistentRows := by
  have loaded : Partition ([] ++ loadLoop persistentRows (persistentRows + 1) 0) persistentRows :=
    loadLoop_partition trivial rfl (by simp) (Nat.zero_le _) (by omega)
  exact loaded

/-! The walk over the update segments -/

structure At (updates remaining : List UpdateMorsel) (vector : Nat) : Prop where
  reached : ∃ front morsel later, updates = front ++ morsel :: later ∧
    remaining = morsel :: later ∧ morsel.baseVectorIndex ≤ vector ∧
      vector < morsel.baseVectorIndex + morselVectorCount

theorem Partition.morselSize_dvd_start {later : List UpdateMorsel}
    (partition : Partition (front ++ morsel :: later) rows) : morselSize ∣ morsel.start := by
  rw [start_eq partition.contiguous]
  refine unit_dvd_stop (Nat.dvd_zero _) ?_
  intro other member
  have full : other.count = morselSize := by
    refine partition.whole other ?_
    rw [dropLast_append_of_ne_nil (by simp)]
    exact mem_append_left _ member
  exact ⟨1, by rw [full, mul_one]⟩

variable {vector : Nat}

theorem Partition.later {later : List UpdateMorsel} (partition : Partition (front ++ morsel :: later) rows)
    (inside : vector * standardVectorSize ≤ rows)
    (past : morsel.baseVectorIndex + morselVectorCount ≤ vector) :
    ∃ next rest, later = next :: rest ∧
      next.baseVectorIndex = morsel.baseVectorIndex + morselVectorCount := by
  obtain ⟨number, starts⟩ := partition.morselSize_dvd_start
  have base : morsel.baseVectorIndex = number * morselVectorCount := by
    rw [baseVectorIndex, starts]
    unfold morselSize standardVectorSize morselVectorCount
    omega
  cases later with
  | nil =>
    obtain ⟨-, -, stops, -, notFull⟩ := partition_concat.mp partition
    unfold morselSize standardVectorSize morselVectorCount at *
    omega
  | cons next rest =>
    refine ⟨next, rest, rfl, ?_⟩
    have full : morsel.count = morselSize := by
      refine partition.whole morsel ?_
      rw [dropLast_append_of_ne_nil (by simp), dropLast_cons_of_ne_nil (by simp)]
      simp
    have follows : next.start = morsel.start + morsel.count := by
      have contiguous := partition.contiguous
      rw [append_cons] at contiguous
      rw [start_eq contiguous, stop_concat (contiguous_append.mp contiguous).1]
    rw [base, baseVectorIndex, follows, full, starts]
    unfold morselSize standardVectorSize morselVectorCount
    omega

include partition in
theorem skip_at {later : List UpdateMorsel}
    (reached : updates = front ++ morsel :: later) (starts : morsel.baseVectorIndex ≤ vector)
    (inside : vector * standardVectorSize ≤ rows) :
    ∃ found rest, skip (morsel :: later) (vector - morsel.baseVectorIndex) =
        some (found :: rest, vector - found.baseVectorIndex) ∧
      At updates (found :: rest) vector := by
  induction later generalizing front morsel with
  | nil =>
    rw [skip]
    split
    · next past =>
        rw [reached] at partition
        obtain ⟨_, _, more, -⟩ := partition.later inside (by omega)
        exact nomatch more
    · next within =>
        exact ⟨morsel, [], rfl, ⟨front, morsel, [], reached, rfl, starts, by omega⟩⟩
  | cons next rest ih =>
    rw [skip]
    split
    · next past =>
        have split := partition
        rw [reached] at split
        obtain ⟨_, _, more, base⟩ := split.later inside (by omega)
        cases more
        have regrouped : updates = (front ++ [morsel]) ++ next :: rest := by
          rw [reached, append_cons]
        obtain ⟨found, remaining, skipped, holds⟩ := ih regrouped (by omega)
        refine ⟨found, remaining, ?_, holds⟩
        rw [← skipped, base, Nat.sub_sub]
    · next within =>
        exact ⟨morsel, next :: rest, rfl, ⟨front, morsel, next :: rest, reached, rfl, starts, by omega⟩⟩

variable {remaining : List UpdateMorsel}

include partition in
theorem findSegment_at {target : Nat} (holds : At updates remaining vector) (order : vector ≤ target)
    (inside : target * standardVectorSize ≤ rows) :
    ∃ found, findSegment remaining target = some found ∧ At updates found target := by
  obtain ⟨front, morsel, later, reached, rfl, starts, -⟩ := holds.reached
  obtain ⟨found, rest, skipped, at_⟩ := skip_at partition reached (le_trans starts order) inside
  exact ⟨found :: rest, by rw [findSegment, skipped]; rfl, at_⟩

include partition in
theorem hasUpdates_eq_some {left : Nat} (reached : ∃ front morsel later, updates = front ++ morsel :: later ∧
      remaining = morsel :: later ∧ morsel.baseVectorIndex ≤ vector)
    (inside : left = 0 ∨ (vector + left - 1) * standardVectorSize ≤ rows) :
    ∃ answer, hasUpdates left remaining vector = some answer := by
  induction left generalizing remaining vector with
  | zero => exact ⟨false, rfl⟩
  | succ left ih =>
    obtain ⟨front, morsel, later, split, rfl, starts⟩ := reached
    have here : vector * standardVectorSize ≤ rows := by
      unfold standardVectorSize at *
      omega
    obtain ⟨found, rest, skipped, holds⟩ := skip_at partition split starts here
    rw [hasUpdates, if_neg (not_lt.mpr starts), skipped]
    dsimp only
    by_cases updated : vector - found.baseVectorIndex ∈ found.updated
    · exact ⟨true, if_pos updated⟩
    rw [if_neg updated]
    obtain ⟨foundFront, _, _, foundSplit, same, foundStarts, -⟩ := holds.reached
    cases same
    refine ih ⟨foundFront, found, rest, foundSplit, rfl, by omega⟩ ?_
    unfold standardVectorSize at *
    omega

end UpdateMorsel

def ColumnSegment.Stored (kind : ColumnKind) (segment : ColumnSegment) : Prop :=
  segment = .persistent kind segment.start segment.count segment.dictionaryOffset ∧ segment.Fits

namespace ColumnSegment

variable {segment : ColumnSegment} {kind : ColumnKind}

theorem stored_persistent {rowStart : Nat} (fits : segment.Fits) (nonempty : 0 < segment.count)
    (vectors : kind ≠ .string → segment.maxVectorCount = kind.initialVectorCount) :
    (persistent kind rowStart segment.count segment.dictionaryOffset).Stored kind := by
  refine ⟨rfl, ?_⟩
  unfold persistent
  by_cases string : kind = .string
  · rw [if_pos string]
    exact ⟨vectorsFor_pos nonempty, le_vectorsFor _⟩
  · rw [if_neg string, ← vectors string]
    exact ⟨fits.positive, fits.room⟩

theorem toTransient_fits (stored : segment.Stored kind) : (segment.toTransient kind).Fits := by
  obtain ⟨same, fits⟩ := stored
  unfold toTransient
  by_cases string : kind = .string
  · rw [if_pos string, vectorsFor_eq]
    refine ⟨?_, le_vectorsFor _⟩
    have positive := fits.positive
    rw [same, persistent, if_pos string] at positive
    exact positive
  · rw [if_neg string]
    exact ⟨fits.positive, fits.room⟩

theorem append_maxVectorCount (notString : kind ≠ .string) {segment : ColumnSegment} {values : List Appended} :
    (segment.append kind values).maxVectorCount = segment.maxVectorCount := by
  cases kind with
  | numeric width => rfl
  | string => exact absurd rfl notString
  | validity => rfl

end ColumnSegment

namespace ColumnData

/-- The column holds `rows` rows, of which its last checkpoint has written `persisted`. -/
structure Aligned (kind : ColumnKind) (column : ColumnData) (rows persisted : Nat) : Prop where
  data : Tiled ColumnSegment.start ColumnSegment.count standardVectorSize column.data
  dataRows : stop ColumnSegment.count 0 column.data = rows
  updates : UpdateMorsel.Partition column.updates rows ∨ column.updates = [] ∧ column.data = []
  stored : ∀ segment ∈ column.data, segment.segmentType = .persistent →
    segment.Stored kind ∧ segment.start + segment.count ≤ persisted
  fits : ∀ segment ∈ column.data, segment.Fits
  disk : Tiled rowStart tupleCount standardVectorSize column.disk
  diskRows : stop tupleCount 0 column.disk = persisted
  diskStored : ∀ pointer ∈ column.disk, (persistent kind pointer.rowStart
    pointer.tupleCount pointer.dictionaryOffset).Stored kind
  persistedRows : persisted ≤ rows
  loadedRows : column.persistentRows ≤ persisted

variable {kind : ColumnKind} {column : ColumnData} {rows persisted : Nat}

theorem empty_aligned (kind : ColumnKind) : Aligned kind empty 0 0 where
  data := Tiled.nil
  dataRows := rfl
  updates := .inr ⟨rfl, rfl⟩
  stored := by simp [empty]
  fits := by simp [empty]
  disk := Tiled.nil
  diskRows := rfl
  diskStored := by simp [empty]
  persistedRows := le_refl 0
  loadedRows := le_refl 0

theorem Aligned.partition (aligned : Aligned kind column rows persisted)
    (nonempty : column.updates ≠ []) : UpdateMorsel.Partition column.updates rows := by
  rcases aligned.updates with partition | ⟨none, -⟩
  · exact partition
  · exact absurd none nonempty

theorem appendLoop_spec {fuel : Nat} {front : List ColumnSegment} {current : ColumnSegment} {values : List Appended}
    (tiled : Tiled ColumnSegment.start ColumnSegment.count standardVectorSize (front ++ [current]))
    (fits : current.Fits) (transient : current.segmentType = .transient)
    (enough : values.length + 2 ≤ fuel ∨ current.count = 0 ∧ values.length + 1 ≤ fuel) :
    Tiled ColumnSegment.start ColumnSegment.count standardVectorSize (appendLoop kind fuel front current values) ∧
      stop ColumnSegment.count 0 (appendLoop kind fuel front current values) =
        current.start + current.count + values.length ∧
      ∀ segment ∈ appendLoop kind fuel front current values,
        segment ∈ front ∨ segment.Fits ∧ segment.segmentType = .transient := by
  induction fuel generalizing front current values with
  | zero => omega
  | succ fuel ih =>
    have filled := append_filled kind fits values
    have appendedTiled : Tiled ColumnSegment.start ColumnSegment.count standardVectorSize
        (front ++ [current.append kind values]) := tiled.replaceLast filled.start
    have starts := filled.start
    have grows := filled.grows
    have bound := filled.bound
    rw [appendLoop]
    split
    · next all =>
        refine ⟨appendedTiled, ?_, ?_⟩
        · rw [stop_concat appendedTiled.contiguous]
          omega
        intro segment member
        rcases mem_append.mp member with inFront | isLast
        · exact .inl inFront
        · cases mem_singleton.mp isLast
          exact .inr ⟨filled.fits, filled.segmentType.trans transient⟩
    · next some =>
        have less : (current.append kind values).count < current.count + values.length := by omega
        have whole := filled.whole less
        let next := ColumnSegment.transient kind
          ((current.append kind values).start + (current.append kind values).count)
        have nextTiled : Tiled ColumnSegment.start ColumnSegment.count standardVectorSize
            (front ++ [current.append kind values] ++ [next]) := appendedTiled.concat whole rfl
        have shorter : (values.drop ((current.append kind values).count - current.count)).length + 1 ≤ fuel := by
          rw [length_drop]
          omega
        obtain ⟨restTiled, restStops, restMembers⟩ := ih nextTiled (transient_fits _ _) rfl (.inr ⟨rfl, shorter⟩)
        refine ⟨restTiled, ?_, ?_⟩
        · rw [restStops, length_drop]
          change (current.append kind values).start + (current.append kind values).count + 0 + _ = _
          omega
        intro segment member
        rcases restMembers segment member with inFront | fresh
        · rcases mem_append.mp inFront with before | isLast
          · exact .inl before
          · cases mem_singleton.mp isLast
            exact .inr ⟨filled.fits, filled.segmentType.trans transient⟩
        · exact .inr fresh

section

variable (aligned : Aligned kind column rows persisted)
include aligned

theorem appendTarget_spec : let target := column.appendTarget kind
    Tiled ColumnSegment.start ColumnSegment.count standardVectorSize (target.1 ++ [target.2]) ∧
      target.2.Fits ∧ target.2.segmentType = .transient ∧
        target.2.start + target.2.count = rows ∧ ∀ segment ∈ target.1, segment ∈ column.data := by
  rw [appendTarget]
  rcases eq_nil_or_concat' column.data with none | ⟨front, last, split⟩
  · have rowsZero := aligned.dataRows
    have loaded := aligned.loadedRows
    have atMost := aligned.persistedRows
    rw [none, stop] at rowsZero
    rw [none]
    have zero : column.persistentRows = 0 := by omega
    rw [zero]
    exact ⟨Tiled.single rfl, transient_fits _ _, rfl, rowsZero, by simp⟩
  · have member : last ∈ column.data := by rw [split]; simp
    have tiled := aligned.data
    have stops := aligned.dataRows
    rw [split] at tiled stops
    rw [stop_concat tiled.contiguous] at stops
    rw [split, getLast?_concat, dropLast_concat]
    have inFront : ∀ segment ∈ front, segment ∈ front ++ [last] := fun segment member => mem_append_left _ member
    by_cases persistent : last.segmentType = .persistent
    · dsimp only
      rw [if_pos persistent]
      exact ⟨tiled.replaceLast rfl, toTransient_fits (aligned.stored last member persistent).1, rfl, stops, inFront⟩
    dsimp only
    rw [if_neg persistent]
    refine ⟨tiled, aligned.fits last member, ?_, stops, inFront⟩
    cases kindOfLast : last.segmentType with
    | persistent => exact absurd kindOfLast persistent
    | transient => rfl

theorem updateTarget_spec : UpdateMorsel.Partition (column.updateTarget.1 ++ [column.updateTarget.2]) rows := by
  rw [updateTarget]
  rcases eq_nil_or_concat' column.updates with none | ⟨front, last, split⟩
  · have zero : 0 = rows := by
      rcases aligned.updates with partition | ⟨-, noData⟩
      · exact absurd none partition.nonempty
      · have stops := aligned.dataRows
        rw [noData, stop] at stops
        exact stops
    rw [none, ← zero]
    exact UpdateMorsel.partition_concat.mpr ⟨trivial, rfl, rfl, by simp, morselSize_pos⟩
  · have partition := aligned.partition (by rw [split]; simp)
    rw [split] at partition
    rw [split, getLast?_concat, dropLast_concat]
    exact partition

theorem Aligned.append (values : List Appended) :
    Aligned kind (column.append kind values) (rows + values.length) persisted := by
  obtain ⟨tiled, fits, transient, ends, earlier⟩ := appendTarget_spec aligned
  obtain ⟨appendedTiled, stops, members⟩ := appendLoop_spec tiled fits transient (.inl (le_refl (values.length + 2)))
  have grown := UpdateMorsel.growLoop_partition (updateTarget_spec aligned) (Nat.lt_succ_self values.length)
  exact
    { aligned with
      data := appendedTiled
      dataRows := by rw [← ends]; exact stops
      updates := .inl grown
      stored := by
        intro segment member persistent
        rcases members segment member with old | ⟨-, isTransient⟩
        · exact aligned.stored segment (earlier segment old) persistent
        · rw [isTransient] at persistent
          exact nomatch persistent
      fits := by
        intro segment member
        rcases members segment member with old | ⟨fresh, -⟩
        · exact aligned.fits segment (earlier segment old)
        · exact fresh
      persistedRows := Nat.le_add_right_of_le aligned.persistedRows }

end

/-! Reverted appends -/

variable {row : Nat}

section

variable (aligned : Aligned kind column rows persisted)
include aligned

theorem Aligned.find_segment (inside : row < rows) : ∃ front segment later, column.data = front ++ segment :: later ∧
      Holds ColumnSegment.start ColumnSegment.count segment row ∧
        findColumnSegment column.data row = some front.length :=
  SegmentTree.getSegmentIndex_exists aligned.data.contiguous (by rw [aligned.dataRows]; exact inside)

theorem Aligned.find_update (inside : row < rows) : ∃ front morsel later, column.updates = front ++ morsel :: later ∧
      Holds UpdateMorsel.start UpdateMorsel.count morsel row ∧
        findUpdateMorsel column.updates row = some front.length := by
  rcases aligned.updates with partition | ⟨-, noData⟩
  · exact SegmentTree.getSegmentIndex_exists partition.contiguous (by rw [partition.stops]; exact inside)
  · have stops := aligned.dataRows
    rw [noData, stop] at stops
    omega

/-- The rows from `startRow` on are gone, when none of them was written by a checkpoint. -/
theorem Aligned.revertAppend {startRow : Nat} (appended : persisted ≤ startRow)
    (nonempty : column.data ≠ []) : ∃ reverted, column.revertAppend startRow = some reverted ∧
      Aligned kind reverted (min rows startRow) persisted ∧ reverted.data ≠ [] := by
  obtain ⟨frontOfLast, last, splitLast⟩ := (eq_nil_or_concat' column.data).resolve_left nonempty
  have isLast : column.data.getLast? = some last := by rw [splitLast, getLast?_concat]
  have ends : last.start + last.count = rows := by
    have tiled := aligned.data
    have stops := aligned.dataRows
    rw [splitLast] at tiled stops
    rw [← stops, stop_concat tiled.contiguous]
  rw [ColumnData.revertAppend, isLast]
  dsimp only
  by_cases nothing : last.start + last.count ≤ startRow
  · refine ⟨column, if_pos nothing, ?_, nonempty⟩
    rw [min_eq_left (by omega)]
    exact aligned
  have inside : startRow < rows := by omega
  obtain ⟨front, segment, later, split, holds, found⟩ := aligned.find_segment inside
  obtain ⟨updateFront, morsel, updateLater, updateSplit, updateHolds, updateFound⟩ := aligned.find_update inside
  have member : segment ∈ column.data := by rw [split]; simp
  have notPersistent : ¬segment.segmentType = .persistent := by
    intro persistent
    have written := (aligned.stored segment member persistent).2
    have := holds.2
    omega
  have hasSegment : column.data[front.length]? = some segment := by
    rw [split, getElem?_append_right (le_refl _), Nat.sub_self]
    rfl
  have hasMorsel : column.updates[updateFront.length]? = some morsel := by
    rw [updateSplit, getElem?_append_right (le_refl _), Nat.sub_self]
    rfl
  have takes : column.data.take front.length = front := by
    rw [split, take_left]
  have updateTakes : column.updates.take updateFront.length = updateFront := by
    rw [updateSplit, take_left]
  rw [if_neg nothing, found, bind_some, hasSegment, bind_some,
    if_neg notPersistent, updateFound, bind_some, hasMorsel, map_some, takes,
    updateTakes, min_eq_right (le_of_lt inside)]
  refine ⟨_, rfl, ?_, by simp⟩
  have tiled : Tiled ColumnSegment.start ColumnSegment.count standardVectorSize (front ++ [segment]) := by
    have whole := aligned.data
    rw [split, append_cons] at whole
    exact whole.of_append
  have partition := aligned.partition (by rw [updateSplit]; simp)
  rw [updateSplit] at partition
  have cutTiled : Tiled ColumnSegment.start ColumnSegment.count standardVectorSize
      (front ++ [{ segment with count := startRow - segment.start }]) := tiled.replaceLast rfl
  have inFront : ∀ other ∈ front, other ∈ column.data := by
    intro other isBefore
    rw [split]
    exact mem_append_left _ isBefore
  have starts := holds.1
  exact
    { aligned with
      data := cutTiled
      dataRows := by
        rw [stop_concat cutTiled.contiguous]
        change segment.start + (startRow - segment.start) = startRow
        omega
      updates := .inl (partition.cut updateHolds)
      stored := by
        intro other isMember persistent
        rcases mem_append.mp isMember with before | isCut
        · exact aligned.stored other (inFront other before) persistent
        · cases mem_singleton.mp isCut
          exact absurd persistent notPersistent
      fits := by
        intro other isMember
        rcases mem_append.mp isMember with before | isCut
        · exact aligned.fits other (inFront other before)
        cases mem_singleton.mp isCut
        have room := (aligned.fits segment member).room
        have := holds.2
        refine ⟨(aligned.fits segment member).positive, ?_⟩
        change startRow - segment.start ≤ segment.maxVectorCount * standardVectorSize
        omega
      persistedRows := appended }

theorem Aligned.update (inside : row < rows) (skipped : Bool) : ∃ updated, column.update row skipped = some updated ∧
      Aligned kind updated rows persisted ∧ updated.data = column.data := by
  obtain ⟨front, segment, later, split, holds, found⟩ := aligned.find_segment inside
  obtain ⟨updateFront, morsel, updateLater, updateSplit, updateHolds, updateFound⟩ := aligned.find_update inside
  rw [ColumnData.update, found, bind_some, updateFound, map_some]
  refine ⟨_, rfl, ?_, rfl⟩
  have partition := aligned.partition (by rw [updateSplit]; simp)
  refine { aligned with updates := .inl (partition.of_extents (UpdateMorsel.map_extent_modify ?_)) }
  intro other
  cases skipped
  · rfl
  · rfl

end

theorem sum_eq_stop (pointers : List DataPointer) (row : Nat) :
    row + (pointers.map tupleCount).sum = stop tupleCount row pointers := by
  induction pointers generalizing row with
  | nil => rfl
  | cons pointer rest ih =>
    rw [stop, ← ih, map_cons, sum_cons, add_assoc]

theorem Aligned.reload (aligned : Aligned kind column rows persisted) :
    Aligned kind (column.reload kind) persisted persisted := by
  have total : (column.disk.map tupleCount).sum = persisted := by
    rw [← aligned.diskRows, ← sum_eq_stop, zero_add]
  rw [ColumnData.reload, total]
  refine
    { aligned with
      data := ?_
      dataRows := stop_map.trans aligned.diskRows
      updates := .inl (UpdateMorsel.load_partition)
      stored := ?_
      fits := ?_
      persistedRows := le_refl _
      loadedRows := le_refl _ }
  · refine ⟨contiguous_map.mpr aligned.disk.contiguous, ?_⟩
    intro segment member
    rw [← map_dropLast] at member
    obtain ⟨pointer, pointerMember, rfl⟩ := mem_map.mp member
    exact aligned.disk.whole pointer pointerMember
  · intro segment member _
    obtain ⟨pointer, pointerMember, rfl⟩ := mem_map.mp member
    refine ⟨aligned.diskStored pointer pointerMember, ?_⟩
    rw [← aligned.diskRows]
    exact end_le_stop_of_mem aligned.disk.contiguous pointerMember
  · intro segment member
    obtain ⟨pointer, pointerMember, rfl⟩ := mem_map.mp member
    exact (aligned.diskStored pointer pointerMember).2

end ColumnData

end GuinsooDB
