import GuinsooDB.Storage.ColumnAlignment

/-!
Checkpoints of a column: segments with updates and transient segments are written again into
new segments, the other persistent segments are kept between them, and the update segments
are followed along. The new segments are aligned as the old ones were.
-/

namespace GuinsooDB

open Extents List ColumnSegment

def ColumnSegment.pointer (segment : ColumnSegment) : DataPointer where
  rowStart := segment.start
  tupleCount := segment.count
  dictionaryOffset := segment.dictionaryOffset

namespace ColumnCheckpointState

variable {kind : ColumnKind} {state : ColumnCheckpointState} {row : Nat}

structure Tree (kind : ColumnKind) (state : ColumnCheckpointState) : Prop where
  contiguous : Contiguous start count 0 state.newTree
  pointers : state.dataPointers = state.newTree.map pointer
  stored : ∀ segment ∈ state.newTree, segment.segmentType = .persistent ∧ segment.Stored kind

/-- Every row before `row` is in the new tree or in the segment that is being filled, and a
further segment may follow. -/
structure Upto (kind : ColumnKind) (state : ColumnCheckpointState) (row : Nat) : Prop
    extends Tree kind state where
  whole : ∀ segment ∈ state.newTree, standardVectorSize ∣ segment.count ∧ 0 < segment.count
  reached : stop count 0 state.newTree + state.current.count = row
  fits : state.current.Fits
  vectors : kind ≠ .string → state.current.maxVectorCount = kind.initialVectorCount

structure Complete (kind : ColumnKind) (state : ColumnCheckpointState) (rows : Nat) : Prop
    extends Tree kind state where
  tiled : Tiled start count standardVectorSize state.newTree
  stops : stop count 0 state.newTree = rows

theorem create_upto {kind : ColumnKind} : Upto kind (create kind) 0 where
  contiguous := trivial
  pointers := rfl
  stored := by simp [create]
  whole := by simp [create]
  reached := rfl
  fits := transient_fits kind 0
  vectors := fun _ => rfl

theorem Tree.rowStart_eq (tree : Tree kind state) : state.rowStart = stop count 0 state.newTree := by
  rw [rowStart, tree.pointers, getLast?_map]
  rcases eq_nil_or_concat' state.newTree with none | ⟨front, last, split⟩
  · rw [none]
    rfl
  · have contiguous := tree.contiguous
    rw [split] at contiguous
    rw [split, getLast?_concat, stop_concat contiguous]
    rfl

variable {segment : ColumnSegment}

theorem Tree.concat (tree : Tree kind state) (starts : segment.start = stop count 0 state.newTree)
    (persistent : segment.segmentType = .persistent) (stored : segment.Stored kind)
    (current : ColumnSegment) :
    Tree kind
      { newTree := state.newTree ++ [segment]
        dataPointers := state.dataPointers ++ [segment.pointer]
        current := current } where
  contiguous := contiguous_append.mpr ⟨tree.contiguous, starts, trivial⟩
  pointers := by
    rw [tree.pointers, map_append]
    rfl
  stored := by
    intro other member
    rcases mem_append.mp member with inFront | isLast
    · exact tree.stored other inFront
    · cases mem_singleton.mp isLast
      exact ⟨persistent, stored⟩

section

variable (upto : Upto kind state row)
include upto

theorem Upto.flushed_tree (nonempty : state.current.count ≠ 0) : Tree kind (state.flushSegment kind) := by
  rw [flushSegment, if_neg nonempty]
  exact upto.toTree.concat upto.rowStart_eq rfl
    (stored_persistent upto.fits (Nat.pos_of_ne_zero nonempty) upto.vectors) _

theorem stop_flushed : stop count 0 (state.flushSegment kind).newTree = row := by
  have reached := upto.reached
  rw [flushSegment]
  split
  · omega
  · rw [stop_append]
    exact reached

theorem Upto.complete : Complete kind (state.flushSegment kind) row := by
  by_cases none : state.current.count = 0
  · have same : state.flushSegment kind = state := if_pos none
    have reached := upto.reached
    rw [same]
    refine { upto.toTree with tiled := ⟨upto.contiguous, ?_⟩, stops := by omega }
    intro segment member
    exact upto.whole segment (dropLast_subset _ member)
  · have tree := upto.flushed_tree none
    refine { tree with tiled := ⟨tree.contiguous, ?_⟩, stops := stop_flushed upto }
    rw [flushSegment, if_neg none, dropLast_concat]
    exact upto.whole

theorem Upto.flush (whole : standardVectorSize ∣ state.current.count) (nonempty : 0 < state.current.count) :
    Upto kind ((state.flushSegment kind).createEmptySegment kind) row := by
  have notEmpty : state.current.count ≠ 0 := ne_of_gt nonempty
  have tree := upto.flushed_tree notEmpty
  refine
    { contiguous := tree.contiguous
      pointers := tree.pointers
      stored := tree.stored
      whole := ?_
      reached := (add_zero _).trans (stop_flushed upto)
      fits := transient_fits kind 0
      vectors := fun _ => rfl }
  intro segment member
  rw [createEmptySegment, flushSegment, if_neg notEmpty] at member
  rcases mem_append.mp member with inFront | isLast
  · exact upto.whole segment inFront
  · cases mem_singleton.mp isLast
    exact ⟨whole, nonempty⟩

theorem Upto.appendData {fuel : Nat} {values : List Appended}
    (enough : values.length + 1 ≤ fuel ∨ state.current.count = 0 ∧ values.length ≤ fuel) :
    Upto kind (state.appendData kind fuel values) (row + values.length) := by
  induction fuel generalizing state row values with
  | zero =>
    have none : values.length = 0 := by omega
    rw [none]
    exact upto
  | succ fuel ih =>
    rw [ColumnCheckpointState.appendData]
    split
    · next empty =>
        rw [empty]
        exact upto
    next nonempty =>
      have positive : 0 < values.length := length_pos_iff.mpr nonempty
      have filled := append_filled kind upto.fits values
      have vectors : kind ≠ .string → (state.current.append kind values).maxVectorCount = kind.initialVectorCount :=
        fun notString =>
          (append_maxVectorCount notString).trans (upto.vectors notString)
      generalize state.current.append kind values = appended at filled vectors ⊢
      have grows := filled.grows
      have bound := filled.bound
      have reached := upto.reached
      have grown : Upto kind { state with current := appended } (row + (appended.count - state.current.count)) :=
        { upto with
          reached := by
            change stop count 0 state.newTree + appended.count = _
            omega
          fits := filled.fits
          vectors := vectors }
      dsimp only
      split
      · next all =>
          rw [← all]
          exact grown
      next some =>
        have less : appended.count < state.current.count + values.length := by omega
        obtain ⟨whole, notEmpty⟩ := filled.whole less
        have flushed := grown.flush whole notEmpty
        have shorter : (values.drop (appended.count - state.current.count)).length ≤ fuel := by
          rw [length_drop]
          omega
        have rest := ih flushed (.inr ⟨rfl, shorter⟩)
        have total : row + (appended.count - state.current.count) +
            (values.drop (appended.count - state.current.count)).length = row + values.length := by
          rw [length_drop]
          omega
        rw [← total]
        exact rest

end

theorem Upto.keepSegment (upto : Upto kind state segment.start)
    (aligned : standardVectorSize ∣ segment.start) (persistent : segment.segmentType = .persistent)
    (stored : segment.Stored kind) :
    Complete kind ((state.keepSegment kind segment).flushSegment kind) (segment.start + segment.count) ∧
      (standardVectorSize ∣ segment.count ∧ 0 < segment.count →
        Upto kind (state.keepSegment kind segment) (segment.start + segment.count)) := by
  have flushed : ∃ before, Upto kind before segment.start ∧ before.current.count = 0 ∧ state.keepSegment kind segment =
        { newTree := before.newTree ++ [segment]
          dataPointers := before.dataPointers ++ [segment.pointer]
          current := before.current } := by
    by_cases some : state.current.count > 0
    · refine ⟨(state.flushSegment kind).createEmptySegment kind, upto.flush ?_ some, rfl, ?_⟩
      · have total := upto.reached
        have treeWhole : standardVectorSize ∣ stop count 0 state.newTree :=
          unit_dvd_stop (Nat.dvd_zero _) fun other member => (upto.whole other member).1
        rw [← total] at aligned
        exact (Nat.dvd_add_right treeWhole).mp aligned
      · rw [ColumnCheckpointState.keepSegment, if_pos some]
        rfl
    · refine ⟨state, upto, by omega, ?_⟩
      rw [ColumnCheckpointState.keepSegment, if_neg some]
      rfl
  obtain ⟨before, beforeUpto, none, same⟩ := flushed
  have stops : stop count 0 before.newTree = segment.start := by
    have reached := beforeUpto.reached
    omega
  rw [same]
  have tree := beforeUpto.toTree.concat stops.symm persistent stored before.current
  have ends : stop count 0 (before.newTree ++ [segment]) = segment.start + segment.count := stop_concat tree.contiguous
  constructor
  · rw [flushSegment, if_pos none]
    refine { tree with tiled := ⟨tree.contiguous, ?_⟩, stops := ends }
    rw [dropLast_concat]
    exact beforeUpto.whole
  intro wholeSegment
  refine
    { tree with
      whole := ?_
      reached := by rw [none]; exact ends
      fits := beforeUpto.fits
      vectors := beforeUpto.vectors }
  intro other member
  rcases mem_append.mp member with inFront | isLast
  · exact beforeUpto.whole other inFront
  · cases mem_singleton.mp isLast
    exact wholeSegment

end ColumnCheckpointState

namespace ColumnData

open ColumnCheckpointState

variable {kind : ColumnKind} {merged : Nat → Appended} {updates remaining : List UpdateMorsel}
  {rows : Nat} {segment : ColumnSegment} {state : ColumnCheckpointState}

def Walks (updates remaining : List UpdateMorsel) (baseUpdateIndex updateVectorIndex : Nat) :
    Prop :=
  ∃ front morsel later, updates = front ++ morsel :: later ∧ remaining = morsel :: later ∧
    morsel.baseVectorIndex = baseUpdateIndex ∧ baseUpdateIndex ≤ updateVectorIndex ∧
      updateVectorIndex < baseUpdateIndex + morselVectorCount

variable {updateVectorIndex baseUpdateIndex : Nat}

theorem Walks.next (partition : UpdateMorsel.Partition updates rows)
    (walks : Walks updates remaining baseUpdateIndex updateVectorIndex)
    (inside : (updateVectorIndex + 1) * standardVectorSize ≤ rows) :
    if morselVectorCount ≤ updateVectorIndex + 1 - baseUpdateIndex then
      Walks updates remaining.tail (baseUpdateIndex + morselVectorCount) (updateVectorIndex + 1)
    else Walks updates remaining baseUpdateIndex (updateVectorIndex + 1) := by
  obtain ⟨front, morsel, later, split, rfl, rfl, starts, within⟩ := walks
  by_cases past : morselVectorCount ≤ updateVectorIndex + 1 - morsel.baseVectorIndex
  · rw [if_pos past]
    rw [split] at partition
    obtain ⟨next, rest, rfl, base⟩ := partition.later inside (by omega)
    have positive : 0 < morselVectorCount := by decide
    exact ⟨front ++ [morsel], next, rest, by rw [split, append_cons], rfl, base, by omega,
      by omega⟩
  · rw [if_neg past]
    exact ⟨front, morsel, later, split, rfl, rfl, by omega, by omega⟩

section

variable (partition : UpdateMorsel.Partition updates rows)
include partition

section

variable (inside : segment.start + segment.count ≤ rows)
include inside

theorem rewriteVectors_upto {left vectorIndex : Nat} (vectors : vectorIndex + left = vectorsFor segment.count)
    (upto : Upto kind state (segment.start + min (vectorIndex * standardVectorSize) segment.count))
    (follows : vectorIndex * standardVectorSize ≤ segment.count →
      segment.start + vectorIndex * standardVectorSize = updateVectorIndex * standardVectorSize ∧
      Walks updates remaining baseUpdateIndex updateVectorIndex) :
    ∃ written walked reached, rewriteVectors kind merged segment left vectorIndex state remaining baseUpdateIndex
          updateVectorIndex = some (written, walked, reached) ∧
        Upto kind written (segment.start + segment.count) ∧ (standardVectorSize ∣ segment.count →
            segment.start + segment.count = reached * standardVectorSize ∧ UpdateMorsel.At updates walked reached) := by
  induction left generalizing vectorIndex state remaining baseUpdateIndex updateVectorIndex with
  | zero =>
    have covered := le_vectorsFor segment.count
    rw [add_zero] at vectors
    rw [← vectors] at covered
    refine ⟨state, remaining, updateVectorIndex, rfl, ?_, ?_⟩
    · rw [min_eq_right covered] at upto
      exact upto
    rintro ⟨units, whole⟩
    have exactly : vectorIndex * standardVectorSize = segment.count := by
      rw [vectors, vectorsFor, whole, Nat.mul_mod_right, if_pos rfl, Nat.mul_div_cancel_left units (by decide)]
      exact mul_comm units standardVectorSize
    obtain ⟨same, front, morsel, later, split, rest, base, starts, within⟩ := follows (le_of_eq exactly)
    exact ⟨by omega, ⟨front, morsel, later, split, rest, by omega, by omega⟩⟩
  | succ left ih =>
    have before : vectorIndex * standardVectorSize < segment.count := by
      have total := vectors
      unfold vectorsFor standardVectorSize at *
      split at total <;> omega
    obtain ⟨same, walks⟩ := follows (le_of_lt before)
    have stands := walks
    obtain ⟨front, morsel, later, -, rest, -, starts, within⟩ := stands
    rw [rewriteVectors, if_neg (by rw [rest]; simp; omega)]
    let count := min (segment.count - vectorIndex * standardVectorSize) standardVectorSize
    have step : (vectorIndex + 1) * standardVectorSize =
        vectorIndex * standardVectorSize + standardVectorSize := Nat.succ_mul _ _
    have updateStep : (updateVectorIndex + 1) * standardVectorSize =
        updateVectorIndex * standardVectorSize + standardVectorSize := Nat.succ_mul _ _
    have written : Upto kind (state.appendData kind (count + 1)
        ((range' (segment.start + vectorIndex * standardVectorSize) count).map merged))
        (segment.start + min ((vectorIndex + 1) * standardVectorSize) segment.count) := by
      have length : ((range' (segment.start + vectorIndex * standardVectorSize) count).map merged).length = count := by
        rw [length_map, length_range']
      have appended := upto.appendData (.inl (le_of_eq (congrArg (· + 1) length)))
      rw [length] at appended
      have ends : segment.start + min (vectorIndex * standardVectorSize) segment.count + count =
          segment.start + min ((vectorIndex + 1) * standardVectorSize) segment.count := by
        omega
      rw [← ends]
      exact appended
    have onward := fun room : (vectorIndex + 1) * standardVectorSize ≤ segment.count =>
      walks.next partition (by omega)
    split
    · next past =>
        refine ih (by omega) written fun room => ⟨by omega, ?_⟩
        have moved := onward room
        rw [if_pos past] at moved
        exact moved
    next within =>
      refine ih (by omega) written fun room => ⟨by omega, ?_⟩
      have moved := onward room
      rw [if_neg within] at moved
      exact moved

theorem rewriteSegment_upto (upto : Upto kind state segment.start)
    (same : segment.start = updateVectorIndex * standardVectorSize)
    (stands : UpdateMorsel.At updates remaining updateVectorIndex) :
    ∃ written walked reached, rewriteSegment kind merged segment state remaining updateVectorIndex =
          some (written, walked, reached) ∧
        Upto kind written (segment.start + segment.count) ∧ (standardVectorSize ∣ segment.count →
            segment.start + segment.count = reached * standardVectorSize ∧ UpdateMorsel.At updates walked reached) := by
  obtain ⟨front, morsel, later, split, rfl, starts, within⟩ := stands.reached
  refine rewriteVectors_upto partition inside (zero_add _) ?_ ?_
  · rw [zero_mul, Nat.zero_min]
    exact upto
  · intro _
    refine ⟨by omega, front, morsel, later, split, rfl, rfl, starts, within⟩

theorem mustWrite_eq_some (same : segment.start = updateVectorIndex * standardVectorSize)
    (stands : UpdateMorsel.At updates remaining updateVectorIndex) :
    ∃ writes, mustWrite segment remaining = some writes ∧ (writes = false → segment.segmentType = .persistent) := by
  rw [mustWrite]
  by_cases persistent : segment.segmentType = .persistent
  · rw [if_pos persistent]
    obtain ⟨front, morsel, later, split, rest, starts, -⟩ := stands.reached
    have first : segment.start / standardVectorSize = updateVectorIndex := by
      rw [same]
      exact Nat.mul_div_cancel _ (by decide)
    rw [first]
    have ends : updateVectorIndex + ((segment.start + segment.count) / standardVectorSize + 1 -
        updateVectorIndex) - 1 = (segment.start + segment.count) / standardVectorSize := by
      unfold standardVectorSize at *
      omega
    have last : (segment.start + segment.count) / standardVectorSize * standardVectorSize ≤ rows :=
      le_trans (Nat.div_mul_le_self _ _) inside
    obtain ⟨answer, has⟩ := UpdateMorsel.hasUpdates_eq_some partition
      ⟨front, morsel, later, split, rest, starts⟩ (.inr (by rw [ends]; exact last))
    exact ⟨answer, has, fun _ => persistent⟩
  · rw [if_neg persistent]
    exact ⟨true, rfl, fun wrong => nomatch wrong⟩

end

theorem checkpointLoop_complete {front segments : List ColumnSegment}
    (tiled : Tiled start count standardVectorSize (front ++ segments))
    (stops : stop count 0 (front ++ segments) = rows)
    (stored : ∀ segment ∈ segments, segment.segmentType = .persistent → segment.Stored kind)
    (upto : Upto kind state (stop count 0 front)) (stands : segments ≠ [] →
      stop count 0 front = updateVectorIndex * standardVectorSize ∧
        UpdateMorsel.At updates remaining updateVectorIndex) :
    ∃ final, checkpointLoop kind merged segments state remaining updateVectorIndex = some final ∧
      Complete kind (final.flushSegment kind) rows := by
  induction segments generalizing front state remaining updateVectorIndex with
  | nil =>
    rw [append_nil] at stops
    rw [stops] at upto
    exact ⟨state, rfl, upto.complete⟩
  | cons segment rest ih =>
    obtain ⟨same, at_⟩ := stands (cons_ne_nil _ _)
    have starts : segment.start = stop count 0 front := start_eq tiled.contiguous
    have inside : segment.start + segment.count ≤ rows := by
      rw [← stops]
      exact end_le_stop tiled.contiguous
    have aligned : standardVectorSize ∣ segment.start := tiled.unit_dvd_start
    rw [← starts] at same upto
    have regrouped : front ++ segment :: rest = (front ++ [segment]) ++ rest := append_cons ..
    have ends : stop count 0 (front ++ [segment]) = segment.start + segment.count := by
      rw [stop_append, ← starts]
      rfl
    have wholeUnlessLast : rest ≠ [] → standardVectorSize ∣ segment.count ∧ 0 < segment.count := by
      intro more
      obtain ⟨next, later, rfl⟩ := exists_cons_of_ne_nil more
      exact tiled.whole_of_later
    obtain ⟨writes, decided, kept⟩ := mustWrite_eq_some partition inside same at_
    rw [checkpointLoop, decided, Option.bind_some]
    rw [regrouped] at tiled stops
    have laterStored := fun other member => stored other (mem_cons_of_mem segment member)
    cases writes with
    | true =>
      obtain ⟨written, walked, reached, rewritten, writtenUpto, onward⟩ :=
        rewriteSegment_upto partition inside upto same at_
      rw [if_pos rfl, rewritten, Option.bind_some]
      rw [← ends] at writtenUpto onward
      exact ih tiled stops laterStored writtenUpto fun more => onward (wholeUnlessLast more).1
    | false =>
      have persistent := kept rfl
      obtain ⟨complete, keptUpto⟩ := upto.keepSegment aligned persistent (stored segment mem_cons_self persistent)
      have order : updateVectorIndex ≤ (segment.start + segment.count) / standardVectorSize := by
        unfold standardVectorSize at *
        omega
      obtain ⟨found, located, foundAt⟩ := UpdateMorsel.findSegment_at partition at_ order
        (le_trans (Nat.div_mul_le_self _ _) inside)
      rw [if_neg Bool.false_ne_true]
      dsimp only
      rw [located, Option.bind_some]
      by_cases last : rest = []
      · rw [last, append_nil, ends] at stops
        rw [last, ← stops]
        exact ⟨_, rfl, complete⟩
      have whole := wholeUnlessLast last
      have next := keptUpto whole
      rw [← ends] at next
      refine ih tiled stops laterStored next fun _ => ⟨?_, foundAt⟩
      rw [ends]
      obtain ⟨units, isWhole⟩ := Nat.dvd_add aligned whole.1
      rw [isWhole, Nat.mul_div_cancel_left units (by decide), mul_comm]

end

theorem Aligned.checkpoint {column : ColumnData} {persisted : Nat}
    (aligned : Aligned kind column rows persisted) (merged : Nat → Appended) :
    ∃ written, column.checkpoint kind merged = some written ∧ Aligned kind written rows rows := by
  rw [ColumnData.checkpoint]
  by_cases none : column.data = []
  · have zero := aligned.dataRows
    rw [none, stop] at zero
    subst zero
    rw [if_pos none]
    have loaded := aligned.loadedRows
    have atMost := aligned.persistedRows
    refine ⟨_, rfl, { aligned with
      stored := by rw [none]; simp
      disk := Tiled.nil
      diskRows := rfl
      diskStored := by simp
      persistedRows := le_refl 0
      loadedRows := by
        change column.persistentRows ≤ 0
        omega }⟩
  · rw [if_neg none]
    have partition : UpdateMorsel.Partition column.updates rows := by
      rcases aligned.updates with partition | ⟨-, noData⟩
      · exact partition
      · exact absurd noData none
    have begins : UpdateMorsel.At column.updates column.updates 0 := by
      obtain ⟨first, later, split⟩ := exists_cons_of_ne_nil partition.nonempty
      have starts : first.start = 0 := by
        have contiguous := partition.contiguous
        rw [split] at contiguous
        exact contiguous.1
      refine ⟨[], first, later, split, split, ?_, ?_⟩
      · rw [UpdateMorsel.baseVectorIndex, starts, Nat.zero_div]
      · rw [UpdateMorsel.baseVectorIndex, starts, Nat.zero_div]
        decide
    have tiled : Tiled start count standardVectorSize ([] ++ column.data) := aligned.data
    obtain ⟨final, looped, complete⟩ := checkpointLoop_complete partition tiled aligned.dataRows
      (fun segment member persistent => (aligned.stored segment member persistent).1)
      (create_upto) (fun _ => ⟨(zero_mul _).symm, begins⟩)
    rw [looped, Option.map_some]
    dsimp only
    generalize final.flushSegment kind = flushed at complete ⊢
    have sameExtents : (column.updates.map fun morsel => { morsel with updated := [] }).map
        UpdateMorsel.extent = column.updates.map UpdateMorsel.extent := by
      rw [map_map]
      rfl
    refine ⟨_, rfl,
      { data := complete.tiled
        dataRows := complete.stops
        updates := .inl (partition.of_extents sameExtents)
        stored := ?_
        fits := fun segment member => (complete.stored segment member).2.2
        disk := ?_
        diskRows := ?_
        diskStored := ?_
        persistedRows := le_refl _
        loadedRows := le_trans aligned.loadedRows aligned.persistedRows }⟩
    · intro segment member _
      refine ⟨(complete.stored segment member).2, ?_⟩
      rw [← complete.stops]
      exact end_le_stop_of_mem complete.contiguous member
    · dsimp only
      rw [complete.pointers]
      refine ⟨contiguous_map.mpr complete.contiguous, ?_⟩
      intro pointer member
      rw [← map_dropLast] at member
      obtain ⟨segment, segmentMember, rfl⟩ := mem_map.mp member
      exact complete.tiled.whole segment segmentMember
    · dsimp only
      rw [complete.pointers]
      exact stop_map.trans complete.stops
    · intro pointer member
      rw [complete.pointers] at member
      obtain ⟨segment, segmentMember, rfl⟩ := mem_map.mp member
      obtain ⟨-, same, fits⟩ := complete.stored segment segmentMember
      refine ⟨rfl, ?_⟩
      rw [same] at fits
      exact fits

end ColumnData

end GuinsooDB
