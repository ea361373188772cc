import GuinsooDB.Version.Table

/-!
What the loops over vectors and morsels do to the infos of a table: each vector that a range
of rows touches is changed on its part of the range.
-/

namespace GuinsooDB

open BlockRange Function Option

abbrev InfosApplied (change : Nat → Nat → Option ChunkInfo → Option (Option ChunkInfo))
    (start stop : Nat) (before after : Nat → Option ChunkInfo) : Prop :=
  Applied standardVectorSize (fun lower upper info changed => change lower upper info = some changed)
    start stop before after

abbrev Changeable (change : Nat → Nat → Option ChunkInfo → Option (Option ChunkInfo))
    (start stop : Nat) (infos : Nat → Option ChunkInfo) : Prop :=
  Each standardVectorSize (fun lower upper info => (change lower upper info).isSome) start stop infos

variable {change : Nat → Nat → Option ChunkInfo → Option (Option ChunkInfo)} {count : Nat}

theorem MorselInfo.forVectors_spec (morsel : MorselInfo) {morselStart : Nat} (nonempty : 0 < count)
    (changeable : Changeable change morselStart (morselStart + count) morsel.info) :
    ∃ changed, morsel.forVectors change morselStart count = some changed ∧ changed.start = morsel.start ∧
      InfosApplied change morselStart (morselStart + count) morsel.info changed.info := by
  obtain ⟨first, firstEq⟩ : ∃ first, first = morselStart / standardVectorSize := ⟨_, rfl⟩
  obtain ⟨last, lastEq⟩ : ∃ last, last = (morselStart + count - 1) / standardVectorSize := ⟨_, rfl⟩
  have touched : ∀ vector, Touches standardVectorSize morselStart (morselStart + count) vector ↔
      first ≤ vector ∧ vector < first + (last + 1 - first) := by
    unfold Touches standardVectorSize at *
    omega
  have lowerEq : ∀ vector, Touches standardVectorSize morselStart (morselStart + count) vector →
      (if vector = first then morselStart - first * standardVectorSize else 0) =
        lower standardVectorSize morselStart vector := by
    intro vector touches
    unfold lower Touches standardVectorSize at *
    split <;> omega
  have upperEq : ∀ vector, Touches standardVectorSize morselStart (morselStart + count) vector →
      (if vector = last then morselStart + count - last * standardVectorSize else standardVectorSize) =
        upper standardVectorSize (morselStart + count) vector := by
    intro vector touches
    unfold upper Touches standardVectorSize at *
    split <;> omega
  obtain ⟨infos, ran, spec⟩ := loop_eq_some (fun vector info =>
      change (if vector = first then morselStart - first * standardVectorSize else 0)
        (if vector = last then morselStart + count - last * standardVectorSize else standardVectorSize) info)
    first morsel.info (by
      intro vector low high
      have touches := (touched vector).mpr ⟨low, high⟩
      rw [lowerEq vector touches, upperEq vector touches]
      exact changeable vector touches)
  refine ⟨{ morsel with info := infos }, ?_, rfl, fun vector => ⟨?_, ?_⟩⟩
  · simp only [forVectors, ← firstEq, ← lastEq, ran, map_some]
  · intro touches
    have changed := (spec vector).1 ((touched vector).mp touches)
    rwa [lowerEq vector touches, upperEq vector touches] at changed
  · intro missed
    exact (spec vector).2 fun inside => missed ((touched vector).mpr inside)

theorem vectorBorder (segment : Nat) : segment * morselVectorCount * standardVectorSize = segment * morselSize := by
  rw [Nat.mul_assoc]
  rfl

namespace VersionedTable

theorem setMorsel_info (table : VersionedTable) (segment : Nat) (morsel : MorselInfo) (vector : Nat) :
    (table.setMorsel segment morsel).info vector =
      if vector / morselVectorCount = segment then morsel.info (vector % morselVectorCount)
      else table.info vector := by
  unfold info setMorsel
  by_cases same : vector / morselVectorCount = segment <;> simp [same]

variable {segment vector position count : Nat}

theorem touches_in_morsel (nonempty : 0 < count) (fits : position + count ≤ morselSize) :
    Touches standardVectorSize (segment * morselSize + position) (segment * morselSize + position + count) vector ↔
      vector / morselVectorCount = segment ∧ Touches standardVectorSize position
        (position + count) (vector % morselVectorCount) := by
  unfold Touches
  simp only [morselSize, standardVectorSize, morselVectorCount] at fits ⊢
  omega

theorem part_in_morsel (position : Nat) (inside : vector / morselVectorCount = segment) :
    lower standardVectorSize (segment * morselSize + position) vector =
        lower standardVectorSize position (vector % morselVectorCount) ∧
      upper standardVectorSize (segment * morselSize + position + count) vector =
        upper standardVectorSize (position + count) (vector % morselVectorCount) := by
  unfold lower upper
  simp only [morselSize, standardVectorSize, morselVectorCount] at inside ⊢
  omega

variable {morsel : MorselInfo}

theorem setMorsel_applied (table : VersionedTable) (nonempty : 0 < count) (fits : position + count ≤ morselSize)
    (applied : InfosApplied change position (position + count) (table.versions segment).info morsel.info) :
    InfosApplied change (segment * morselSize + position) (segment * morselSize + position + count)
      table.info (table.setMorsel segment morsel).info := by
  intro vector
  rw [touches_in_morsel nonempty fits, setMorsel_info]
  by_cases inside : vector / morselVectorCount = segment
  · have before : table.info vector = (table.versions segment).info (vector % morselVectorCount) := by
      rw [info, inside]
    obtain ⟨sameLower, sameUpper⟩ := part_in_morsel position inside
    rw [if_pos inside, before, sameLower, sameUpper]
    exact ⟨fun touches => (applied _).1 touches.2, fun missed => (applied _).2 fun touches => missed ⟨inside, touches⟩⟩
  · rw [if_neg inside]
    exact ⟨fun touches => absurd touches.1 inside, fun _ => rfl⟩

theorem vector_place (segment : Nat) (small : vector < morselVectorCount) :
    (segment * morselVectorCount + vector) / morselVectorCount = segment ∧
      (segment * morselVectorCount + vector) % morselVectorCount = vector := by
  simp only [morselVectorCount] at small ⊢
  omega

variable {table : VersionedTable}

theorem changeable_in_morsel (nonempty : 0 < count) (fits : position + count ≤ morselSize)
    (changeable : Changeable change (segment * morselSize + position)
      (segment * morselSize + position + count) table.info) :
    Changeable change position (position + count) (table.versions segment).info := by
  intro vector touches
  have small : vector < morselVectorCount := by
    unfold Touches at touches
    simp only [morselSize, standardVectorSize, morselVectorCount] at fits touches ⊢
    omega
  have whole := vector_place segment small
  have global := changeable (segment * morselVectorCount + vector)
    ((touches_in_morsel nonempty fits).mpr ⟨whole.1, whole.2.symm ▸ touches⟩)
  obtain ⟨sameLower, sameUpper⟩ := part_in_morsel position whole.1
  rw [sameLower, sameUpper, info, whole.1, whole.2] at global
  exact global

structure Segmented (table : VersionedTable) : Prop where
  starts : ∀ segment, (table.versions segment).start = segment * morselSize
  beyond : ∀ segment, table.segmentCount ≤ segment →
    table.versions segment = .empty (segment * morselSize)
  positive : 0 < table.segmentCount

section

variable {table : VersionedTable} (segmented : table.Segmented)
include segmented

theorem Segmented.setMorsel (inside : segment < table.segmentCount)
    (start : morsel.start = segment * morselSize) : (table.setMorsel segment morsel).Segmented where
  starts := by
    intro other
    by_cases same : other = segment
    · subst other
      simpa [VersionedTable.setMorsel] using start
    · simpa [VersionedTable.setMorsel, update_of_ne same] using segmented.starts other
  beyond := by
    intro other outside
    have different : other ≠ segment := by
      rintro rfl
      exact absurd inside (not_lt.mpr outside)
    simpa [VersionedTable.setMorsel, update_of_ne different] using segmented.beyond other outside
  positive := segmented.positive

theorem Segmented.extend (last : segment + 1 = table.segmentCount) :
    { table.setMorsel (segment + 1) (.empty ((segment + 1) * morselSize)) with
        segmentCount := table.segmentCount + 1 } =
      { table with segmentCount := table.segmentCount + 1 } := by
  have empty := segmented.beyond (segment + 1) (le_of_eq last.symm)
  unfold VersionedTable.setMorsel
  rw [← empty, update_eq_self]

theorem Segmented.grow : Segmented { table with segmentCount := table.segmentCount + 1 } where
  starts := segmented.starts
  beyond := fun segment outside => segmented.beyond segment (Nat.le_of_succ_le outside)
  positive := Nat.succ_pos _

end

def EndsAt (table : VersionedTable) (row : Nat) : Prop :=
  (table.segmentCount - 1) * morselSize ≤ row ∧ row ≤ table.segmentCount * morselSize

variable {row remaining : Nat}

theorem Segmented.forMorsel (segmented : table.Segmented)
    (existing : segment < table.segmentCount) (place : row = segment * morselSize + position)
    (positive : 0 < count) (fits : position + count ≤ morselSize) (within : count ≤ remaining)
    (fills : count < remaining → position + count = morselSize)
    (changeable : Changeable change row (row + remaining) table.info) :
    ∃ morsel, (table.versions segment).forVectors change position count = some morsel ∧
      (table.setMorsel segment morsel).Segmented ∧
      InfosApplied change row (row + count) table.info (table.setMorsel segment morsel).info ∧
      (count < remaining → Changeable change (row + count) (row + remaining) (table.setMorsel segment morsel).info ∧
        ∀ after, InfosApplied change (row + count) (row + remaining) (table.setMorsel segment morsel).info after →
          InfosApplied change row (row + remaining) table.info after) := by
  have atBorder : count < remaining → row + count = (segment + 1) * morselVectorCount * standardVectorSize := by
    rw [vectorBorder, Nat.succ_mul]
    omega
  have firstChangeable : Changeable change row (row + count) table.info := by
    rcases lt_or_eq_of_le within with more | same
    · rw [atBorder more]
      exact changeable.left (by decide) (by have := atBorder more; omega)
    · rw [same]
      exact changeable
  rw [place] at firstChangeable
  obtain ⟨morsel, written, start, applied⟩ := (table.versions segment).forVectors_spec
    positive (changeable_in_morsel positive fits firstChangeable)
  have firstApplied := table.setMorsel_applied positive fits applied
  rw [← place] at firstApplied
  refine ⟨morsel, written, segmented.setMorsel existing (start.trans (segmented.starts segment)), firstApplied, ?_⟩
  intro more
  have ordered := atBorder more
  rw [ordered] at firstApplied ⊢
  refine ⟨changeable.right_of_applied _ (by decide) (by omega) firstApplied, ?_⟩
  intro after restApplied
  exact firstApplied.append (by decide) restApplied (by omega) (by omega)

variable {fuel : Nat}

theorem appendLoop_spec (id : Nat) (segmented : table.Segmented) (bounded : position ≤ morselSize)
    (place : row = (table.segmentCount - 1) * morselSize + position) (nonempty : 0 < remaining)
    (enough : remaining + (if position < morselSize then 0 else 1) < fuel)
    (changeable : Changeable (ChunkInfo.append id) row (row + remaining) table.info) :
    ∃ appended, appendLoop id fuel table position remaining = some appended ∧
      appended.Segmented ∧ appended.totalRows = table.totalRows ∧
      appended.EndsAt (row + remaining) ∧
      InfosApplied (ChunkInfo.append id) row (row + remaining) table.info appended.info := by
  induction fuel generalizing table position remaining row with
  | zero => omega
  | succ fuel ih =>
    obtain ⟨segment, last⟩ : ∃ segment, segment + 1 = table.segmentCount :=
      ⟨table.segmentCount - 1, Nat.sub_add_cancel segmented.positive⟩
    have index : table.segmentCount - 1 = segment := by omega
    have nextIndex : table.segmentCount + 1 - 1 = segment + 1 := by omega
    have border : (segment + 1) * morselSize = segment * morselSize + morselSize := Nat.succ_mul segment morselSize
    rw [index] at place
    simp only [appendLoop, index]
    by_cases full : morselSize - position = 0
    · -- The last morsel is full, so nothing is written before the next one is created.
      rw [full, Nat.min_zero, if_neg (lt_irrefl 0), bind_some, Nat.sub_zero, if_pos nonempty, segmented.extend last]
      rw [if_neg (by omega)] at enough
      refine ih segmented.grow (Nat.zero_le _) ?_ nonempty ?_ changeable
      · change row = (table.segmentCount + 1 - 1) * morselSize + 0
        rw [nextIndex]
        omega
      · rw [if_pos morselSize_pos]
        omega
    · rw [if_pos (by omega)] at enough
      obtain ⟨toWrite, toWriteEq⟩ : ∃ toWrite, toWrite = min remaining (morselSize - position) := ⟨_, rfl⟩
      rw [← toWriteEq]
      have positive : 0 < toWrite := by omega
      obtain ⟨morsel, written, writtenSegmented, firstApplied, rest⟩ := segmented.forMorsel
        (by omega) place positive (by omega) (by omega) (by omega) changeable
      rw [if_pos positive, MorselInfo.append, written]
      simp only [map_some, bind_some]
      by_cases more : toWrite < remaining
      · obtain ⟨restChangeable, combine⟩ := rest more
        have total : row + remaining = row + toWrite + (remaining - toWrite) := by omega
        rw [if_pos (by omega), writtenSegmented.extend last]
        rw [total] at restChangeable combine ⊢
        obtain ⟨appended, ran, done, kept, ends, restApplied⟩ := ih writtenSegmented.grow (Nat.zero_le _) (by
            change row + toWrite = (table.segmentCount + 1 - 1) * morselSize + 0
            rw [nextIndex]
            omega) (by omega) (by rw [if_pos morselSize_pos]; omega) restChangeable
        exact ⟨appended, ran, done, kept, ends, combine _ restApplied⟩
      · have same : toWrite = remaining := by omega
        subst same
        rw [if_neg (by omega)]
        refine ⟨_, rfl, writtenSegmented, rfl, ?_, firstApplied⟩
        unfold EndsAt VersionedTable.setMorsel
        simp only [← last, Nat.add_sub_cancel]
        omega

variable {commitId : Nat}

theorem commitLoop_spec (segmented : table.Segmented) (inside : row + remaining ≤ table.segmentCount * morselSize)
    (nonempty : 0 < remaining) (enough : remaining < fuel)
    (changeable : Changeable (ChunkInfo.commitAppend commitId) row (row + remaining) table.info) :
    ∃ committed, commitLoop commitId fuel table row remaining = some committed ∧
      committed.Segmented ∧ committed.totalRows = table.totalRows ∧
      committed.segmentCount = table.segmentCount ∧
      InfosApplied (ChunkInfo.commitAppend commitId) row (row + remaining) table.info committed.info := by
  induction fuel generalizing table row remaining with
  | zero => omega
  | succ fuel ih =>
    obtain ⟨segment, segmentEq⟩ : ∃ segment, segment = row / morselSize := ⟨_, rfl⟩
    obtain ⟨position, positionEq⟩ : ∃ position, position = row - segment * morselSize := ⟨_, rfl⟩
    obtain ⟨appendCount, countEq⟩ : ∃ appendCount, appendCount = min (morselSize - position) remaining := ⟨_, rfl⟩
    have below : segment * morselSize ≤ row := segmentEq ▸ Nat.div_mul_le_self row morselSize
    have above : row < segment * morselSize + morselSize := by
      rw [segmentEq]
      exact Nat.lt_div_mul_add morselSize_pos
    have existing : segment < table.segmentCount := Nat.lt_of_mul_lt_mul_right (lt_of_le_of_lt below (by omega))
    have positive : 0 < appendCount := by omega
    simp only [commitLoop, ← segmentEq, ← positionEq, ← countEq]
    obtain ⟨morsel, written, writtenSegmented, firstApplied, rest⟩ := segmented.forMorsel
      existing (by omega : row = segment * morselSize + position) positive (by omega) (by omega)
      (by omega) changeable
    rw [MorselInfo.commitAppend, written]
    simp only [map_some, bind_some]
    by_cases more : appendCount < remaining
    · obtain ⟨restChangeable, combine⟩ := rest more
      have total : row + remaining = row + appendCount + (remaining - appendCount) := by omega
      rw [if_neg (by omega)]
      rw [total] at restChangeable combine inside ⊢
      obtain ⟨committed, ran, done, kept, segments, restApplied⟩ := ih writtenSegmented inside
        (by omega) (by omega) restChangeable
      exact ⟨committed, ran, done, kept, segments, combine _ restApplied⟩
    · have same : appendCount = remaining := by omega
      subst same
      rw [if_pos (Nat.sub_self _)]
      exact ⟨_, rfl, writtenSegmented, rfl, rfl, firstApplied⟩

structure Layout (table : VersionedTable) : Prop extends Segmented table where
  ends : table.EndsAt table.totalRows

variable {table : VersionedTable}

theorem Layout.initializeAppend (layout : table.Layout) {id : Nat} (nonempty : 0 < count)
    (changeable : Changeable (ChunkInfo.append id) table.totalRows (table.totalRows + count) table.info) :
    ∃ appended, table.initializeAppend id count = some appended ∧ appended.Layout ∧
      appended.totalRows = table.totalRows + count ∧
      InfosApplied (ChunkInfo.append id) table.totalRows (table.totalRows + count) table.info appended.info := by
  have border : table.segmentCount * morselSize = (table.segmentCount - 1) * morselSize + morselSize := by
    rw [← Nat.succ_mul, Nat.succ_eq_add_one, Nat.sub_add_cancel layout.positive]
  have ends := layout.ends
  unfold EndsAt at ends
  have place : table.totalRows = (table.segmentCount - 1) * morselSize +
      (table.totalRows - (table.segmentCount - 1) * morselSize) := by omega
  have enough : count + (if table.totalRows - (table.segmentCount - 1) * morselSize < morselSize
      then 0 else 1) < count + 2 := by
    split <;> omega
  obtain ⟨appended, ran, segmented, _, endsAt, applied⟩ := appendLoop_spec id
    layout.toSegmented (by omega) place nonempty enough changeable
  refine ⟨{ appended with totalRows := table.totalRows + count }, ?_, ?_, rfl, applied⟩
  · rw [VersionedTable.initializeAppend, ran]
    rfl
  · exact { starts := segmented.starts, beyond := segmented.beyond, positive := segmented.positive
            ends := endsAt }

variable {start : Nat}

theorem Layout.commitAppend (layout : table.Layout) (nonempty : 0 < count) (inside : start + count ≤ table.totalRows)
    (changeable : Changeable (ChunkInfo.commitAppend commitId) start (start + count) table.info) :
    ∃ committed, table.commitAppend commitId start count = some committed ∧ committed.Layout ∧
      committed.totalRows = table.totalRows ∧
      InfosApplied (ChunkInfo.commitAppend commitId) start (start + count) table.info committed.info := by
  obtain ⟨committed, ran, segmented, total, segments, applied⟩ := commitLoop_spec
    layout.toSegmented (le_trans inside layout.ends.2) nonempty (Nat.lt_succ_self count)
    changeable
  refine ⟨committed, ran, { segmented with ends := ?_ }, total, applied⟩
  unfold EndsAt
  rw [total, segments]
  exact layout.ends

theorem revertAppend_of_ne (behind : table.totalRows ≠ start + count) : table.revertAppend start count = table := by
  unfold revertAppend
  split <;> rfl

theorem Layout.revertAppend (layout : table.Layout) (nonempty : 0 < count) (last : table.totalRows = start + count) :
    (table.revertAppend start count).Layout ∧ (table.revertAppend start count).totalRows = start ∧
      ∀ vector, (table.revertAppend start count).info vector =
        if start ≤ vector * standardVectorSize then none else table.info vector := by
  have rows := Nat.ne_of_gt nonempty
  simp only [VersionedTable.revertAppend, rows, last, ne_eq, not_true_eq_false, if_false]
  refine ⟨?_, trivial, ?_⟩
  · refine { starts := ?_, beyond := ?_, positive := Nat.succ_pos _, ends := ?_ }
    · intro segment
      dsimp only
      split
      · subst segment
        exact layout.starts _
      · split
        · rfl
        · exact layout.starts segment
    · intro segment outside
      dsimp only at outside ⊢
      rw [if_neg (by omega), if_pos (by omega)]
    · unfold EndsAt
      rw [Nat.add_sub_cancel, Nat.succ_mul]
      exact ⟨Nat.div_mul_le_self _ _, le_of_lt (Nat.lt_div_mul_add morselSize_pos)⟩
  · intro vector
    have startsAt := layout.starts (start / morselSize)
    unfold info
    dsimp only
    split
    next here =>
      rw [MorselInfo.revertAppend, startsAt, ← here]
      have cut : ((start - vector / morselVectorCount * morselSize + (standardVectorSize - 1)) /
          standardVectorSize ≤ vector % morselVectorCount ∧ vector % morselVectorCount < morselVectorCount) ↔
          start ≤ vector * standardVectorSize := by
        have below := Nat.div_mul_le_self start morselSize
        simp only [morselSize, standardVectorSize, morselVectorCount] at below ⊢
        omega
      simp only [cut]
    next elsewhere =>
      split
      next later =>
        rw [if_pos]
        · rfl
        · simp only [morselSize, standardVectorSize, morselVectorCount] at later ⊢
          omega
      next earlier =>
        rw [if_neg]
        simp only [morselSize, standardVectorSize, morselVectorCount] at earlier elsewhere ⊢
        omega

theorem setMorsel_update (table : VersionedTable) (vector : Nat) (chunk : Option ChunkInfo) :
    (table.setMorsel (vector / morselVectorCount)
      { table.versions (vector / morselVectorCount) with
        info := update (table.versions (vector / morselVectorCount)).info
          (vector % morselVectorCount) chunk }).info = update table.info vector chunk := by
  funext other
  rw [setMorsel_info]
  by_cases same : other = vector
  · subst other
    simp
  rw [update_of_ne same]
  split
  next here =>
    have different : other % morselVectorCount ≠ vector % morselVectorCount := by
      intro sameRest
      apply same
      rw [← Nat.div_add_mod other morselVectorCount, here, sameRest, Nat.div_add_mod]
    rw [info, here]
    exact update_of_ne different _ _
  · rfl

theorem Layout.commitDelete (layout : table.Layout) {chunk : ChunkVectorInfo}
    (found : table.info vector = some (.vector chunk)) (id : Nat) (rows : List Nat) :
    ∃ changed, VersionEntry.commit id table (.delete vector rows) = some changed ∧
      changed.Layout ∧ changed.totalRows = table.totalRows ∧
      changed.info = update table.info vector (some (.vector (chunk.commitDelete id rows))) := by
  have existing : vector / morselVectorCount < table.segmentCount := by
    by_contra outside
    rw [info, layout.beyond _ (Nat.le_of_not_lt outside)] at found
    simp [MorselInfo.empty] at found
  have stored : (table.versions (vector / morselVectorCount)).info (vector % morselVectorCount) =
    some (.vector chunk) := found
  rw [VersionEntry.commit]
  simp only [stored, ChunkInfo.commitDelete, map_some]
  refine ⟨_, rfl, ?_, rfl, table.setMorsel_update vector _⟩
  exact { toSegmented := layout.toSegmented.setMorsel existing (layout.starts _)
          ends := layout.ends }

end VersionedTable

end GuinsooDB
