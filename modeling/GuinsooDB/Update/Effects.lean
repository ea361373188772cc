import GuinsooDB.Update.Database

/-! What the operations of an update segment and of an undo buffer do to each vector. -/

namespace GuinsooDB

open SortedEntries List Function

variable {D ι : Type} {kind : ι → SegmentKind}

/-! The entries of an update -/

def rowEntries (kind : SegmentKind) (values : FlatVector D) (rows : List Nat) (position : Nat) :
    List (Nat × Stored D kind) :=
  (rows.zipIdx position).filterMap fun entry =>
    (assigned kind values entry.2).map fun value => (entry.1, value)

theorem rowEntries_cons (kind : SegmentKind) (values : FlatVector D) (row : Nat) (rest : List Nat)
    (position : Nat) : rowEntries kind values (row :: rest) position =
      ((assigned kind values position).map fun value => (row, value)).toList ++
        rowEntries kind values rest (position + 1) := by
  rw [rowEntries, zipIdx_cons, filterMap_cons]
  cases assigned kind values position <;> rfl

variable {values : FlatVector D} {rows : List Nat}

theorem keys_rowEntries_sublist {kind : SegmentKind}
    (position : Nat) : (keys (rowEntries kind values rows position)).Sublist rows := by
  induction rows generalizing position with
  | nil => exact List.Sublist.slnil
  | cons row rest ih =>
    rw [rowEntries_cons]
    cases assigned kind values position with
    | none => exact (ih (position + 1)).cons row
    | some value => exact (ih (position + 1)).cons_cons row

variable {values : FlatVector D}

theorem lookup_rowEntries {kind : SegmentKind} (sorted : rows.Pairwise (· < ·)) (position row : Nat) :
    (rowEntries kind values rows position).lookup row =
      (rows.idxOf? row).bind fun index => assigned kind values (position + index) := by
  induction rows generalizing position with
  | nil => rfl
  | cons first rest ih =>
    obtain ⟨smallest, restSorted⟩ := pairwise_cons.mp sorted
    rw [rowEntries_cons, lookup_append, ih restSorted, idxOf?_cons]
    by_cases same : first = row
    · subst first
      have absent : rest.idxOf? row = none := by
        rw [idxOf?_eq_none_iff]
        exact fun inside => lt_irrefl row (smallest row inside)
      rw [absent]
      cases assigns : assigned kind values position <;> simp [assigns]
    · have differs : (row == first) = false := by simpa using Ne.symm same
      have shifted : ∀ index, position + 1 + index = position + (index + 1) := by omega
      cases assigned kind values position <;>
        cases rest.idxOf? row <;> simp [same, lookup_cons, differs, shifted]

theorem extract_of_assigned {kind : SegmentKind} {position : Nat}
    {value : Stored D kind} (assigns : assigned kind values position = some value) :
    value = extract kind values position := by
  cases kind with
  | validity => exact (Option.some.inj assigns).symm
  | data =>
    rw [assigned] at assigns
    split at assigns
    · exact (Option.some.inj assigns).symm
    · simp at assigns

theorem statisticsUpdate_entries {kind : SegmentKind} {offset : Nat} :
    (UpdateSegment.statisticsUpdate kind values (rows.map fun row => offset + row)).map
        (fun entry => (entry.1 - offset, extract kind values entry.2)) =
      rowEntries kind values rows 0 := by
  have selected : ∀ position, rowEntries kind values rows position =
      (((rows.map fun row => offset + row).zipIdx position).filter fun entry =>
        (assigned kind values entry.2).isSome).map
          fun entry : Nat × Nat => (entry.1 - offset, extract kind values entry.2) := by
    induction rows with
    | nil => exact fun _ => rfl
    | cons row rest ih =>
      intro position
      rw [rowEntries_cons, ih (position + 1), map_cons, zipIdx_cons]
      cases assigns : assigned kind values position with
      | none => rw [filter_cons_of_neg (by simp [assigns])]; rfl
      | some value =>
        have same : value = extract kind values position := extract_of_assigned assigns
        rw [filter_cons_of_pos (by simp [assigns]), same]
        simp
  rw [selected 0]
  cases kind with
  | validity =>
    have condition : ∀ position, (assigned .validity values position).isSome = true := fun _ => rfl
    simp only [UpdateSegment.statisticsUpdate, condition, filter_true]
  | data =>
    have condition : ∀ position, (assigned .data values position).isSome = values.rowIsValid position := by
      intro position
      rw [assigned]
      cases values.rowIsValid position <;> rfl
    simp only [UpdateSegment.statisticsUpdate, condition]

variable {V : Type} {info : UpdateInfo V} {versionNumber : Nat}

theorem modifyNode_owner {chain : List (UpdateInfo V)} {change : UpdateInfo V → UpdateInfo V}
    (inside : info ∈ modifyNode versionNumber change chain)
    (keeps : ∀ old, (change old).transaction = old.transaction) :
    ∃ old ∈ chain, old.transaction = info.transaction := by
  induction chain with
  | nil => simp [modifyNode] at inside
  | cons first rest ih =>
    rw [modifyNode] at inside
    split at inside
    · rcases mem_cons.mp inside with same | later
      · exact ⟨first, mem_cons_self, by rw [same, keeps]⟩
      · exact ⟨info, mem_cons_of_mem _ later, rfl⟩
    · rcases mem_cons.mp inside with same | later
      · exact ⟨first, mem_cons_self, by rw [same]⟩
      · obtain ⟨old, oldMember, same⟩ := ih later
        exact ⟨old, mem_cons_of_mem _ oldMember, same⟩

variable {node : UpdateNodeData V} {transaction : Transaction}

theorem extendNode_owner {baseTable : Nat → V} {entries : List (Nat × V)}
    (inside : info ∈ (extendNode transaction baseTable entries node).next) :
    (∃ old ∈ node.next, old.transaction = info.transaction) ∨ (info.transaction = transaction.transactionId ∧
        (node.next.any fun old => old.versionNumber = transaction.transactionId) = false) := by
  obtain ⟨old, oldMember, same⟩ := modifyNode_owner inside fun _ => rfl
  split at oldMember
  · exact .inl ⟨old, oldMember, same⟩
  rename_i absent
  rcases mem_cons.mp oldMember with fresh | earlier
  · rw [fresh] at same
    exact .inr ⟨same.symm, by simpa using absent⟩
  · exact .inl ⟨old, earlier, same⟩

namespace VectorRows

theorem ids_vectorIndex (target : VectorRows) {start : Nat} :
    ((target.ids start).headD 0 - start) / standardVectorSize = target.vectorIndex := by
  obtain ⟨vectorIndex, rows, inMorsel, sorted, bounded, nonempty⟩ := target
  cases rows with
  | nil => exact absurd rfl nonempty
  | cons first rest =>
    have small := bounded first mem_cons_self
    have positive : 0 < standardVectorSize := by decide
    have distance : start + vectorIndex * standardVectorSize + first - start =
        first + standardVectorSize * vectorIndex := by
      rw [Nat.mul_comm]
      omega
    simp only [ids, map_cons, headD_cons, distance]
    rw [Nat.add_mul_div_left _ _ positive, Nat.div_eq_of_lt small, Nat.zero_add]

def entries (target : VectorRows) (kind : SegmentKind) (values : FlatVector D) :
    List (Nat × Stored D kind) :=
  rowEntries kind values target.rows 0

section

variable (target : VectorRows) (kind : SegmentKind) (values : FlatVector D)

theorem statisticsUpdate_ids (start : Nat) : (UpdateSegment.statisticsUpdate kind values (target.ids start)).map
        (fun entry => (entry.1 - (start + target.vectorIndex * standardVectorSize),
          extract kind values entry.2)) = target.entries kind values :=
  statisticsUpdate_entries

theorem entries_ascending : Ascending (target.entries kind values) :=
  ascending_iff.mpr (target.sorted.sublist (keys_rowEntries_sublist 0))

theorem entries_bounded : ∀ entry ∈ target.entries kind values, entry.1 < standardVectorSize := by
  intro entry member
  exact target.bounded entry.1 ((keys_rowEntries_sublist 0).subset (mem_map_of_mem member))

end

theorem lookup_entries [DecidableEq ι] (target : VectorRows) {index : ι}
    (row : Nat) : (target.entries (kind index) values).lookup row =
      writeSet kind index target values (index, target.vectorIndex, row) := by
  rw [entries, lookup_rowEntries target.sorted, writeSet, if_pos ⟨rfl, rfl⟩]
  simp

end VectorRows

namespace UpdateSegment

variable {segmentKind : SegmentKind} {segment : UpdateSegment D segmentKind}

theorem setInfo_info (vectorIndex other : Nat) (node : UpdateNodeData (Stored D segmentKind)) :
    (segment.setInfo vectorIndex node).info other = if other = vectorIndex then some node else segment.info other := by
  by_cases same : other = vectorIndex
  · subst other
    simp [setInfo, info]
  · simp only [setInfo, info, Option.bind_some, update_of_ne same, if_neg same]
    cases segment.root <;> rfl

theorem modifyInfo_info (vectorIndex other : Nat)
    (change : UpdateNodeData (Stored D segmentKind) → UpdateNodeData (Stored D segmentKind)) :
    (segment.modifyInfo vectorIndex change).info other =
      if other = vectorIndex then (segment.info other).map change else segment.info other := by
  rw [modifyInfo]
  by_cases same : other = vectorIndex
  · subst other
    cases found : segment.info vectorIndex with
    | none => simp [found]
    | some node => simp [setInfo_info]
  · cases found : segment.info vectorIndex with
    | none => simp [same]
    | some node => simp [setInfo_info, same]

theorem fetchUpdates_eq (segment : UpdateSegment D segmentKind) (transaction : Transaction)
    (vectorIndex : Nat) (result : Nat → Stored D segmentKind) :
    segment.fetchUpdates transaction vectorIndex result = match segment.info vectorIndex with
      | none => result
      | some node => updatesForTransaction (node.info :: node.next) transaction.startTime
          transaction.transactionId (mergeFunction segmentKind) result := rfl

inductive Updated (segment : UpdateSegment D segmentKind) (transaction : Transaction)
    (values : FlatVector D) (target : VectorRows) (baseData : FlatVector D) :
    UpdateSegment D segmentKind × List Nat → Prop
  | skipped : segment.skipsUpdate target.vectorIndex values baseData = true →
      Updated segment transaction values target baseData (segment, [])
  | empty : segment.skipsUpdate target.vectorIndex values baseData = false →
      target.entries segmentKind values = [] →
      Updated segment transaction values target baseData (segment, [])
  | created : segment.skipsUpdate target.vectorIndex values baseData = false →
      segment.info target.vectorIndex = none →
      Updated segment transaction values target baseData
        (segment.setInfo target.vectorIndex
          (createNode transaction (extract segmentKind baseData) (target.entries segmentKind values)),
          [target.vectorIndex])
  | extended {node : UpdateNodeData (Stored D segmentKind)} :
      segment.skipsUpdate target.vectorIndex values baseData = false →
      segment.info target.vectorIndex = some node →
      checkForConflicts node.next transaction (keys (target.entries segmentKind values)) = false →
      Updated segment transaction values target baseData
        (segment.setInfo target.vectorIndex
          (extendNode transaction (extract segmentKind baseData)
            (target.entries segmentKind values) node),
          if node.next.any fun info => info.versionNumber = transaction.transactionId then []
          else [target.vectorIndex])

variable {values : FlatVector D} {baseData : FlatVector D} {target : VectorRows}

theorem update_spec {result : UpdateSegment D segmentKind × List Nat}
    (updated : segment.update transaction values (target.ids segment.start) baseData = .ok result) :
    Updated segment transaction values target baseData result := by
  have selected := target.statisticsUpdate_ids segmentKind values segment.start
  simp only [update, target.ids_vectorIndex, selected] at updated
  split at updated
  next skips =>
    cases updated
    exact .skipped skips
  rename_i skips
  rw [Bool.not_eq_true] at skips
  split at updated
  next empty =>
    cases updated
    refine .empty skips ?_
    rw [← selected, isEmpty_iff.mp empty, map_nil]
  split at updated
  next node found =>
    split at updated
    · simp at updated
    next clean =>
      cases updated
      exact .extended skips found (by simpa using clean)
  next absent =>
    cases updated
    exact .created skips absent

theorem update_error_iff (baseData : FlatVector D) {message : String} :
    segment.update transaction values (target.ids segment.start) baseData = .error message ↔
      message = "Conflict on update!" ∧ ∃ node, segment.info target.vectorIndex = some node ∧
        checkForConflicts node.next transaction (keys (target.entries segmentKind values)) =
          true := by
  have selected := target.statisticsUpdate_ids segmentKind values segment.start
  simp only [update, target.ids_vectorIndex, selected]
  cases found : segment.info target.vectorIndex with
  | none =>
    split
    · simp
    · split <;> simp
  | some node =>
    have notSkipped : segment.skipsUpdate target.vectorIndex values baseData = false := by
      simp [skipsUpdate, found]
    rw [notSkipped, if_neg (by simp)]
    dsimp only
    split
    next empty =>
      have nothing : target.entries segmentKind values = [] := by
        rw [← selected, isEmpty_iff.mp empty, map_nil]
      have noIds : checkForConflicts node.next transaction (keys (target.entries segmentKind values)) =
          false := by
        rw [nothing]
        simp [checkForConflicts, SortedEntries.keys, conflictLoop]
      simp [noIds]
    · split
      next conflict =>
        rw [Except.error.injEq]
        constructor
        · intro same
          exact ⟨same.symm, node, rfl, conflict⟩
        · rintro ⟨same, _⟩
          exact same.symm
      next clean =>
        simp [clean]

theorem skipsUpdate_spec {vectorIndex : Nat} (skips : segment.skipsUpdate vectorIndex values baseData = true) :
    segment.info vectorIndex = none ∧
      ∀ position row, extract segmentKind values position = extract segmentKind baseData row := by
  simp only [skipsUpdate, Bool.and_eq_true, decide_eq_true_eq, Option.isNone_iff_eq_none] at skips
  obtain ⟨isValidity, blank, valuesValid, baseValid⟩ := skips
  refine ⟨blank, ?_⟩
  intro position row
  subst isValidity
  exact (FlatVector.rowIsValid_of_allValid valuesValid).trans (FlatVector.rowIsValid_of_allValid baseValid).symm

end UpdateSegment

namespace Database

variable [DecidableEq ι] {base : ι → Nat → FlatVector D} {database updated : Database D kind}
  {transaction : Transaction} {index : ι} {target : VectorRows} {values : FlatVector D}

theorem update_error_iff {message : String} :
    database.update base transaction index target values = .error message ↔ message = "Conflict on update!" ∧
        ∃ node, (database.segments index).info target.vectorIndex = some node ∧
          checkForConflicts node.next transaction (keys (target.entries (kind index) values)) =
            true := by
  rw [← UpdateSegment.update_error_iff (base index target.vectorIndex), update]
  split
  next failed =>
    rw [failed]
    simp
  next succeeded =>
    rw [succeeded]
    simp

variable (ok : database.update base transaction index target values = .ok updated)

include ok in
theorem update_manager :
    updated.manager = database.manager := by
  rw [update] at ok
  split at ok
  · simp at ok
  · simp only [Except.ok.injEq] at ok
    rw [← ok]

include ok in
theorem update_skipped
    (skips : (database.segments index).skipsUpdate target.vectorIndex values
      (base index target.vectorIndex) = true) : updated = database := by
  rw [update] at ok
  split at ok
  · simp at ok
  rename_i segmentOk
  simp only [Except.ok.injEq] at ok
  subst updated
  cases UpdateSegment.update_spec segmentOk with
  | skipped _ => simp
  | empty taken => simp [skips] at taken
  | created taken => simp [skips] at taken
  | extended taken => simp [skips] at taken

end Database

structure OwnChange (transactionId : Nat)
    (change : {V : Type} → UpdateNodeData V → UpdateNodeData V) : Prop where
  idempotent : ∀ {V : Type} (node : UpdateNodeData V), change (change node) = change node
  neutral : ∀ {V : Type} (node : UpdateNodeData V),
    (∀ info ∈ node.next, info.transaction ≠ transactionId) → change node = node

variable {id : Nat}

theorem commitNode_ownChange : OwnChange id (commitNode id versionNumber) := by
  constructor
  · intro V node
    simp only [commitNode, map_map]
    congr 1
    apply map_congr_left
    intro info _
    split <;> simp_all
  · intro V node absent
    rw [commitNode]
    have same : (node.next.map fun info => if info.transaction = id then
        { info with versionNumber } else info) = node.next := by
      conv_rhs => rw [← map_id node.next]
      exact map_congr_left fun info inside => if_neg (absent info inside)
    rw [same]

theorem cleanupNode_ownChange : OwnChange id (cleanupNode id) := by
  constructor
  · intro V node
    simp [cleanupNode, filter_filter]
  · intro V node absent
    rw [cleanupNode, filter_eq_self.mpr fun info inside => by simp [absent info inside]]

theorem rollbackNode_of_absent (absent : ∀ info ∈ node.next, info.transaction ≠ id) : rollbackNode id node = node := by
  have none : (node.next.find? fun info => info.transaction = id) = none :=
    find?_eq_none.mpr fun info inside => by simp [absent info inside]
  rw [rollbackNode, none]

theorem rollbackNode_ownChange : OwnChange id (rollbackNode id) := by
  constructor
  · intro V node
    apply rollbackNode_of_absent
    rw [rollbackNode]
    cases found : node.next.find? fun info => info.transaction = id with
    | none =>
      intro info inside
      simpa using find?_eq_none.mp found info inside
    | some own => simp
  · exact fun node absent => rollbackNode_of_absent absent

namespace Database

variable [DecidableEq ι] {transactionId : Nat}
  {segments : (index : ι) → UpdateSegment D (kind index)} {entries : List (ι × Nat)}
  {change : {V : Type} → UpdateNodeData V → UpdateNodeData V}

def Lists (segments : (index : ι) → UpdateSegment D (kind index)) (transactionId : Nat)
    (entries : List (ι × Nat)) : Prop :=
  ∀ index vectorIndex node, (segments index).info vectorIndex = some node →
    ∀ info ∈ node.next, info.transaction = transactionId → (index, vectorIndex) ∈ entries

theorem forEachEntry_info (own : OwnChange transactionId change)
    (segments : (index : ι) → UpdateSegment D (kind index)) (entries : List (ι × Nat))
    (index : ι) (vectorIndex : Nat) :
    (forEachEntry (fun segment target => segment.modifyInfo target change) segments entries index).info vectorIndex =
      if (index, vectorIndex) ∈ entries then ((segments index).info vectorIndex).map change
      else (segments index).info vectorIndex := by
  induction entries generalizing segments with
  | nil => simp [forEachEntry]
  | cons entry rest ih =>
    have step := ih (Function.update segments entry.1 ((segments entry.1).modifyInfo entry.2 change))
    rw [forEachEntry] at step ⊢
    rw [foldl_cons, step]
    by_cases sameIndex : index = entry.1
    · subst index
      rw [update_self, UpdateSegment.modifyInfo_info]
      by_cases sameVector : vectorIndex = entry.2
      · subst vectorIndex
        cases (segments entry.1).info entry.2 with
        | none => simp
        | some node => simp [own.idempotent]
      · have other : (entry.1, vectorIndex) ≠ entry := by
          intro equal
          exact sameVector (congrArg Prod.snd equal)
        simp [sameVector, other]
    · have other : (index, vectorIndex) ≠ entry := by
        intro equal
        exact sameIndex (congrArg Prod.fst equal)
      rw [update_of_ne sameIndex]
      simp [other]

theorem forEachEntry_lists (own : OwnChange transactionId change)
    (lists : Lists segments transactionId entries) (index : ι) {vectorIndex : Nat} :
    (forEachEntry (fun segment target => segment.modifyInfo target change) segments entries
        index).info vectorIndex = ((segments index).info vectorIndex).map change := by
  rw [forEachEntry_info own]
  split
  · rfl
  rename_i unlisted
  cases found : (segments index).info vectorIndex with
  | none => rfl
  | some node =>
    rw [Option.map_some, own.neutral node]
    exact fun info inside same => unlisted (lists index vectorIndex node found info inside same)

theorem rollbackEntries_info (lists : Lists segments transactionId entries) (index : ι)
    (vectorIndex : Nat) : (rollbackEntries segments transactionId entries index).info vectorIndex =
      ((segments index).info vectorIndex).map (rollbackNode transactionId) := by
  have reversed : Lists segments transactionId entries.reverse := by
    intro other otherVector node found info inside same
    exact mem_reverse.mpr (lists other otherVector node found info inside same)
  exact forEachEntry_lists (rollbackNode_ownChange) reversed index

theorem stampEntries_info (lists : Lists segments transactionId entries) (index : ι) (vectorIndex : Nat) :
    (stampEntries segments transactionId versionNumber entries index).info vectorIndex =
      ((segments index).info vectorIndex).map (commitNode transactionId versionNumber) :=
  forEachEntry_lists (commitNode_ownChange) lists index

theorem revertCommit_info (labelled : ∀ index vectorIndex node, (segments index).info vectorIndex = some node →
      Labelled transactionId node.next) (versionNumber : Nat) (entries : List (ι × Nat))
    (index : ι) (vectorIndex : Nat) :
    (stampEntries (stampEntries segments transactionId versionNumber entries) transactionId
        transactionId entries index).info vectorIndex = (segments index).info vectorIndex := by
  rw [stampEntries, forEachEntry_info (commitNode_ownChange), stampEntries, forEachEntry_info (commitNode_ownChange)]
  split
  · cases found : (segments index).info vectorIndex with
    | none => rfl
    | some node =>
      have label := labelled index vectorIndex node found
      simp only [Option.map_some, commitNode, map_map, Option.some.injEq]
      obtain ⟨info, next⟩ := node
      simp only [UpdateNodeData.mk.injEq, true_and]
      conv_rhs => rw [← map_id next]
      apply map_congr_left
      intro entry inside
      have same := label entry inside
      by_cases owns : entry.transaction = transactionId
      · have version := same.mpr owns
        obtain ⟨owner, number, tuples⟩ := entry
        simp_all
      · simp [owns]
  · rfl

theorem cleanup_info {undo : Nat → List (ι × Nat)} (cleaned : List Transaction)
    (segments : (index : ι) → UpdateSegment D (kind index))
    (lists : ∀ transactionId, Lists segments transactionId (undo transactionId))
    (index : ι) (vectorIndex : Nat) :
    (cleaned.foldl (fun changed old =>
        cleanupEntries changed old.transactionId (undo old.transactionId)) segments
        index).info vectorIndex =
      ((segments index).info vectorIndex).map fun node => { node with
        next := node.next.filter fun info =>
          !(cleaned.map Transaction.transactionId).contains info.transaction } := by
  induction cleaned generalizing segments with
  | nil =>
    have same : ∀ chain : List (UpdateInfo (Stored D (kind index))), (chain.filter fun _ => true) = chain := filter_true
    simp [same]
  | cons old rest ih =>
    have first : ∀ other otherVector, (cleanupEntries segments old.transactionId (undo old.transactionId) other).info
          otherVector = ((segments other).info otherVector).map (cleanupNode old.transactionId) :=
      forEachEntry_lists (cleanupNode_ownChange) (lists old.transactionId)
    rw [foldl_cons, ih, first, Option.map_map]
    · congr 1
      funext node
      simp only [comp_apply, cleanupNode, filter_filter]
      congr 2
      funext info
      by_cases same : info.transaction = old.transactionId <;> simp [same]
    · intro transactionId other otherVector node found info inside same
      rw [first] at found
      obtain ⟨whole, wholeFound, nodeEq⟩ := Option.map_eq_some_iff.mp found
      subst node
      exact lists transactionId other otherVector whole wholeFound info (mem_of_mem_filter inside) same

end Database

end GuinsooDB
