import GuinsooDB.Update.Segment

/-! The version chain of a vector, seen one row at a time. -/

namespace GuinsooDB

open SortedEntries SnapshotLedger UndoChain List

variable {V : Type}

theorem mergeLoop_eq (entries old : List (Nat × V)) :
    mergeLoop entries old = mergeWith (fun _ value _ => value) entries old := by
  induction entries generalizing old with
  | nil => rfl
  | cons entry rest ih => simp [mergeLoop, mergeWith, ih]

variable {entries old : List (Nat × V)}

section

variable (newSorted : Ascending entries) (oldSorted : Ascending old)
include newSorted oldSorted

theorem lookup_mergeLoop (row : Nat) :
    (mergeLoop entries old).lookup row = (entries.lookup row).or (old.lookup row) := by
  rw [mergeLoop_eq, lookup_mergeWith newSorted oldSorted]
  cases entries.lookup row <;> rfl

theorem mergeLoop_ascending : Ascending (mergeLoop entries old) := by
  rw [mergeLoop_eq]
  exact mergeWith_ascending newSorted oldSorted

theorem mem_keys_mergeLoop (row : Nat) : row ∈ keys (mergeLoop entries old) ↔ row ∈ keys entries ∨ row ∈ keys old := by
  rw [mergeLoop_eq]
  exact keys_mergeWith newSorted oldSorted row

end

variable {baseInfo updateInfo : List (Nat × V)} {baseTable : Nat → V}

section

variable (newSorted : Ascending entries)
include newSorted

theorem mergeUndoLoop_eq {whole : List (Nat × V)} (baseSorted : Ascending baseInfo)
    (agrees : ∀ entry ∈ entries, baseInfo.lookup entry.1 = whole.lookup entry.1) :
    mergeUndoLoop baseTable entries updateInfo baseInfo =
      mergeWith (fun row _ old => old.getD ((whole.lookup row).getD (baseTable row))) entries updateInfo := by
  induction entries generalizing updateInfo baseInfo with
  | nil => rfl
  | cons first rest ih =>
    obtain ⟨smallest, restSorted⟩ := ascending_cons.mp newSorted
    have restAgrees : ∀ entry ∈ rest, baseInfo.lookup entry.1 = whole.lookup entry.1 :=
      fun entry member => agrees entry (mem_cons_of_mem _ member)
    have skipAgrees : ∀ entry ∈ rest, (dropBelow first.1 baseInfo).lookup entry.1 = whole.lookup entry.1 := by
      intro entry member
      have later := smallest entry member
      rw [lookup_dropBelow baseSorted, if_neg (by omega)]
      exact restAgrees entry member
    have firstValue : headAt first.1 (dropBelow first.1 baseInfo) = whole.lookup first.1 := by
      rw [headAt_dropBelow baseSorted]
      exact agrees first mem_cons_self
    rw [mergeUndoLoop, mergeWith]
    cases headAt first.1 (dropBelow first.1 updateInfo) with
    | some value => simp [ih restSorted baseSorted restAgrees]
    | none => simp [ih restSorted (baseSorted.dropBelow first.1) skipAgrees, firstValue]

variable (updateSorted : Ascending updateInfo) (baseSorted : Ascending baseInfo)
include updateSorted baseSorted

theorem lookup_mergeUndoLoop (row : Nat) :
    (mergeUndoLoop baseTable entries updateInfo baseInfo).lookup row = if row ∈ keys entries then
        some ((updateInfo.lookup row).getD ((baseInfo.lookup row).getD (baseTable row)))
      else updateInfo.lookup row := by
  rw [mergeUndoLoop_eq newSorted baseSorted fun _ _ => rfl, lookup_mergeWith newSorted updateSorted]
  cases found : entries.lookup row with
  | some value =>
    have member : row ∈ keys entries := lookup_isSome_iff.mp (by simp [found])
    simp [member]
  | none => simp [lookup_none_iff.mp found]

theorem mergeUndoLoop_ascending : Ascending (mergeUndoLoop baseTable entries updateInfo baseInfo) := by
  rw [mergeUndoLoop_eq newSorted baseSorted fun _ _ => rfl]
  exact mergeWith_ascending newSorted updateSorted

theorem mem_keys_mergeUndoLoop (row : Nat) : row ∈ keys (mergeUndoLoop baseTable entries updateInfo baseInfo) ↔
      row ∈ keys entries ∨ row ∈ keys updateInfo := by
  rw [mergeUndoLoop_eq newSorted baseSorted fun _ _ => rfl]
  exact keys_mergeWith newSorted updateSorted row

end

/-- The loop of `RollbackUpdate` finds every id it looks for, and restores its value. -/
theorem rollbackLoop_spec {undo : List (Nat × V)} (baseSorted : Ascending baseInfo)
    (undoSorted : Ascending undo) (covered : ∀ row ∈ keys undo, row ∈ keys baseInfo) :
    keys (rollbackLoop baseInfo undo) = keys baseInfo ∧
      ∀ row, (rollbackLoop baseInfo undo).lookup row = (undo.lookup row).or (baseInfo.lookup row) := by
  induction undo generalizing baseInfo with
  | nil => simp [rollbackLoop]
  | cons first rest ih =>
    obtain ⟨id, value⟩ := first
    obtain ⟨smallest, restSorted⟩ := ascending_cons.mp undoSorted
    obtain ⟨replaced, later, remaining⟩ := dropBelow_of_mem baseSorted (covered id (by simp [SortedEntries.keys]))
    have split := takeBelow_append_dropBelow id baseInfo
    have tailSorted := baseSorted.dropBelow id
    rw [remaining] at split tailSorted
    have tailCovered : ∀ row ∈ keys rest, row ∈ keys ((id, value) :: later) := by
      intro row member
      obtain ⟨entry, entryMember, entryRow⟩ := mem_map.mp member
      have above := smallest entry entryMember
      have inBase := covered row (mem_cons_of_mem _ member)
      rw [← split] at inBase
      simp only [SortedEntries.keys, map_append, mem_append] at inBase
      rcases inBase with early | inLater
      · obtain ⟨other, otherMember, otherRow⟩ := mem_map.mp early
        have := mem_takeBelow_lt otherMember
        omega
      · exact inLater
    obtain ⟨laterAbove, laterSorted⟩ := ascending_cons.mp tailSorted
    have restoredSorted : Ascending ((id, value) :: later) := ascending_cons.mpr ⟨laterAbove, laterSorted⟩
    obtain ⟨tailKeys, tailLookup⟩ := ih restoredSorted restSorted tailCovered
    have unfolded : rollbackLoop baseInfo ((id, value) :: rest) =
        takeBelow id baseInfo ++ rollbackLoop ((id, value) :: later) rest := by
      rw [rollbackLoop, remaining]
    constructor
    · conv_rhs => rw [← split]
      simp only [unfolded, SortedEntries.keys, map_append] at tailKeys ⊢
      simp [tailKeys]
    intro row
    conv_rhs => rw [← split, lookup_append]
    rw [unfolded, lookup_append, tailLookup row, lookup_takeBelow baseSorted, lookup_cons, lookup_cons, lookup_cons]
    have restAbsent (small : row ≤ id) : rest.lookup row = none := lookup_none_of_le small smallest
    rcases lt_trichotomy row id with small | same | large
    · have differs : (row == id) = false := by simp; omega
      simp [small, restAbsent (by omega), differs]
    · subst row
      simp [restAbsent (by omega)]
    · have differs : (row == id) = false := by simp; omega
      have notSmall : ¬row < id := by omega
      simp [differs, notSmall]

/-- `MergeUpdateLoopInternal`, on the base node and the node of the transaction. -/
def mergeUpdateLoop (baseTable : Nat → V) (nodes : List (Nat × V) × List (Nat × V)) (entries : List (Nat × V)) :
    List (Nat × V) × List (Nat × V) :=
  (mergeLoop entries nodes.1, mergeUndoLoop baseTable entries nodes.2 nodes.1)

/-- What rolling the transaction back would leave in each row is what `values` says. -/
structure Restores (baseTable values : Nat → V) (nodes : List (Nat × V) × List (Nat × V)) : Prop where
  baseSorted : Ascending nodes.1
  ownSorted : Ascending nodes.2
  covered : ∀ row ∈ keys nodes.2, row ∈ keys nodes.1
  restored (row : Nat) : ((nodes.2.lookup row).or (nodes.1.lookup row)).getD (baseTable row) = values row

theorem Restores.mergeUpdateLoop {values : Nat → V} {nodes : List (Nat × V) × List (Nat × V)}
    (before : Restores baseTable values nodes) (newSorted : Ascending entries) :
    Restores baseTable values (mergeUpdateLoop baseTable nodes entries) where
  baseSorted := mergeLoop_ascending newSorted before.baseSorted
  ownSorted := mergeUndoLoop_ascending newSorted before.ownSorted before.baseSorted
  covered row member := by
    rw [GuinsooDB.mergeUpdateLoop, mem_keys_mergeUndoLoop newSorted before.ownSorted before.baseSorted] at member
    exact (mem_keys_mergeLoop newSorted before.baseSorted row).mpr (member.imp_right (before.covered row))
  restored row := by
    rw [← before.restored row, GuinsooDB.mergeUpdateLoop, lookup_mergeLoop newSorted before.baseSorted,
      lookup_mergeUndoLoop newSorted before.ownSorted before.baseSorted]
    by_cases touched : row ∈ keys entries
    · cases nodes.2.lookup row <;> simp [touched]
    · simp [touched, lookup_none_iff.mpr touched]

/-- Both nodes after a merge, and what is left when all batches of a transaction are rolled back. -/
theorem mergeUpdateLoop_merges (newSorted : Ascending entries) (ownSorted : Ascending updateInfo)
    (baseSorted : Ascending baseInfo) :
    let merged := mergeUpdateLoop baseTable (baseInfo, updateInfo) entries
    (Ascending merged.1 ∧ ∀ row, (row ∈ keys merged.1 ↔ row ∈ keys entries ∨ row ∈ keys baseInfo) ∧
        merged.1.lookup row = (entries.lookup row).or (baseInfo.lookup row)) ∧
      (Ascending merged.2 ∧ ∀ row, (row ∈ keys merged.2 ↔ row ∈ keys entries ∨ row ∈ keys updateInfo) ∧
        merged.2.lookup row = if row ∈ keys entries then
            some ((updateInfo.lookup row).getD ((baseInfo.lookup row).getD (baseTable row)))
          else updateInfo.lookup row) ∧
      ∀ batches : List (List (Nat × V)), (∀ batch ∈ batches, Ascending batch) →
        let final := batches.foldl (mergeUpdateLoop baseTable) (baseInfo, [])
        keys (rollbackLoop final.1 final.2) = keys final.1 ∧ ∀ row,
          ((rollbackLoop final.1 final.2).lookup row).getD (baseTable row) =
            (baseInfo.lookup row).getD (baseTable row) := by
  refine ⟨⟨mergeLoop_ascending newSorted baseSorted, fun row =>
      ⟨mem_keys_mergeLoop newSorted baseSorted row, lookup_mergeLoop newSorted baseSorted row⟩⟩,
    ⟨mergeUndoLoop_ascending newSorted ownSorted baseSorted, fun row =>
      ⟨mem_keys_mergeUndoLoop newSorted ownSorted baseSorted row,
        lookup_mergeUndoLoop newSorted ownSorted baseSorted row⟩⟩, ?_⟩
  intro batches sorted
  have start : Restores baseTable (fun row => (baseInfo.lookup row).getD (baseTable row)) (baseInfo, []) :=
    ⟨baseSorted, Pairwise.nil, nofun, fun _ => rfl⟩
  have final := foldlRecOn batches (mergeUpdateLoop baseTable) start fun _ before batch member =>
    Restores.mergeUpdateLoop before (sorted batch member)
  obtain ⟨kept, found⟩ := rollbackLoop_spec final.baseSorted final.ownSorted final.covered
  refine ⟨kept, fun row => ?_⟩
  rw [found]
  exact final.restored row

theorem mergeUpdateLoop_merges_overlap :
    Ascending (mergeUpdateLoop (fun _ => 0) ([(1, 5)], [(2, 7)]) [(1, 9), (3, 4)]).2 :=
  (mergeUpdateLoop_merges (by simp [Ascending]) (by simp [Ascending]) (by simp [Ascending])).2.1.1

variable {current : UpdateInfo V}

section

variable (sorted : Ascending current.tuples)
include sorted

theorem mergeValidity_apply (result : Nat → V) (row : Nat) :
    mergeValidity current result row = (current.tuples.lookup row).getD (result row) := by
  obtain ⟨transaction, versionNumber, tuples⟩ := current
  simp only [mergeValidity] at sorted ⊢
  induction tuples generalizing result with
  | nil => rfl
  | cons first rest ih =>
    obtain ⟨smallest, restSorted⟩ := ascending_cons.mp sorted
    rw [foldl_cons, ih _ restSorted, lookup_cons]
    by_cases same : row = first.1
    · subst row
      have absent : rest.lookup first.1 = none := lookup_none_of_le (le_refl _) smallest
      simp [absent]
    · have differs : (row == first.1) = false := by simpa using same
      simp [differs, Function.update_of_ne same]

variable (bounded : ∀ entry ∈ current.tuples, entry.1 < standardVectorSize) (result : Nat → V)
  (row : Nat)
include bounded result row

theorem mergeUpdateInfo_apply : mergeUpdateInfo current result row = (current.tuples.lookup row).getD (result row) := by
  rw [mergeUpdateInfo]
  split
  next full =>
    simp only [lookup_eq_getElem sorted (by rw [full]; exact bounded)]
  · exact mergeValidity_apply sorted result row

theorem mergeFunction_apply {kind : SegmentKind} :
    mergeFunction kind current result row = (current.tuples.lookup row).getD (result row) := by
  cases kind with
  | validity => exact mergeValidity_apply sorted result row
  | data => exact mergeUpdateInfo_apply sorted bounded result row

end

def mentions (chain : List (UpdateInfo V)) (row : Nat) : List (Nat × V) :=
  chain.filterMap fun info => (info.tuples.lookup row).map fun value => (info.versionNumber, value)

theorem mentions_cons (info : UpdateInfo V) (rest : List (UpdateInfo V)) (row : Nat) : mentions (info :: rest) row =
      ((info.tuples.lookup row).map fun value => (info.versionNumber, value)).toList ++ mentions rest row := by
  rw [mentions, filterMap_cons]
  cases info.tuples.lookup row <;> rfl

theorem mentions_append (early late : List (UpdateInfo V)) (row : Nat) :
    mentions (early ++ late) row = mentions early row ++ mentions late row :=
  filterMap_append

variable {chain : List (UpdateInfo V)}

theorem mem_mentions {row : Nat} {node : Nat × V} : node ∈ mentions chain row ↔
      ∃ info ∈ chain, info.versionNumber = node.1 ∧ info.tuples.lookup row = some node.2 := mem_stamped

theorem mentions_eq_nil {row : Nat} (absent : ∀ info ∈ chain, row ∉ keys info.tuples) : mentions chain row = [] := by
  apply filterMap_eq_nil_iff.mpr
  intro info member
  rw [lookup_none_iff.mpr (absent info member), Option.map_none]

/-- A callback that puts in the value of a row, as far as `value` tells. -/
theorem updatesForTransaction_rewind {R : Type} {value : R → V} {callback : UpdateInfo V → R → R}
    {row : Nat} (puts : ∀ info ∈ chain, ∀ result,
      value (callback info result) = (info.tuples.lookup row).getD (value result))
    (startTime id : Nat) (result : R) :
    value (updatesForTransaction chain startTime id callback result) =
      rewind (Ledger.hidden { startTime, transaction := id }) (value result) (mentions chain row) := by
  induction chain generalizing result with
  | nil => rfl
  | cons info rest ih =>
    have step := ih fun other member => puts other (mem_cons_of_mem _ member)
    have merged := puts info mem_cons_self result
    simp only [updatesForTransaction] at step ⊢
    rw [foldl_cons, step, mentions_cons]
    cases found : info.tuples.lookup row with
    | none =>
      rw [found] at merged
      split <;> simp [merged]
    | some value =>
      rw [found] at merged
      simp only [Option.map_some, Option.toList_some, cons_append, nil_append, rewind, Ledger.hidden]
      by_cases covered : startTime < info.versionNumber ∧ info.versionNumber ≠ id
      · simp [covered, merged]
      · simp [covered]

theorem updatesForTransaction_apply {kind : SegmentKind} (sorted : ∀ info ∈ chain, Ascending info.tuples)
    (bounded : ∀ info ∈ chain, ∀ entry ∈ info.tuples, entry.1 < standardVectorSize)
    (startTime id : Nat) (result : Nat → V) (row : Nat) :
    updatesForTransaction chain startTime id (mergeFunction kind) result row =
      rewind (Ledger.hidden { startTime, transaction := id }) (result row) (mentions chain row) :=
  @updatesForTransaction_rewind _ _ _ (· row) _ row (fun info member result =>
    mergeFunction_apply (sorted info member) (bounded info member) result row) ..

variable {ids : List Nat}

variable (idsSorted : ids.Pairwise (· < ·))
include idsSorted

theorem conflictLoop_eq_true {tuples : List (Nat × V)} (sorted : Ascending tuples) :
    conflictLoop ids tuples = true ↔ ∃ id ∈ ids, id ∈ keys tuples := by
  induction ids generalizing tuples with
  | nil => simp [conflictLoop]
  | cons id rest ih =>
    obtain ⟨smallest, restSorted⟩ := pairwise_cons.mp idsSorted
    have front := headAt_dropBelow sorted id
    have later : ∀ other ∈ rest, other ∈ keys tuples ↔ other ∈ keys (dropBelow id tuples) := by
      intro other member
      have above := smallest other member
      rw [← lookup_isSome_iff, ← lookup_isSome_iff, lookup_dropBelow sorted, if_neg (by omega)]
    have restIff := ih restSorted (sorted.dropBelow id)
    rw [conflictLoop]
    cases remaining : dropBelow id tuples with
    | nil =>
      rw [remaining] at front later
      have absent : id ∉ keys tuples := lookup_none_iff.mp front.symm
      simp only [mem_cons, exists_eq_or_imp, absent, false_or, Bool.false_eq_true, false_iff]
      rintro ⟨other, member, inside⟩
      simpa [SortedEntries.keys] using (later other member).mp inside
    | cons entry tail =>
      rw [remaining] at front later restIff
      by_cases same : entry.1 = id
      · have present : id ∈ keys tuples := by
          rw [← lookup_isSome_iff, ← front]
          simp [headAt, same]
        simp only [same, if_true, mem_cons, exists_eq_or_imp, present, true_or]
      have absent : id ∉ keys tuples := by
        rw [← lookup_none_iff, ← front]
        simp [headAt, same]
      simp only [same, if_false, mem_cons, exists_eq_or_imp, absent, false_or, restIff]
      exact exists_congr fun other => and_congr_right fun member => (later other member).symm

variable (sorted : ∀ info ∈ chain, Ascending info.tuples)
include sorted

variable {transaction : Transaction}

theorem checkForConflicts_eq_true : checkForConflicts chain transaction ids = true ↔
      ∃ info ∈ chain, info.versionNumber ≠ transaction.transactionId ∧
        transaction.startTime < info.versionNumber ∧ ∃ id ∈ ids, id ∈ keys info.tuples := by
  rw [checkForConflicts, any_eq_true]
  refine exists_congr fun info => and_congr_right fun member => ?_
  rw [Bool.and_eq_true, Bool.and_eq_true, conflictLoop_eq_true idsSorted (sorted info member)]
  simp

theorem checkForConflicts_eq_false (clean : checkForConflicts chain transaction ids = false) :
    ∀ info ∈ chain, info.versionNumber ≠ transaction.transactionId →
      transaction.startTime < info.versionNumber → ∀ id ∈ ids, id ∉ keys info.tuples := by
  intro info member other later id idMember inside
  have conflict := (checkForConflicts_eq_true idsSorted sorted).mpr ⟨info, member, other, later, id, idMember, inside⟩
  rw [clean] at conflict
  simp at conflict

end GuinsooDB
