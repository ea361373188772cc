import GuinsooDB.Update.Effects

/-!
What the updates of one transaction leave behind when they are rolled back: `RollbackUpdate` puts
the old values into the base node of a vector, and the base node keeps an entry for every row that
was updated.
-/

namespace GuinsooDB

open SortedEntries UpdateNodeData List Function

variable {V : Type}

namespace UpdateNodeData

def baseEntry (node : Option (UpdateNodeData V)) (row : Nat) : Option V :=
  node.bind fun node => node.info.tuples.lookup row

def undoNodes (node : Option (UpdateNodeData V)) : List (UpdateInfo V) :=
  (node.map next).getD []

def Unowned (transactionId : Nat) (node : Option (UpdateNodeData V)) : Prop :=
  ∀ info ∈ undoNodes node, info.transaction ≠ transactionId ∧ info.versionNumber ≠ transactionId

/-- A vector in which one transaction has written some rows since another state of it. Its undo
node is the newest one and holds what the base node or the table had for these rows. -/
structure Owned (transactionId : Nat) (baseTable : Nat → V) (before : Option (UpdateNodeData V))
    (written : Nat → Prop) (node : UpdateNodeData V) : Prop where
  sound : node.Sound
  newest : ∃ own, node.next = own :: undoNodes before ∧ own.transaction = transactionId ∧
    own.versionNumber = transactionId ∧
    ∀ row, (written row → own.tuples.lookup row =
        some ((baseEntry before row).getD (baseTable row))) ∧
      (¬written row → own.tuples.lookup row = none)
  kept : ∀ row, ¬written row → node.info.tuples.lookup row = baseEntry before row

variable {transactionId : Nat} {baseTable : Nat → V} {before : Option (UpdateNodeData V)}
  {written : Nat → Prop} {node : UpdateNodeData V} {entries : List (Nat × V)}
  {transaction : Transaction}

theorem createNode_owned (sorted : Ascending entries) (bounded : ∀ entry ∈ entries, entry.1 < standardVectorSize) :
    Owned transaction.transactionId baseTable none (· ∈ keys entries) (createNode transaction baseTable entries) := by
  refine ⟨sound_createNode sorted bounded, ⟨_, rfl, rfl, rfl, ?_⟩, ?_⟩
  · intro row
    exact ⟨fun inside => lookup_undo.trans (if_pos inside), fun outside => lookup_undo.trans (if_neg outside)⟩
  · intro row outside
    exact lookup_none_iff.mpr outside

def mergedNode (baseTable : Nat → V) (entries : List (Nat × V)) (node : UpdateNodeData V)
    (own : UpdateInfo V) (others : List (UpdateInfo V)) : UpdateNodeData V where
  info := { node.info with tuples := mergeLoop entries node.info.tuples }
  next := { own with tuples := mergeUndoLoop baseTable entries own.tuples node.info.tuples } ::
    others

variable {others : List (UpdateInfo V)} {own : UpdateInfo V}

theorem mergedNode_owned (owned : Owned transactionId baseTable before written { node with next := own :: others })
    (sorted : Ascending entries)
    (bounded : ∀ entry ∈ entries, entry.1 < standardVectorSize) :
    Owned transactionId baseTable before (fun row => row ∈ keys entries ∨ written row)
      (mergedNode baseTable entries node own others) := by
  have sound := owned.sound
  have ownSorted := sound.sorted own mem_cons_self
  obtain ⟨first, newest, owner, version, undo⟩ := owned.newest
  obtain ⟨rfl, rfl⟩ := cons.inj newest
  refine ⟨@Sound.mergeNode _ _ [] _ _ _ _ sorted bounded sound, ⟨_, rfl, owner, version, ?_⟩, ?_⟩
  · intro row
    rw [lookup_mergeUndoLoop sorted ownSorted sound.baseSorted]
    by_cases inside : row ∈ keys entries
    · refine ⟨fun _ => ?_, fun outside => absurd (.inl inside) outside⟩
      rw [if_pos inside]
      by_cases earlier : written row
      · rw [(undo row).1 earlier]
        rfl
      · have base : node.info.tuples.lookup row = baseEntry before row := owned.kept row earlier
        rw [(undo row).2 earlier, base]
        rfl
    · rw [if_neg inside]
      refine ⟨fun wrote => (undo row).1 (wrote.resolve_left inside), fun outside => ?_⟩
      exact (undo row).2 fun wrote => outside (.inr wrote)
  · intro row outside
    change (mergeLoop entries node.info.tuples).lookup row = _
    rw [lookup_mergeLoop sorted sound.baseSorted, lookup_none_iff.mpr fun inside => outside (.inl inside)]
    exact owned.kept row fun wrote => outside (.inr wrote)

theorem Owned.extend (owned : Owned transaction.transactionId baseTable before written node)
    (sorted : Ascending entries) (bounded : ∀ entry ∈ entries, entry.1 < standardVectorSize) :
    Owned transaction.transactionId baseTable before (fun row => row ∈ keys entries ∨ written row)
      (extendNode transaction baseTable entries node) := by
  obtain ⟨own, newest, -, version, -⟩ := owned.newest
  have present : (node.next.any fun info => info.versionNumber = transaction.transactionId) =
      true := by
    simp [newest, version]
  have merged : extendNode transaction baseTable entries node =
      mergedNode baseTable entries node own (undoNodes before) := by
    rw [extendNode]
    rw [present, if_pos rfl, newest, modifyNode, if_pos version]
    rfl
  rw [merged]
  refine mergedNode_owned ?_ sorted bounded
  rw [← newest]
  exact owned

theorem extendNode_owned (sound : node.Sound)
    (unowned : Unowned transaction.transactionId (some node)) (sorted : Ascending entries)
    (bounded : ∀ entry ∈ entries, entry.1 < standardVectorSize) :
    Owned transaction.transactionId baseTable (some node) (· ∈ keys entries)
      (extendNode transaction baseTable entries node) := by
  have absent : (node.next.any fun info => info.versionNumber = transaction.transactionId) =
      false := by
    refine any_eq_false.mpr fun info inside => ?_
    simpa using (unowned info inside).2
  let fresh : UpdateInfo V :=
    { transaction := transaction.transactionId
      versionNumber := transaction.transactionId
      tuples := [] }
  have merged : extendNode transaction baseTable entries node = mergedNode baseTable entries node fresh node.next := by
    rw [extendNode]
    rw [absent, if_neg Bool.false_ne_true, modifyNode, if_pos rfl]
    rfl
  have started : Owned transaction.transactionId baseTable (some node) (fun _ => False)
      { node with next := fresh :: node.next } := by
    exact ⟨sound.insertNode fun info inside => (unowned info inside).1,
      ⟨fresh, rfl, rfl, rfl, fun _ => ⟨False.elim, fun _ => rfl⟩⟩, fun _ _ => rfl⟩
  have extended := mergedNode_owned started sorted bounded
  rw [merged]
  simpa only [or_false] using extended

theorem Owned.rollback (owned : Owned transactionId baseTable before written node)
    (unowned : Unowned transactionId before) : (rollbackNode transactionId node).Sound ∧
      (rollbackNode transactionId node).next = undoNodes before ∧
      ∀ row, (written row → (rollbackNode transactionId node).info.tuples.lookup row =
          some ((baseEntry before row).getD (baseTable row))) ∧
        (¬written row → (rollbackNode transactionId node).info.tuples.lookup row = baseEntry before row) := by
  have sound := owned.sound
  obtain ⟨own, newest, owner, version, undo⟩ := owned.newest
  have labelled : Labelled transactionId node.next := by
    rw [newest]
    refine forall_mem_cons.mpr ⟨by rw [owner, version], fun info inside => ?_⟩
    have others := unowned info inside
    exact iff_of_false others.2 others.1
  obtain ⟨rolledSound, rolledNext, -⟩ := sound.rollbackNode labelled baseTable
  have others : (undoNodes before).filter (fun info => info.transaction ≠ transactionId) = undoNodes before :=
    filter_eq_self.mpr fun info inside => by simp [(unowned info inside).1]
  refine ⟨rolledSound, ?_, ?_⟩
  · rw [rolledNext, newest, filter_cons_of_neg (by simp [owner]), others]
  intro row
  have ownMember : own ∈ node.next := by rw [newest]; exact mem_cons_self
  have restored := (rollbackLoop_spec sound.baseSorted (sound.sorted own ownMember) (sound.covered own ownMember)).2 row
  have found : node.next.find? (fun info => info.transaction = transactionId) = some own := by
    rw [newest, find?_cons_of_pos (by simp [owner])]
  rw [rollbackNode, found]
  rw [restored]
  refine ⟨fun wrote => ?_, fun kept => ?_⟩
  · rw [(undo row).1 wrote]
    rfl
  · rw [(undo row).2 kept]
    exact owned.kept row kept

def Written (transactionId : Nat) (baseTable : Nat → V) (before : Option (UpdateNodeData V))
    (written : Nat → Prop) (node : Option (UpdateNodeData V)) : Prop :=
  (node = before ∧ ∀ row, ¬written row) ∨
    ∃ owned, node = some owned ∧ Owned transactionId baseTable before written owned

theorem Written.create (vector : Written transaction.transactionId baseTable before written none)
    (sorted : Ascending entries) (bounded : ∀ entry ∈ entries, entry.1 < standardVectorSize) :
    Written transaction.transactionId baseTable before (fun row => row ∈ keys entries ∨ written row)
      (some (createNode transaction baseTable entries)) := by
  rcases vector with ⟨same, unwritten⟩ | ⟨owned, same, -⟩
  · subst before
    refine .inr ⟨_, rfl, ?_⟩
    simpa only [unwritten, or_false] using createNode_owned sorted bounded
  · cases same

theorem Written.extend (vector : Written transaction.transactionId baseTable before written (some node))
    (sound : ∀ old, before = some old → old.Sound)
    (unowned : Unowned transaction.transactionId before) (sorted : Ascending entries)
    (bounded : ∀ entry ∈ entries, entry.1 < standardVectorSize) :
    Written transaction.transactionId baseTable before (fun row => row ∈ keys entries ∨ written row)
      (some (extendNode transaction baseTable entries node)) := by
  rcases vector with ⟨same, unwritten⟩ | ⟨owned, same, owns⟩
  · subst before
    refine .inr ⟨_, rfl, ?_⟩
    simpa only [unwritten, or_false] using extendNode_owned (sound node rfl) unowned sorted bounded
  · cases same
    exact .inr ⟨_, rfl, owns.extend sorted bounded⟩

theorem Written.rollback {node : Option (UpdateNodeData V)}
    (vector : Written transactionId baseTable before written node)
    (sound : ∀ old, before = some old → old.Sound) (unowned : Unowned transactionId before) :
    (∀ rolled, node.map (rollbackNode transactionId) = some rolled → rolled.Sound) ∧
      undoNodes (node.map (rollbackNode transactionId)) = undoNodes before ∧
      ∀ row, (written row → baseEntry (node.map (rollbackNode transactionId)) row =
          some ((baseEntry before row).getD (baseTable row))) ∧
        (¬written row → baseEntry (node.map (rollbackNode transactionId)) row = baseEntry before row) := by
  rcases vector with ⟨same, unwritten⟩ | ⟨owned, same, owns⟩
  · subst node
    have unchanged : before.map (rollbackNode transactionId) = before := by
      cases before with
      | none => rfl
      | some old => exact congrArg some (rollbackNode_of_absent fun info inside => (unowned info inside).1)
    rw [unchanged]
    exact ⟨sound, rfl, fun row => ⟨fun wrote => absurd wrote (unwritten row), fun _ => rfl⟩⟩
  · subst node
    obtain ⟨rolledSound, next, entries⟩ := owns.rollback unowned
    refine ⟨fun rolled same => ?_, next, entries⟩
    cases same
    exact rolledSound

end UpdateNodeData

/-! The updates of one transaction -/

structure SegmentUpdate (D ι : Type) where
  index : ι
  target : VectorRows
  values : FlatVector D

namespace Database

variable {D ι : Type} [DecidableEq ι] {kind : ι → SegmentKind}

def updateLoop (base : ι → Nat → FlatVector D) (transaction : Transaction) :
    Database D kind → List (SegmentUpdate D ι) → Database D kind
  | database, [] => database
  | database, change :: rest =>
    match database.update base transaction change.index change.target change.values with
    | .error _ => database
    | .ok updated => updateLoop base transaction updated rest

def recordsRow (base : ι → Nat → FlatVector D) (database : Database D kind)
    (change : SegmentUpdate D ι) (key : RowKey ι) : Bool :=
  !(database.segments change.index).skipsUpdate change.target.vectorIndex change.values
      (base change.index change.target.vectorIndex) &&
    (writeSet kind change.index change.target change.values key).isSome

def touched (base : ι → Nat → FlatVector D) (transaction : Transaction) :
    Database D kind → List (SegmentUpdate D ι) → RowKey ι → Bool
  | _, [], _ => false
  | database, change :: rest, key =>
    match database.update base transaction change.index change.target change.values with
    | .error _ => false
    | .ok updated =>
      recordsRow base database change key || touched base transaction updated rest key

structure WrittenSince (base : ι → Nat → FlatVector D) (transaction : Transaction)
    (before : Database D kind) (written : RowKey ι → Prop) (database : Database D kind) : Prop where
  vectors : ∀ index vectorIndex, UpdateNodeData.Written transaction.transactionId
    (extract (kind index) (base index vectorIndex)) ((before.segments index).info vectorIndex)
    (fun row => written (index, vectorIndex, row)) ((database.segments index).info vectorIndex)
  lists : Lists database.segments transaction.transactionId
    (database.undo transaction.transactionId)

variable {base : ι → Nat → FlatVector D} {transaction : Transaction}
  {before database updated : Database D kind} {written : RowKey ι → Prop}
  {change : SegmentUpdate D ι} {changes : List (SegmentUpdate D ι)}

theorem isSome_writeSet {index : ι} {vectorIndex row : Nat} :
    (writeSet kind change.index change.target change.values (index, vectorIndex, row)).isSome =
        true ↔ (index = change.index ∧ vectorIndex = change.target.vectorIndex) ∧
        row ∈ keys (change.target.entries (kind change.index) change.values) := by
  by_cases here : index = change.index ∧ vectorIndex = change.target.vectorIndex
  · obtain ⟨rfl, rfl⟩ := here
    rw [← change.target.lookup_entries, lookup_isSome_iff]
    simp
  · rw [writeSet, if_neg here]
    simp [here]

theorem WrittenSince.set (since : WrittenSince base transaction before written database)
    {node : UpdateNodeData (Stored D (kind change.index))} {created : List Nat}
    (vector : UpdateNodeData.Written transaction.transactionId
      (extract (kind change.index) (base change.index change.target.vectorIndex))
      ((before.segments change.index).info change.target.vectorIndex)
      (fun row => row ∈ keys (change.target.entries (kind change.index) change.values) ∨
        written (change.index, change.target.vectorIndex, row)) (some node))
    (owners : ∀ info ∈ node.next, info.transaction = transaction.transactionId →
      (change.index, change.target.vectorIndex) ∈ database.undo transaction.transactionId ∨
        change.target.vectorIndex ∈ created) :
    WrittenSince base transaction before
      (fun key => (writeSet kind change.index change.target change.values key).isSome = true ∨ written key)
      { database with
        segments := Function.update database.segments change.index
          ((database.segments change.index).setInfo change.target.vectorIndex node)
        undo := Function.update database.undo transaction.transactionId
          (database.undo transaction.transactionId ++
            created.map fun vectorIndex => (change.index, vectorIndex)) } := by
  have infoHere : (Function.update database.segments change.index
      ((database.segments change.index).setInfo change.target.vectorIndex node)
        change.index).info change.target.vectorIndex = some node := by
    rw [update_self, UpdateSegment.setInfo_info, if_pos rfl]
  have infoElsewhere : ∀ index vectorIndex, ¬(index = change.index ∧ vectorIndex = change.target.vectorIndex) →
      (Function.update database.segments change.index
        ((database.segments change.index).setInfo change.target.vectorIndex node)
          index).info vectorIndex = (database.segments index).info vectorIndex := by
    intro index vectorIndex elsewhere
    by_cases sameIndex : index = change.index
    · subst index
      rw [update_self, UpdateSegment.setInfo_info, if_neg fun same => elsewhere ⟨rfl, same⟩]
    · rw [update_of_ne sameIndex]
  refine ⟨?_, ?_⟩
  · intro index vectorIndex
    simp only [isSome_writeSet]
    by_cases here : index = change.index ∧ vectorIndex = change.target.vectorIndex
    · obtain ⟨sameIndex, sameVector⟩ := here
      subst index vectorIndex
      rw [infoHere]
      simpa using vector
    · rw [infoElsewhere index vectorIndex here]
      simpa [here] using since.vectors index vectorIndex
  · intro index vectorIndex other found info inside owns
    dsimp only
    rw [update_self]
    by_cases here : index = change.index ∧ vectorIndex = change.target.vectorIndex
    · obtain ⟨sameIndex, sameVector⟩ := here
      subst index vectorIndex
      rw [infoHere, Option.some.injEq] at found
      subst other
      rcases owners info inside owns with listed | isNew
      · exact mem_append_left _ listed
      · exact mem_append_right _ (mem_map.mpr ⟨_, isNew, rfl⟩)
    · rw [infoElsewhere index vectorIndex here] at found
      exact mem_append_left _ (since.lists index vectorIndex other found info inside owns)

structure Unwritten (transactionId : Nat) (database : Database D kind) : Prop where
  sound : ∀ index vectorIndex node, (database.segments index).info vectorIndex = some node →
    node.Sound
  unowned : ∀ index vectorIndex,
    UpdateNodeData.Unowned transactionId ((database.segments index).info vectorIndex)

omit [DecidableEq ι] in
theorem Unwritten.since (unwritten : Unwritten transaction.transactionId before) (base : ι → Nat → FlatVector D) :
    WrittenSince base transaction before (fun _ => False) before where
  vectors := fun _ _ => .inl ⟨rfl, fun _ => id⟩
  lists := by
    intro index vectorIndex node found info inside owns
    have others := unwritten.unowned index vectorIndex
    rw [found] at others
    exact absurd owns (others info inside).1

theorem WrittenSince.update (since : WrittenSince base transaction before written database)
    (unwritten : Unwritten transaction.transactionId before)
    (ok : database.update base transaction change.index change.target change.values = .ok updated) :
    WrittenSince base transaction before
      (fun key => recordsRow base database change key = true ∨ written key) updated := by
  have sorted := change.target.entries_ascending (kind change.index) change.values
  have bounded := change.target.entries_bounded (kind change.index) change.values
  have vector := since.vectors change.index change.target.vectorIndex
  rw [Database.update] at ok
  split at ok
  · cases ok
  rename_i segment created segmentOk
  cases ok
  cases UpdateSegment.update_spec segmentOk with
  | skipped skips =>
    simpa [recordsRow, skips] using since
  | empty taken nothing =>
    have unrecorded : ∀ key, (writeSet kind change.index change.target change.values key).isSome = false := by
      rintro ⟨index, vectorIndex, row⟩
      rw [← Bool.not_eq_true, isSome_writeSet, nothing]
      exact fun inside => not_mem_nil inside.2
    simpa [recordsRow, unrecorded] using since
  | created taken blank =>
    rw [blank] at vector
    simpa [recordsRow, taken] using since.set (vector.create sorted bounded) fun _ _ _ => .inr (mem_singleton_self _)
  | @extended node taken found clean =>
    rw [found] at vector
    have extended := vector.extend (unwritten.sound _ _) (unwritten.unowned _ _) sorted bounded
    simp only [recordsRow, taken, Bool.not_false, Bool.true_and]
    refine since.set extended fun info inside owns => ?_
    rcases extendNode_owner inside with ⟨old, oldMember, same⟩ | ⟨-, absent⟩
    · exact .inl (since.lists _ _ node found old oldMember (same.trans owns))
    · rw [absent, if_neg Bool.false_ne_true]
      exact .inr (mem_singleton_self _)

theorem WrittenSince.updateLoop (since : WrittenSince base transaction before written database)
    (unwritten : Unwritten transaction.transactionId before) : WrittenSince base transaction before
      (fun key => touched base transaction database changes key = true ∨ written key)
      (database.updateLoop base transaction changes) := by
  induction changes generalizing database written with
  | nil => simpa [touched, Database.updateLoop] using since
  | cons change rest ih =>
    rw [Database.updateLoop]
    simp only [touched]
    cases made : database.update base transaction change.index change.target change.values with
    | error message => simpa using since
    | ok updated =>
      have later := ih (since.update unwritten made)
      simpa only [Bool.or_eq_true, or_assoc, or_left_comm] using later

def updatedAndRolledBack (base : ι → Nat → FlatVector D) (transaction : Transaction)
    (database : Database D kind) (changes : List (SegmentUpdate D ι)) : Database D kind :=
  let changed := database.updateLoop base transaction changes
  { changed with
    segments := rollbackEntries changed.segments transaction.transactionId
      (changed.undo transaction.transactionId) }

theorem Unwritten.rolledBack (unwritten : Unwritten transaction.transactionId before)
    (base : ι → Nat → FlatVector D) (changes : List (SegmentUpdate D ι)) (index : ι)
    (vectorIndex : Nat) :
    let rolled := ((updatedAndRolledBack base transaction before changes).segments index).info vectorIndex
    let old := (before.segments index).info vectorIndex
    (∀ node, rolled = some node → node.Sound) ∧ undoNodes rolled = undoNodes old ∧
      ∀ row, baseEntry rolled row = (baseEntry old row).or
        (if touched base transaction before changes (index, vectorIndex, row) then
          some (extract (kind index) (base index vectorIndex) row)
        else none) := by
  have since : WrittenSince base transaction before
      (fun key => touched base transaction before changes key = true ∨ False)
      (before.updateLoop base transaction changes) := (unwritten.since base).updateLoop unwritten
  simp only [or_false] at since
  intro rolled old
  have same : rolled = (((before.updateLoop base transaction changes).segments index).info
      vectorIndex).map (rollbackNode transaction.transactionId) :=
    rollbackEntries_info since.lists index vectorIndex
  rw [same]
  obtain ⟨sound, next, entries⟩ := (since.vectors index vectorIndex).rollback
    (unwritten.sound index vectorIndex) (unwritten.unowned index vectorIndex)
  refine ⟨sound, next, fun row => ?_⟩
  by_cases wrote : touched base transaction before changes (index, vectorIndex, row) = true
  · rw [(entries row).1 wrote, if_pos wrote]
    cases baseEntry ((before.segments index).info vectorIndex) row <;> rfl
  · rw [(entries row).2 wrote, if_neg wrote, Option.or_none]

end Database

end GuinsooDB
