import GuinsooDB.Catalog.Chains

/-!
Rolling back the catalog calls of one transaction. A call that finds the newest mapping
value of its entry's name pointing to the entry's own chain is taken back by `Undo`; what
remains of it is at most a dummy that no name leads to.
-/

namespace GuinsooDB

open VersionChain List Function Option Bool

def CatalogType.isInvalid {D : Type} : CatalogType D → Bool
  | .invalid => true
  | .deletedEntry | .object _ => false

namespace CatalogSet

variable {Name D : Type}

def leadsTo (set : CatalogSet Name D) (name : Name) (index : Nat) : Bool :=
  (set.mapping name).head?.any fun latest => decide (latest.index = index)

/-- It does so for an entry that `Undo` will not take for a new one. -/
def anchors (set : CatalogSet Name D) (index : Nat) (entry : CatalogEntry Name D) : Bool :=
  ((set.mapping entry.name).head?.any fun latest =>
    decide (latest.index = index) && !latest.deleted) && !entry.type.isInvalid

variable {set : CatalogSet Name D} {transaction : Transaction}

theorem head?_any_eq_true {α : Type} {test : α → Bool} {chain : List α} (found : chain.head?.any test = true) :
    ∃ latest older, chain = latest :: older ∧ test latest = true := by
  cases chain with
  | nil => cases found
  | cons latest older => exact ⟨latest, older, rfl, found⟩

variable {index : Nat} {name : Name}

theorem leadsTo_eq_true (leads : set.leadsTo name index = true) :
    ∃ latest older, set.mapping name = latest :: older ∧ latest.index = index := by
  obtain ⟨latest, older, chain, points⟩ := head?_any_eq_true leads
  exact ⟨latest, older, chain, of_decide_eq_true points⟩

variable {entry : CatalogEntry Name D}

theorem anchors_eq_true (isAnchored : set.anchors index entry = true) :
    entry.type.isInvalid = false ∧ ∃ latest older, set.mapping entry.name = latest :: older ∧
      latest.index = index ∧ latest.deleted = false := by
  rw [anchors, and_eq_true, not_eq_true'] at isAnchored
  obtain ⟨latest, older, chain, points⟩ := head?_any_eq_true isAnchored.1
  rw [and_eq_true, not_eq_true', decide_eq_true_eq] at points
  exact ⟨isAnchored.2, latest, older, chain, points.1, points.2⟩

variable {content : D} {refused internal : Bool}

theorem insertEntry_ok (succeeded : (set.insertEntry transaction index name content internal refused).answer =
      .ok true) : set.insertEntry transaction index name content internal refused =
      set.replaceEntry transaction index (.object content) name false internal := by
  rw [insertEntry] at succeeded ⊢
  split at succeeded
  · cases succeeded
  next granted =>
    rw [if_neg granted]

theorem replaceAltered_ok (succeeded : (set.replaceAltered transaction index name content refused).answer = .ok true) :
    set.replaceAltered transaction index name content refused =
      set.replaceEntry transaction index (.object content) name false false :=
  insertEntry_ok succeeded

/-! What `replaceEntry` leaves of the rest of the set -/

section Replace

variable {type : CatalogType D} {deleted : Bool}

theorem replaceEntry_eq {current : CatalogEntry Name D} {older : List (CatalogEntry Name D)}
    (chain : set.entries index = current :: older) :
    set.replaceEntry transaction index type name deleted internal = {
      set := { set.setEntries index (⟨set.nextAddress, type, name, transaction.transactionId,
          deleted, internal⟩ :: current :: older) with
        nextAddress := set.nextAddress + 1 }
      pushed := some current.address
      answer := .ok true } := by
  simp only [replaceEntry, chain]

theorem replaceEntry_answer {other : CatalogSet Name D} (same : other.entries index = set.entries index) :
    (other.replaceEntry transaction index type name deleted internal).answer =
      (set.replaceEntry transaction index type name deleted internal).answer := by
  rw [replaceEntry, replaceEntry, same]
  split <;> rfl

end Replace

theorem insertEntry_answer {other : CatalogSet Name D} (same : other.entries index = set.entries index) :
    (other.insertEntry transaction index name content internal refused).answer =
      (set.insertEntry transaction index name content internal refused).answer := by
  rw [insertEntry, insertEntry]
  split
  · rfl
  · exact replaceEntry_answer same

structure Extends (set extended : CatalogSet Name D) : Prop where
  owned : extended.Owned
  mapping : extended.mapping = set.mapping
  names : ∃ extra, extended.names = set.names ++ extra ∧ ∀ name ∈ extra, set.mapping name = []
  entries : ∀ index < set.currentEntry, extended.entries index = set.entries index
  more : set.currentEntry ≤ extended.currentEntry
  orphans : ∀ index, set.currentEntry ≤ index →
    ∀ entry ∈ extended.entries index, entry.timestamp = 0

theorem Owned.orphans (owned : set.Owned) (index : Nat) (beyond : set.currentEntry ≤ index) :
    ∀ entry ∈ set.entries index, entry.timestamp = 0 := by
  intro entry inside
  rw [owned.unused index beyond] at inside
  cases inside

theorem Extends.refl (owned : set.Owned) : set.Extends set :=
  ⟨owned, rfl, ⟨[], by simp⟩, fun _ _ => rfl, le_refl _, owned.orphans⟩

def unstamped (set : CatalogSet Name D) (transactionId : Nat) : Bool :=
  (set.names.all fun name =>
    (set.mapping name).all fun value => decide (value.timestamp ≠ transactionId)) &&
  (List.range set.currentEntry).all fun index =>
    (set.entries index).all fun entry => decide (entry.timestamp ≠ transactionId)

variable {extended : CatalogSet Name D}

theorem Extends.unstamped (left : set.Extends extended) {id : Nat}
    (positive : 0 < id) (clean : set.unstamped id = true) :
    extended.unstamped id = true := by
  obtain ⟨extra, namesEq, unmappedExtra⟩ := left.names
  simp only [CatalogSet.unstamped, and_eq_true, List.all_eq_true, decide_eq_true_eq, List.mem_range] at clean ⊢
  refine ⟨?_, ?_⟩
  · intro name known value inside
    rw [left.mapping] at inside
    rw [namesEq, mem_append] at known
    rcases known with old | new
    · exact clean.1 name old value inside
    · rw [unmappedExtra name new] at inside
      cases inside
  · intro index _ entry inside
    by_cases below : index < set.currentEntry
    · rw [left.entries index below] at inside
      exact clean.2 index below entry inside
    · have := left.orphans index (Nat.le_of_not_lt below) entry inside
      omega

variable [DecidableEq Name]

def anchored (lower : Name → Name) (set : CatalogSet Name D) (transaction : Transaction) :
    CatalogCall Name D → Bool
  | .create name _ _ _ =>
    (set.getMapping lower transaction name false).all fun value => value.deleted ||
      (set.entries value.index).head?.all fun current =>
        decide (current.name = name) && set.anchors value.index current
  | .alter name altered _ =>
    match set.getEntryInternal lower transaction name, altered with
    | .ok (some (index, entry)), .entry newName _ =>
      if newName = entry.name then set.anchors index entry else set.leadsTo entry.name index
    | _, _ => true
  | .drop name _ =>
    match set.getEntryInternal lower transaction name with
    | .ok (some (index, entry)) => set.anchors index entry
    | _ => true

def performAll (lower : Name → Name) (transaction : Transaction) :
    CatalogSet Name D → List (CatalogCall Name D) → Option (CatalogSet Name D × List Nat)
  | set, [] => some (set, [])
  | set, request :: rest =>
    match (set.call lower transaction request).answer with
    | .ok true =>
      (performAll lower transaction (set.call lower transaction request).set rest).map
        fun (final, pushed) =>
          (final, (set.call lower transaction request).pushed.toList ++ pushed)
    | _ => none

def anchoredAll (lower : Name → Name) (transaction : Transaction) :
    CatalogSet Name D → List (CatalogCall Name D) → Bool
  | _, [] => true
  | set, request :: rest => set.anchored lower transaction request &&
      anchoredAll lower transaction (set.call lower transaction request).set rest

/-! What a successful call did -/

def putValue (transaction : Transaction) (index : Nat) : MappingValue :=
  { index, timestamp := transaction.transactionId, deleted := false }

def deleteMarker (transaction : Transaction) (index : Nat) : MappingValue :=
  { index, timestamp := transaction.transactionId, deleted := true }

inductive Effect (transaction : Transaction) (set : CatalogSet Name D) :
    CallResult Name D → Prop
  | unchanged : Effect transaction set { set, pushed := none, answer := .ok true }
  | created (name : Name) (content : D) (internal : Bool) :
      Effect transaction set
        (((set.addDummy name).setMapping name
          (putValue transaction set.currentEntry :: set.mapping name)).replaceEntry transaction
            set.currentEntry (.object content) name false internal)
  | replaced {index : Nat} {current : CatalogEntry Name D} {older : List (CatalogEntry Name D)}
      (type : CatalogType D) (deleted internal : Bool) :
      set.entries index = current :: older → set.anchors index current = true →
      Effect transaction set
        (set.replaceEntry transaction index type current.name deleted internal)
  | renamed {index : Nat} {current : CatalogEntry Name D} {older : List (CatalogEntry Name D)}
      {name : Name} (content : D) :
      set.entries index = current :: older → name ≠ current.name →
      set.leadsTo current.name index = true →
      Effect transaction set
        (((set.setMapping name (putValue transaction index :: set.mapping name)).setMapping
          current.name (deleteMarker transaction index :: set.mapping current.name)).replaceEntry
            transaction index (.object content) name false false)

theorem createFresh_effect (succeeded : (set.createFresh transaction name content internal refused).answer = .ok true) :
    Effect transaction set (set.createFresh transaction name content internal refused) := by
  rw [createFresh] at succeeded ⊢
  split at succeeded
  · cases succeeded
  next mapped put =>
    rw [insertEntry_ok succeeded, putMapping_ok put]
    exact .created name content internal

variable {lower : Name → Name}

theorem createEntry_effect
    (succeeded : (set.createEntry lower transaction name content internal refused).answer = .ok true)
    (condition : set.anchored lower transaction (.create name content internal refused) = true) :
    Effect transaction set (set.createEntry lower transaction name content internal refused) := by
  rw [anchored] at condition
  rw [createEntry] at succeeded ⊢
  split at succeeded
  · exact createFresh_effect succeeded
  rename_i value mapped
  simp only [mapped, all_some, or_eq_true] at condition
  split at succeeded
  next gone =>
    rw [if_pos gone]
    exact createFresh_effect succeeded
  rename_i live
  rw [if_neg live]
  split at succeeded
  · cases succeeded
  rename_i current older chain
  have here := condition.resolve_left live
  simp only [chain, head?_cons, all_some, and_eq_true, decide_eq_true_eq] at here
  split at succeeded
  · cases succeeded
  rename_i free
  rw [if_neg free]
  split at succeeded
  next isDeleted =>
    rw [if_pos isDeleted, insertEntry_ok succeeded, ← here.1]
    exact .replaced _ _ _ chain here.2
  · cases succeeded

theorem alterEntry_effect {altered : Altered Name D}
    (succeeded : (set.alterEntry lower transaction name altered refused).answer = .ok true)
    (condition : set.anchored lower transaction (.alter name altered refused) = true) :
    Effect transaction set (set.alterEntry lower transaction name altered refused) := by
  rw [alterEntry] at succeeded ⊢
  split at succeeded
  · cases succeeded
  · cases succeeded
  rename_i index entry found
  obtain ⟨_, older, _, _, _, chain, _⟩ := getEntryInternal_ok found
  simp only [anchored, found] at condition
  split at succeeded
  · cases succeeded
  rename_i isUser
  rw [if_neg isUser]
  cases altered with
  | unsupported => cases succeeded
  | unchanged => exact .unchanged
  | entry newName content =>
    simp only at condition succeeded ⊢
    by_cases same : newName = entry.name
    · rw [if_pos same] at condition succeeded ⊢
      rw [replaceAltered_ok succeeded, same]
      exact .replaced _ _ _ chain condition
    rw [if_neg same] at condition succeeded ⊢
    obtain ⟨latest, rest, mapped, points⟩ := leadsTo_eq_true condition
    rw [renameEntry] at succeeded ⊢
    split at succeeded
    · cases succeeded
    rename_i vacant
    rw [if_neg vacant]
    split at succeeded
    · cases succeeded
    rename_i put
    rw [replaceAltered_ok succeeded, putMapping_ok put, deleteMapping]
    have stays : (set.setMapping newName (putValue transaction index ::
        set.mapping newName)).mapping entry.name = latest :: rest := by
      rw [setMapping_mapping, update_of_ne (Ne.symm same), mapped]
    have effect : Effect transaction set _ := .renamed content chain same condition
    rw [mapped] at effect
    rw [putValue] at stays
    simp only [stays, points]
    exact effect

theorem dropEntry_effect (succeeded : (set.dropEntry lower transaction name refused).answer = .ok true)
    (condition : set.anchored lower transaction (.drop name refused) = true) :
    Effect transaction set (set.dropEntry lower transaction name refused) := by
  rw [dropEntry] at succeeded ⊢
  split at succeeded
  · cases succeeded
  · cases succeeded
  rename_i index entry found
  obtain ⟨_, older, _, _, _, chain, _⟩ := getEntryInternal_ok found
  simp only [anchored, found] at condition
  split at succeeded
  · cases succeeded
  rename_i isUser
  rw [if_neg isUser]
  split at succeeded
  · cases succeeded
  next granted =>
    rw [if_neg granted]
    exact .replaced _ _ _ chain condition

variable {request : CatalogCall Name D}

theorem call_effect (succeeded : (set.call lower transaction request).answer = .ok true)
    (condition : set.anchored lower transaction request = true) :
    Effect transaction set (set.call lower transaction request) := by
  cases request with
  | create name content internal refused => exact createEntry_effect succeeded condition
  | alter name altered refused => exact alterEntry_effect succeeded condition
  | drop name refused => exact dropEntry_effect succeeded condition

/-! Undoing a call -/

variable {chain : List MappingValue}

theorem setMapping_names (set : CatalogSet Name D) {name : Name} :
    ∃ extra, (set.setMapping name chain).names = set.names ++ extra ∧ ∀ other ∈ extra, other ∉ set.names := by
  rw [setMapping]
  by_cases known : name ∈ set.names
  · exact ⟨[], by simp [known]⟩
  · exact ⟨[name], by simp [known]⟩

variable {value : MappingValue}

theorem unmapped_of_setMapping {other : Name} (none : (set.setMapping name (value :: chain)).mapping other = []) :
    set.mapping other = [] := by
  by_cases same : other = name
  · rw [same, setMapping_mapping, update_self] at none
    cases none
  · rwa [setMapping_mapping, update_of_ne same] at none

theorem popMapping_eq (owned : set.Owned) (present : set.mapping name ≠ []) : set.popMapping name =
      { set with mapping := update set.mapping name (set.mapping name).tail } := by
  rw [popMapping, setMapping, if_pos (owned.named name present)]

def unmapped (mapping : Name → List MappingValue) (entry : CatalogEntry Name D) (name : Name) :
    Name → List MappingValue :=
  if entry.name = name then mapping else update mapping name (mapping name).tail

def remapped (mapping : Name → List MappingValue) (entry : CatalogEntry Name D) :
    Name → List MappingValue :=
  if entry.type.isInvalid || (mapping entry.name).head?.any MappingValue.deleted then
    update mapping entry.name (mapping entry.name).tail
  else mapping

variable {latest : MappingValue}

theorem undo_root (owned : set.Owned) {parent : CatalogEntry Name D}
    {below : List (CatalogEntry Name D)} (chain : set.entries index = parent :: entry :: below)
    (present : set.mapping parent.name ≠ []) {older : List MappingValue}
    (mapped : unmapped set.mapping entry parent.name entry.name = latest :: older)
    (points : latest.index = index) : set.undo entry.address = some { set with
      mapping := remapped (unmapped set.mapping entry parent.name) entry
      entries := update set.entries index (entry :: below) } := by
  have found : set.locate entry.address = some (index, { above := [], parent, entry, below }) :=
    owned.locate { above := [], parent, entry, below } chain
  have clearing : (if entry.name = parent.name then set else set.popMapping parent.name) =
      { set with mapping := unmapped set.mapping entry parent.name } := by
    rw [popMapping_eq owned present, unmapped]
    split <;> rfl
  have cleared : { set with mapping := unmapped set.mapping entry parent.name }.Owned := by
    rw [← clearing]
    split
    · exact owned
    · exact owned.popMapping
  have named : entry.name ∈ set.names := cleared.named entry.name (by simp [mapped])
  rw [undo, found]
  simp only [bind_eq_bind, bind_some, clearing]
  simp only [bind_some, restoreEntry, restoreMapping, mapped, remapped,
    head?_cons, map_some, any_some, points, CatalogSet.setEntries, update_idem, popMapping,
    setMapping, named, if_true]
  cases entry.type <;> cases latest.deleted <;> rfl

/-- What the call pushed is undone on every set that differs from its result by orphans. -/
def TakesBack (set : CatalogSet Name D) (result : CallResult Name D) : Prop :=
  ∀ extended, result.set.Extends extended →
    ∃ restored, extended.undoAll result.pushed.toList = some restored ∧ set.Extends restored

variable {type : CatalogType D} {current : CatalogEntry Name D} {older : List (CatalogEntry Name D)}
  {deleted : Bool}

theorem takesBack_replaceEntry {prepared : CatalogSet Name D} {rest : List MappingValue}
    (chain : prepared.entries index = current :: older) (room : index < prepared.currentEntry)
    (present : prepared.mapping name ≠ [])
    (mapped : unmapped prepared.mapping current name current.name = latest :: rest)
    (points : latest.index = index)
    (returns : remapped (unmapped prepared.mapping current name) current = set.mapping)
    (keepsNames : ∃ extra, prepared.names = set.names ++ extra ∧ ∀ other ∈ extra, set.mapping other = [])
    (keepsMapped : ∀ other, prepared.mapping other = [] → set.mapping other = [])
    (keepsEntries : ∀ other < set.currentEntry, prepared.entries other = set.entries other)
    (more : set.currentEntry ≤ prepared.currentEntry) (dummies : ∀ other, set.currentEntry ≤ other →
      ∀ entry ∈ prepared.entries other, entry.timestamp = 0) :
    set.TakesBack (prepared.replaceEntry transaction index type name deleted internal) := by
  rw [replaceEntry_eq chain]
  intro extended left
  have mappingEq : extended.mapping = prepared.mapping := left.mapping
  rw [← mappingEq] at mapped present returns
  have undone := undo_root left.owned ((left.entries index room).trans (update_self ..)) present mapped points
  have entriesEq : ∀ other < prepared.currentEntry,
      update extended.entries index (current :: older) other = prepared.entries other := by
    intro other known
    by_cases same : other = index
    · rw [same, update_self, chain]
    · rw [update_of_ne same, left.entries other known]
      exact update_of_ne same ..
  refine ⟨_, by simpa [undoAll] using undone, left.owned.undo undone, returns, ?_, ?_, more.trans left.more, ?_⟩
  · obtain ⟨extra, namesEq, unmappedExtra⟩ := keepsNames
    obtain ⟨later, laterEq, unmappedLater⟩ := left.names
    refine ⟨extra ++ later, by rw [laterEq, ← append_assoc, ← namesEq]; rfl, ?_⟩
    intro other inside
    rcases mem_append.mp inside with early | late
    · exact unmappedExtra other early
    · exact keepsMapped other (unmappedLater other late)
  · intro other below
    exact (entriesEq other (by omega)).trans (keepsEntries other below)
  · intro other beyond entry inside
    change entry ∈ update extended.entries index (current :: older) other at inside
    by_cases known : other < prepared.currentEntry
    · rw [entriesEq other known] at inside
      exact dummies other beyond entry inside
    · rw [update_of_ne (by omega)] at inside
      exact left.orphans other (Nat.le_of_not_lt known) entry inside

theorem takesBack_replaced (owned : set.Owned) (chain : set.entries index = current :: older)
    (isAnchored : set.anchors index current = true) :
    set.TakesBack (set.replaceEntry transaction index type current.name deleted internal) := by
  obtain ⟨valid, latest, rest, mapped, points, live⟩ := anchors_eq_true isAnchored
  have kept : unmapped set.mapping current current.name = set.mapping := if_pos rfl
  refine takesBack_replaceEntry chain (owned.room (by rw [chain]; exact mem_cons_self))
    (by rw [mapped]; exact cons_ne_nil _ _) (by rw [kept, mapped]) points ?_ ⟨[], by simp⟩
    (fun _ none => none) (fun _ _ => rfl) (le_refl _) owned.orphans
  rw [kept, remapped, mapped, valid, head?_cons, any_some, live]
  rfl

theorem takesBack_created (owned : set.Owned) : set.TakesBack (((set.addDummy name).setMapping name
      (putValue transaction set.currentEntry :: set.mapping name)).replaceEntry transaction
        set.currentEntry (.object content) name false internal) := by
  let dummy : CatalogEntry Name D := {
    address := set.nextAddress, type := .invalid, name, timestamp := 0, deleted := true,
    internal := false }
  let prepared := (set.addDummy name).setMapping name (putValue transaction set.currentEntry :: set.mapping name)
  have chain : prepared.entries set.currentEntry = [dummy] := update_self ..
  have named : prepared.mapping name = putValue transaction set.currentEntry :: set.mapping name := update_self ..
  have kept : unmapped prepared.mapping dummy name = prepared.mapping := if_pos rfl
  refine takesBack_replaceEntry chain (Nat.lt_succ_self _)
    (by rw [named]; exact cons_ne_nil _ _) (by rw [kept]; exact named) rfl ?_ ?_
    (fun _ => unmapped_of_setMapping) ?_ (Nat.le_succ _) ?_
  · rw [kept, remapped]
    rw [named, tail_cons]
    exact (update_idem ..).trans (update_eq_self ..)
  · obtain ⟨extra, namesEq, onlyNew⟩ := (set.addDummy name).setMapping_names

    refine ⟨extra, namesEq, ?_⟩
    intro other inside
    by_contra mapped
    exact onlyNew other inside (owned.named other mapped)
  · exact fun other below => update_of_ne (ne_of_lt below) ..
  · intro other beyond entry inside
    by_cases same : other = set.currentEntry
    · subst other
      rw [chain, mem_singleton] at inside
      rw [inside]
    · have unchanged : prepared.entries other = set.entries other := update_of_ne same ..
      rw [unchanged] at inside
      exact owned.orphans other beyond entry inside

theorem takesBack_renamed (owned : set.Owned) (chain : set.entries index = current :: older)
    (different : name ≠ current.name) :
    set.TakesBack (((set.setMapping name (putValue transaction index ::
      set.mapping name)).setMapping current.name (deleteMarker transaction index ::
        set.mapping current.name)).replaceEntry transaction index (.object content) name false false) := by
  let put := set.setMapping name (putValue transaction index :: set.mapping name)
  let prepared := put.setMapping current.name (deleteMarker transaction index :: set.mapping current.name)
  have preparedChain : prepared.entries index = current :: older := chain
  have named : prepared.mapping name = putValue transaction index :: set.mapping name :=
    (update_of_ne different ..).trans (update_self ..)
  have marked : prepared.mapping current.name =
      deleteMarker transaction index :: set.mapping current.name := update_self ..
  have cleared : unmapped prepared.mapping current name = update prepared.mapping name (set.mapping name) := by
    rw [unmapped, if_neg (Ne.symm different), named]
    rfl
  have stillMarked : unmapped prepared.mapping current name current.name =
      deleteMarker transaction index :: set.mapping current.name := by
    rw [cleared, update_of_ne (Ne.symm different), marked]
  refine takesBack_replaceEntry preparedChain (owned.room (by rw [chain]; exact mem_cons_self))
    (by rw [named]; exact cons_ne_nil _ _) stillMarked rfl ?_ ?_
    (fun _ none => unmapped_of_setMapping (unmapped_of_setMapping none)) (fun _ _ => rfl)
    (le_refl _) owned.orphans
  · have popped : remapped (unmapped prepared.mapping current name) current =
        update (unmapped prepared.mapping current name) current.name (set.mapping current.name) := by
      rw [remapped, stillMarked]
      exact if_pos (Bool.or_true _)
    rw [popped, cleared, update_comm different]
    change update (update (update put.mapping current.name _) current.name _) name _ = _
    rw [update_idem, update_comm (Ne.symm different)]
    change update (update (update set.mapping name _) name _) _ _ = _
    rw [update_idem, update_eq_self, update_eq_self]
  · obtain ⟨first, firstEq, onlyFirst⟩ := set.setMapping_names
    obtain ⟨second, secondEq, onlySecond⟩ := put.setMapping_names

    refine ⟨first ++ second, ?_, ?_⟩
    · rw [← append_assoc, ← firstEq]
      exact secondEq
    intro other inside
    by_contra mapped
    have known := owned.named other mapped
    rcases mem_append.mp inside with early | late
    · exact onlyFirst other early known
    · apply onlySecond other late
      rw [mem_setMapping_names]
      exact .inl known

theorem Effect.takesBack {result : CallResult Name D} (owned : set.Owned)
    (effect : Effect transaction set result) : set.TakesBack result := by
  cases effect with
  | unchanged => exact fun extended left => ⟨extended, rfl, left⟩
  | created name content internal => exact takesBack_created owned
  | replaced type deleted internal chain isAnchored =>
    exact takesBack_replaced owned chain isAnchored
  | renamed content chain different leads => exact takesBack_renamed owned chain different

/-! Answers of the set that is left -/

theorem putMapping_eq : set.putMapping transaction name index =
      if (set.mapping name).head?.any fun latest => hasConflict transaction latest.timestamp then
        .error (.conflictOnName name)
      else .ok (set.setMapping name (putValue transaction index :: set.mapping name)) := by
  rw [putMapping]
  cases set.mapping name <;> rfl

theorem createFresh_answer : (set.createFresh transaction name content internal refused).answer =
      if (set.mapping name).head?.any fun latest => hasConflict transaction latest.timestamp then
        .error (.conflictOnName name) else if refused then .error .dependency else .ok true := by
  have mapped : (set.addDummy name).mapping = set.mapping := rfl
  rw [createFresh, putMapping_eq, mapped]
  cases (set.mapping name).head?.any fun latest => hasConflict transaction latest.timestamp with
  | true => rfl
  | false =>
    change (insertEntry _ transaction set.currentEntry name content internal refused).answer = _
    rw [insertEntry, if_neg Bool.false_ne_true]
    split
    · rfl
    · rw [replaceEntry_eq (update_self ..)]

theorem deleteMapping_entries : (set.deleteMapping transaction name).entries = set.entries := by
  rw [deleteMapping]
  split <;> rfl

theorem createDefault_answer : (set.createDefault transaction name content).2 =
      if (set.mapping name).head?.any fun latest => hasConflict transaction latest.timestamp then
        .error (.conflictOnName name) else .ok (some content) := by
  rw [createDefault]
  simp only [putMapping_eq]
  cases (set.mapping name).head?.any fun latest => hasConflict transaction latest.timestamp <;> rfl

namespace Extends

variable {extended : CatalogSet Name D} (left : set.Extends extended) (owned : set.Owned)
  {allowLowercaseAlias : Bool}
include left

theorem mappingOf :
    extended.mappingOf lower name allowLowercaseAlias = set.mappingOf lower name allowLowercaseAlias := by
  obtain ⟨extra, namesEq, unmappedExtra⟩ := left.names
  have noCandidate : (extra.filter fun key =>
      decide (set.mapping key ≠ []) && decide (lower key = lower name)) = [] := by
    apply filter_eq_nil_iff.mpr
    intro key inside
    simp [unmappedExtra key inside]
  rw [CatalogSet.mappingOf, CatalogSet.mappingOf, left.mapping, namesEq, filter_append, noCandidate, append_nil]

theorem getMapping : extended.getMapping lower transaction name allowLowercaseAlias =
      set.getMapping lower transaction name allowLowercaseAlias := by
  rw [CatalogSet.getMapping, CatalogSet.getMapping, left.mappingOf]

include owned

theorem entries_of_mapped (mapped : set.getMapping lower transaction name allowLowercaseAlias = some value) :
    extended.entries value.index = set.entries value.index := by
  have inside := pick_mem mapped
  apply left.entries
  rw [CatalogSet.mappingOf] at inside
  split at inside
  · split at inside
    · split at inside
      · exact owned.bounded _ value inside
      · cases inside
    · cases inside
  next chain =>
    rw [← chain] at inside
    exact owned.bounded _ value inside

theorem getEntryInternal : extended.getEntryInternal lower transaction name =
      set.getEntryInternal lower transaction name := by
  rw [CatalogSet.getEntryInternal, CatalogSet.getEntryInternal, left.getMapping]
  cases mapped : set.getMapping lower transaction name true with
  | none => rfl
  | some value => simp only [left.entries_of_mapped owned mapped]

theorem nameTaken : extended.nameTaken lower transaction name = set.nameTaken lower transaction name := by
  rw [CatalogSet.nameTaken, CatalogSet.nameTaken, left.getMapping]
  cases mapped : set.getMapping lower transaction name true with
  | none => rfl
  | some value =>
    simp only [getEntryForTransaction, left.entries_of_mapped owned mapped]

theorem getEntry {defaults : Name → Option D} : (extended.getEntry lower defaults transaction name).2 =
      (set.getEntry lower defaults transaction name).2 := by
  have missing : (extended.noEntry defaults transaction name).2 = (set.noEntry defaults transaction name).2 := by
    rw [noEntry, noEntry]
    cases defaults name with
    | none => rfl
    | some content => simp only [createDefault_answer, left.mapping]
  rw [CatalogSet.getEntry, CatalogSet.getEntry, left.getMapping]
  cases mapped : set.getMapping lower transaction name true with
  | none => exact missing
  | some value =>
    simp only [getEntryForTransaction, left.entries_of_mapped owned mapped]
    split
    · exact missing
    · split
      · rfl
      · split <;> rfl

theorem entries_of_found {index : Nat} {entry : CatalogEntry Name D}
    (found : set.getEntryInternal lower transaction name = .ok (some (index, entry))) :
    extended.entries index = set.entries index := by
  obtain ⟨_, older, _, _, _, chain, _⟩ := getEntryInternal_ok found
  exact left.entries index (owned.room (by rw [chain]; exact mem_cons_self))

theorem call_answer : (extended.call lower transaction request).answer =
      (set.call lower transaction request).answer := by
  cases request with
  | create name content internal refused =>
    rw [call, call, createEntry, createEntry, left.getMapping]
    cases mapped : set.getMapping lower transaction name false with
    | none => simp only [createFresh_answer, left.mapping]
    | some value =>
      have same := left.entries_of_mapped owned mapped
      simp only [same]
      split
      · simp only [createFresh_answer, left.mapping]
      split
      · rfl
      split
      · rfl
      split
      · exact insertEntry_answer same
      · rfl
  | alter name altered refused =>
    rw [call, call, alterEntry, alterEntry, left.getEntryInternal owned]
    split
    · rfl
    · rfl
    rename_i index entry found
    have same := left.entries_of_found owned found
    split
    · rfl
    cases altered with
    | unsupported => rfl
    | unchanged => rfl
    | entry newName content =>
      simp only
      split
      · exact insertEntry_answer same
      rw [renameEntry, renameEntry, left.nameTaken owned, putMapping_eq, putMapping_eq, left.mapping]
      split
      · rfl
      cases (set.mapping newName).head?.any fun latest =>
          hasConflict transaction latest.timestamp with
      | true => rfl
      | false =>
        refine insertEntry_answer ?_
        rw [deleteMapping_entries, deleteMapping_entries]
        exact same
  | drop name refused =>
    rw [call, call, dropEntry, dropEntry, left.getEntryInternal owned]
    split
    · rfl
    · rfl
    rename_i index entry found
    split
    · rfl
    · split
      · rfl
      · exact replaceEntry_answer (left.entries_of_found owned found)

end Extends

/-! Rolling back a sequence of calls -/

variable {final : CatalogSet Name D} {requests : List (CatalogCall Name D)} {pushed : List Nat}

theorem performAll_undo (owned : set.Owned)
    (performed : performAll lower transaction set requests = some (final, pushed)) : final.Owned ∧
      (anchoredAll lower transaction set requests = true → ∀ extended, final.Extends extended →
        ∃ restored, extended.undoAll pushed = some restored ∧ set.Extends restored) := by
  -- the calls are undone from the last to the first, each on the set that the later ones left
  induction requests generalizing set pushed with
  | nil =>
    cases performed
    exact ⟨owned, fun _ extended left => ⟨extended, rfl, left⟩⟩
  | cons request rest ih =>
    rw [performAll] at performed
    split at performed
    next succeeded =>
      obtain ⟨⟨last, later⟩, laterPerformed, same⟩ := map_eq_some_iff.mp performed
      obtain ⟨rfl, rfl⟩ := Prod.mk.inj same
      obtain ⟨lastOwned, undoes⟩ := ih owned.call laterPerformed
      refine ⟨lastOwned, fun condition extended left => ?_⟩
      rw [anchoredAll, and_eq_true] at condition
      obtain ⟨middle, laterUndone, middleLeft⟩ := undoes condition.2 extended left
      obtain ⟨restored, undone, restoredLeft⟩ := (call_effect succeeded condition.1).takesBack owned middle middleLeft
      refine ⟨restored, ?_, restoredLeft⟩
      rw [undoAll] at laterUndone
      rw [undoAll, reverse_append, foldlM_append, laterUndone]
      exact undone
    · cases performed

/-- Lookups and the answers to further calls are those of the set before, for every other
transaction, and no stamp of the transaction is left. -/
def TakenBack (lower : Name → Name) (defaults : Name → Option D) (transaction : Transaction)
    (set final : CatalogSet Name D) (pushed : List Nat) : Prop :=
  ∃ restored, final.undoAll pushed = some restored ∧
    (∀ other : Transaction, other.transactionId ≠ transaction.transactionId →
      (∀ name, (restored.getEntry lower defaults other name).2 =
        (set.getEntry lower defaults other name).2) ∧
      ∀ request, (restored.call lower other request).answer =
        (set.call lower other request).answer) ∧
    restored.unstamped transaction.transactionId = true

end CatalogSet

namespace CatalogState

open CatalogSet

variable {Name D : Type} [DecidableEq Name]

def contended : List (CatalogAction Nat Nat) := [
  .start,
  .call transactionIdStart (.create 0 10 false false),
  .call transactionIdStart (.create 1 11 false false),
  .commit transactionIdStart,
  .start,
  .call (transactionIdStart + 1) (.drop 0 false),
  .commit (transactionIdStart + 1),
  .start,
  .call (transactionIdStart + 2) (.alter 1 (.entry 0 11) false),
  .start,
  .start]

def opened (start number : Nat) : Transaction := {
  startTime := start
  transactionId := transactionIdStart + number
  commitId := 0
  highestActiveQuery := 0
  activeQuery := maximumQueryId
}

def twoEntries : List (CatalogAction Nat Nat) := [
  .start,
  .call transactionIdStart (.create 0 10 false false),
  .call transactionIdStart (.create 1 11 false false),
  .commit transactionIdStart,
  .start]

end CatalogState

end GuinsooDB
