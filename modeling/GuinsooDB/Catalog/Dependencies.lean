import GuinsooDB.Catalog.Set

/-!
`CatalogSet::AlterEntry` with the dependency manager, whose entries are in several sets. A version
of an entry is known by its set and its address. A version of a table has a data table, which it
can share with others.
-/

namespace GuinsooDB

open CatalogSet Function

structure Dependency (S : Type) where
  entry : S × Nat
  requiresCascade : Bool
  deriving Repr, DecidableEq

structure Catalog (S Name D : Type) where
  sets : S → CatalogSet Name D
  undo : Nat → List (S × Nat)
  dependents : S × Nat → List (Dependency S)
  dependencies : S × Nat → List (S × Nat)
  isRoot : Nat → Bool

/-- What `CatalogEntry::AlterEntry` did: throw, return no entry, or return a version with another
name or with other columns, for which a table can need a new data table. -/
inductive AlteredEntry (Name D : Type) where
  | unsupported
  | unchanged
  | rename (name : Name) (content : D)
  | replace (content : D) (newStorage : Bool)
  deriving Repr, DecidableEq

namespace Catalog

variable {S Name D : Type}

def initial : Catalog S Name D := {
  sets := fun _ => .initial
  undo := fun _ => []
  dependents := fun _ => []
  dependencies := fun _ => []
  isRoot := fun _ => true
}

def findObject (catalog : Catalog S Name D) (object : S × Nat) : Option (CatalogEntry Name D) :=
  (List.range (catalog.sets object.1).currentEntry).findSome? fun index =>
    ((catalog.sets object.1).entries index).find? fun entry => entry.address = object.2

/-- The constructors of `DataTable` that take a parent end its time as the root. -/
def replaceStorage (storage : D → Nat) (catalog : Catalog S Name D) (entry : CatalogEntry Name D) :
    Catalog S Name D :=
  match entry.type.content with
  | none => catalog
  | some content =>
    { catalog with isRoot := update catalog.isRoot (storage content) false }

def ReplacesRoot (storage : D → Nat) (catalog : Catalog S Name D) (entry : CatalogEntry Name D) :
    Prop :=
  ∃ content, entry.type.content = some content ∧ catalog.isRoot (storage content) = true

variable {catalog original : Catalog S Name D} {entry : CatalogEntry Name D} {storage : D → Nat}

theorem replaceStorage_frame {catalog : Catalog S Name D}
    {entry : CatalogEntry Name D} : (catalog.replaceStorage storage entry).sets = catalog.sets ∧
      (catalog.replaceStorage storage entry).dependents = catalog.dependents := by
  rw [replaceStorage]
  cases entry.type.content with
  | none => exact ⟨rfl, rfl⟩
  | some content => exact ⟨rfl, rfl⟩

theorem replaceStorage_eq_self_iff :
    catalog.replaceStorage storage entry = catalog ↔ ¬catalog.ReplacesRoot storage entry := by
  rw [replaceStorage, ReplacesRoot]
  cases entry.type.content with
  | none => simp
  | some content =>
    constructor
    · intro same
      have := congrFun (congrArg Catalog.isRoot same) (storage content)
      simpa using this.symm
    · intro notRoot
      have stale : catalog.isRoot (storage content) = false := by simpa using notRoot
      simp [← stale]

variable [DecidableEq Name]

def checkDependents (lower : Name → Name) (catalog : Catalog S Name D) (transaction : Transaction) :
    List (Dependency S) → Except (CatalogError Name) Unit
  | [] => .ok ()
  | dependency :: rest =>
    match catalog.findObject dependency.entry with
    | none => .error .nullEntry
    | some object =>
      match (catalog.sets dependency.entry.1).getEntryInternal lower transaction object.name with
      | .error error => .error error
      | .ok none => checkDependents lower catalog transaction rest
      | .ok (some _) => .error .dependency

def Refused (lower : Name → Name) (catalog : Catalog S Name D) (transaction : Transaction)
    (object : S × Nat) : Prop :=
  catalog.checkDependents lower transaction (catalog.dependents object) ≠ .ok ()

variable {lower : Name → Name} {storage : D → Nat} {transaction : Transaction} {setId : S}

theorem checkDependents_congr {other : Catalog S Name D} (same : other.sets = catalog.sets)
    (listed : List (Dependency S)) : other.checkDependents lower transaction listed =
      catalog.checkDependents lower transaction listed := by
  induction listed with
  | nil => rfl
  | cons dependency rest ih => simp only [checkDependents, findObject, same, ih]

variable [DecidableEq S]

def setSet (catalog : Catalog S Name D) (setId : S) (set : CatalogSet Name D) : Catalog S Name D :=
  { catalog with sets := update catalog.sets setId set }

def pushEntry (catalog : Catalog S Name D) (transaction : Transaction) (setId : S)
    (pushed : Option Nat) : Catalog S Name D :=
  { catalog with
    undo := update catalog.undo transaction.transactionId
      (catalog.undo transaction.transactionId ++ pushed.toList.map fun address => (setId, address)) }

def link (catalog : Catalog S Name D) (object : S × Nat) (dependencies : List (S × Nat))
    (requiresCascade : Bool) : Catalog S Name D :=
  { catalog with
    dependents := update (dependencies.foldl (fun dependents dependency =>
      update dependents dependency
        (dependents dependency ++ [{ entry := object, requiresCascade }])) catalog.dependents) object []
    dependencies := update catalog.dependencies object dependencies }

def createEntry (lower : Name → Name) (catalog : Catalog S Name D) (transaction : Transaction)
    (setId : S) (name : Name) (content : D) (internal : Bool) (dependencies : List (S × Nat))
    (isIndex refused : Bool) : Catalog S Name D :=
  let result := (catalog.sets setId).createEntry lower transaction name content internal refused
  let created := (catalog.setSet setId result.set).pushEntry transaction setId result.pushed
  match result.pushed with
  | none => created
  | some _ => created.link (setId, result.set.nextAddress - 1) dependencies !isIndex

def alterObject (lower : Name → Name) (catalog : Catalog S Name D) (transaction : Transaction)
    (setId : S) (index : Nat) (entry : CatalogEntry Name D) (name : Name) (content : D) :
    Catalog S Name D × Except (CatalogError Name) Bool :=
  let old := (setId, entry.address)
  match catalog.checkDependents lower transaction (catalog.dependents old) with
  | .error error => (catalog, .error error)
  | .ok () =>
    let linked := catalog.link (setId, (catalog.sets setId).nextAddress) (catalog.dependencies old)
      true
    let result := (linked.sets setId).replaceEntry transaction index (.object content) name false
      false
    ((linked.setSet setId result.set).pushEntry transaction setId result.pushed, result.answer)

def alterEntry (lower : Name → Name) (storage : D → Nat) (catalog : Catalog S Name D)
    (transaction : Transaction) (setId : S) (name : Name) (altered : AlteredEntry Name D) :
    Catalog S Name D × Except (CatalogError Name) Bool :=
  match (catalog.sets setId).getEntryInternal lower transaction name with
  | .error error => (catalog, .error error)
  | .ok none => (catalog, .ok false)
  | .ok (some (index, entry)) =>
    if entry.internal then (catalog, .error (.internalAlter entry.name))
    else
      match altered with
      | .unsupported => (catalog, .error .unsupportedAlter)
      | .unchanged => (catalog, .ok true)
      | .replace content newStorage =>
        let replaced := if newStorage then catalog.replaceStorage storage entry else catalog
        replaced.alterObject lower transaction setId index entry entry.name content
      | .rename newName content =>
        if newName = entry.name then
          catalog.alterObject lower transaction setId index entry newName content
        else if (catalog.sets setId).nameTaken lower transaction newName then
          (catalog, .error (.renameTaken entry.name newName))
        else
          match (catalog.sets setId).putMapping transaction newName index with
          | .error error => (catalog, .error error)
          | .ok mapped =>
            (catalog.setSet setId (mapped.deleteMapping transaction entry.name)).alterObject lower
              transaction setId index entry newName content

/-- An `AlterEntry` that throws leaves the mappings, the entries, the undo buffer, the dependency
maps and the tables as they were. -/
def FailsCleanly (lower : Name → Name) (storage : D → Nat) (catalog : Catalog S Name D)
    (transaction : Transaction) (setId : S) (name : Name) (altered : AlteredEntry Name D) : Prop :=
  ∀ error, (catalog.alterEntry lower storage transaction setId name altered).2 = .error error →
    (catalog.alterEntry lower storage transaction setId name altered).1 = catalog

/-- The dependency manager refuses the alter of an entry after a mapping for another name was put,
or after a new data table was made. -/
def RefusedAfter (lower : Name → Name) (storage : D → Nat) (catalog : Catalog S Name D)
    (transaction : Transaction) (setId : S) (index : Nat) (entry : CatalogEntry Name D) :
    AlteredEntry Name D → Prop
  | .unsupported | .unchanged | .replace _ false => False
  | .replace _ true => catalog.ReplacesRoot storage entry ∧
      catalog.Refused lower transaction (setId, entry.address)
  | .rename newName _ => newName ≠ entry.name ∧
      (catalog.sets setId).nameTaken lower transaction newName = false ∧
      ∃ mapped, (catalog.sets setId).putMapping transaction newName index = .ok mapped ∧
        (catalog.setSet setId (mapped.deleteMapping transaction entry.name)).Refused lower
          transaction (setId, entry.address)

def RefusedLate (lower : Name → Name) (storage : D → Nat) (catalog : Catalog S Name D)
    (transaction : Transaction) (setId : S) (name : Name) (altered : AlteredEntry Name D) : Prop :=
  ∃ index entry,
    (catalog.sets setId).getEntryInternal lower transaction name = .ok (some (index, entry)) ∧
      entry.internal = false ∧
      catalog.RefusedAfter lower storage transaction setId index entry altered

variable {name : Name} {index : Nat}

variable {newName : Name} {content : D}

variable (nonempty : (catalog.sets setId).entries index ≠ [])

include nonempty in
theorem alterObject_clean :
    (∀ error, (catalog.alterObject lower transaction setId index entry newName content).2 = .error error →
      (catalog.alterObject lower transaction setId index entry newName content).1 = original) ↔
    (catalog.Refused lower transaction (setId, entry.address) → catalog = original) := by
  rw [alterObject, Refused]
  cases checked : catalog.checkDependents lower transaction (catalog.dependents (setId, entry.address)) with
  | error error => simp
  | ok done =>
    obtain ⟨current, older, chain⟩ := List.exists_cons_of_ne_nil nonempty
    simp [link, replaceEntry, chain]

variable {set : CatalogSet Name D}

theorem getEntryInternal_nonempty (found : set.getEntryInternal lower transaction name = .ok (some (index, entry))) :
    set.entries index ≠ [] := by
  rw [getEntryInternal] at found
  intro isEmpty
  split at found
  · cases found
  split at found
  · cases found
  split at found
  · cases found
  next chain =>
    split at found
    · cases found
    split at found
    · cases found
    · cases found
      rw [isEmpty] at chain
      cases chain

variable {mapped : CatalogSet Name D}

theorem renamed_ne (apart : newName ≠ entry.name) (put : set.putMapping transaction newName index = .ok mapped) :
    mapped.deleteMapping transaction entry.name ≠ set := by
  have grown : (mapped.mapping newName).length = (set.mapping newName).length + 1 := by
    rw [putMapping] at put
    split at put
    · next none => cases put; simp [setMapping, none]
    · next some =>
        split at put
        · cases put
        · cases put; simp [setMapping, some]
  have kept : (mapped.deleteMapping transaction entry.name).mapping newName = mapped.mapping newName := by
    rw [deleteMapping]
    split
    · rfl
    · exact update_of_ne apart ..
  intro same
  rw [← kept, same] at grown
  omega

omit [DecidableEq Name] in
theorem setSet_eq_self_iff : catalog.setSet setId set = catalog ↔ set = catalog.sets setId := by
  constructor
  · intro same
    have := congrFun (congrArg Catalog.sets same) setId
    simpa [setSet] using this
  · rintro rfl
    simp [setSet]

include nonempty in
theorem replaced_clean :
    (∀ error, ((catalog.replaceStorage storage entry).alterObject lower transaction setId index entry
        entry.name content).2 = .error error →
      ((catalog.replaceStorage storage entry).alterObject lower transaction setId index entry
        entry.name content).1 = catalog) ↔ ¬(catalog.ReplacesRoot storage entry ∧
      catalog.Refused lower transaction (setId, entry.address)) := by
  obtain ⟨sets, dependents⟩ := replaceStorage_frame
  rw [alterObject_clean (by rwa [sets]), replaceStorage_eq_self_iff, Refused,
    checkDependents_congr sets, dependents, Refused]
  tauto

include nonempty in
theorem renamed_clean (apart : newName ≠ entry.name)
    (put : (catalog.sets setId).putMapping transaction newName index = .ok mapped) :
    (∀ error, ((catalog.setSet setId (mapped.deleteMapping transaction entry.name)).alterObject lower
        transaction setId index entry newName content).2 = .error error →
      ((catalog.setSet setId (mapped.deleteMapping transaction entry.name)).alterObject lower
        transaction setId index entry newName content).1 = catalog) ↔
    ¬(catalog.setSet setId (mapped.deleteMapping transaction entry.name)).Refused lower transaction
      (setId, entry.address) := by
  have kept : (mapped.deleteMapping transaction entry.name).entries = (catalog.sets setId).entries := by
    have mappedKept : mapped.entries = (catalog.sets setId).entries := by
      rw [putMapping] at put
      split at put
      · cases put; rfl
      · split at put
        · cases put
        · cases put; rfl
    rw [← mappedKept, deleteMapping]
    split <;> rfl
  rw [alterObject_clean (by simpa [setSet, kept] using nonempty), setSet_eq_self_iff]
  simp [renamed_ne apart put]

def preparer : Transaction where
  startTime := 0
  transactionId := transactionIdStart
  commitId := 0
  highestActiveQuery := 0
  activeQuery := maximumQueryId

def preparedOnTable : Catalog Bool String Nat :=
  ((initial.createEntry id preparer false "t" 0 false [] false false).createEntry id preparer
    true "p" 1 false [(false, 1)] false false)

end Catalog

end GuinsooDB
