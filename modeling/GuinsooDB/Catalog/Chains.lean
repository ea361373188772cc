import GuinsooDB.Catalog.Set
import GuinsooDB.Library.Transition

/-!
Every entry version has one owner: no address stands twice in the chains. An address in an
undo buffer therefore leads back to the one chain and the one place where its entry is.
-/

namespace GuinsooDB

open List Function Option TransactionManager Or
open List (nodup_cons map_cons mem_cons_self mem_cons mem_map)
open Function (update)

namespace CatalogSet

variable {Name D : Type}

/-! Cutting a chain -/

variable {cut : Cut Name D} {chain : List (CatalogEntry Name D)} {address : Nat}

theorem cutAt_eq_some (found : cutAt address chain = some cut) :
    chain = cut.above ++ cut.parent :: cut.entry :: cut.below ∧ cut.entry.address = address := by
  induction chain generalizing cut with
  | nil => cases found
  | cons parent rest ih =>
    cases rest with
    | nil => cases found
    | cons entry below =>
      rw [cutAt] at found
      split at found
      next here =>
        cases found
        exact ⟨rfl, here⟩
      · obtain ⟨inner, innerFound, same⟩ := map_eq_some_iff.mp found
        obtain ⟨split, addressed⟩ := ih innerFound
        subst cut
        exact ⟨by rw [split]; rfl, addressed⟩

theorem cutAt_of_split {above below : List (CatalogEntry Name D)} {parent entry : CatalogEntry Name D}
    (distinct : ((above ++ parent :: entry :: below).map CatalogEntry.address).Nodup) :
    cutAt entry.address (above ++ parent :: entry :: below) = some { above, parent, entry, below } := by
  induction above with
  | nil => rw [nil_append, cutAt, if_pos rfl]
  | cons first rest ih =>
    have tailDistinct := (nodup_cons.mp distinct).2
    have inner := ih tailDistinct
    cases rest with
    | nil =>
      have parentApart : parent.address ≠ entry.address := by
        intro same
        have := (nodup_cons.mp tailDistinct).1
        rw [map_cons, ← same] at this
        exact this mem_cons_self
      rw [cons_append, nil_append, cutAt, if_neg parentApart]
      rw [nil_append] at inner
      rw [inner]
      rfl
    | cons second rest =>
      have secondApart : second.address ≠ entry.address := by
        intro same
        apply (nodup_cons.mp tailDistinct).1
        rw [same]
        exact mem_map_of_mem (by simp)
      rw [cons_append, cons_append, cutAt, if_neg secondApart]
      rw [cons_append] at inner
      rw [inner]
      rfl

structure Owned (set : CatalogSet Name D) : Prop where
  distinct : ∀ index, ((set.entries index).map CatalogEntry.address).Nodup
  place : ∀ index other, ∀ entry ∈ set.entries index, ∀ twin ∈ set.entries other,
    entry.address = twin.address → index = other
  fresh : ∀ index, ∀ entry ∈ set.entries index, entry.address < set.nextAddress
  unused : ∀ index, set.currentEntry ≤ index → set.entries index = []
  bounded : ∀ name, ∀ value ∈ set.mapping name, value.index < set.currentEntry
  named : ∀ name, set.mapping name ≠ [] → name ∈ set.names

theorem initial_owned : (initial : CatalogSet Name D).Owned := by
  constructor <;> simp [initial]

variable {set : CatalogSet Name D} {index : Nat}

theorem locate_eq_some (found : set.locate address = some (index, cut)) : index < set.currentEntry ∧
      set.entries index = cut.above ++ cut.parent :: cut.entry :: cut.below ∧
      cut.entry.address = address := by
  obtain ⟨place, inside, here⟩ := exists_of_findSome?_eq_some found
  obtain ⟨inner, innerFound, same⟩ := map_eq_some_iff.mp here
  obtain ⟨rfl, rfl⟩ := Prod.mk.inj same
  exact ⟨mem_range.mp inside, cutAt_eq_some innerFound⟩

theorem Owned.locate (owned : set.Owned) (cut : Cut Name D)
    (split : set.entries index = cut.above ++ cut.parent :: cut.entry :: cut.below) :
    set.locate cut.entry.address = some (index, cut) := by
  have below : index < set.currentEntry := by
    by_contra beyond
    rw [owned.unused index (Nat.le_of_not_lt beyond)] at split
    simp at split
  have here : cutAt cut.entry.address (set.entries index) = some cut := by
    rw [split]
    exact cutAt_of_split (split ▸ owned.distinct index)
  have inside : cut.entry ∈ set.entries index := by rw [split]; simp
  cases found : set.locate cut.entry.address with
  | none =>
    have missing := findSome?_eq_none_iff.mp found index (mem_range.mpr below)
    rw [here] at missing
    cases missing
  | some result =>
    obtain ⟨other, otherCut⟩ := result
    obtain ⟨_, otherSplit, addressed⟩ := locate_eq_some found
    have otherInside : otherCut.entry ∈ set.entries other := by rw [otherSplit]; simp
    obtain rfl := owned.place other index _ otherInside _ inside addressed
    have there : cutAt otherCut.entry.address (set.entries other) = some otherCut := by
      rw [otherSplit]
      exact cutAt_of_split (otherSplit ▸ owned.distinct other)
    rw [addressed, here] at there
    rw [Option.some.inj there]

@[simp] theorem setEntries_entries (set : CatalogSet Name D) (index : Nat) (chain : List (CatalogEntry Name D)) :
    (set.setEntries index chain).entries = update set.entries index chain := rfl

section Owned

variable {set : CatalogSet Name D}

variable {index : Nat}

/-- Entries that keep their addresses may move, if the new place depends on the old place and
the address alone. -/
theorem Owned.relocate (owned : set.Owned) {entries : Nat → List (CatalogEntry Name D)}
    (home : Nat → Nat → Nat) (distinct : ∀ index, ((entries index).map CatalogEntry.address).Nodup)
    (origin : ∀ index, ∀ entry ∈ entries index, index < set.currentEntry ∧ ∃ old,
      (∃ before ∈ set.entries old, before.address = entry.address) ∧ index = home old entry.address) :
    { set with entries }.Owned := by
  refine ⟨distinct, ?_, ?_, ?_, owned.bounded, owned.named⟩
  · intro first second entry member twin twinMember same
    obtain ⟨_, old, ⟨before, inside, sameEntry⟩, rfl⟩ := origin first entry member
    obtain ⟨_, other, ⟨twinBefore, twinInside, sameTwin⟩, rfl⟩ := origin second twin twinMember
    rw [same, owned.place old other before inside twinBefore twinInside (by omega)]
  · intro index entry member
    obtain ⟨_, old, ⟨before, inside, sameEntry⟩, _⟩ := origin index entry member
    exact sameEntry ▸ owned.fresh old before inside
  · intro index beyond
    apply eq_nil_iff_forall_not_mem.mpr
    exact fun entry member => absurd (origin index entry member).1 (not_lt.mpr beyond)

theorem Owned.room (owned : set.Owned) {entry : CatalogEntry Name D}
    (inside : entry ∈ set.entries index) : index < set.currentEntry := by
  by_contra beyond
  rw [owned.unused index (Nat.le_of_not_lt beyond)] at inside
  cases inside

theorem Owned.setEntries (owned : set.Owned)
    (part : chain.Sublist (set.entries index)) : (set.setEntries index chain).Owned := by
  have parts : ∀ other, (update set.entries index chain other).Sublist (set.entries other) := by
    intro other
    by_cases same : other = index
    · subst other
      rwa [update_self]
    · rw [update_of_ne same]
  refine owned.relocate (fun old _ => old) ?_ ?_
  · exact fun other => (owned.distinct other).sublist ((parts other).map _)
  · intro other entry member
    have inside := (parts other).subset member
    exact ⟨owned.room inside, other, ⟨entry, inside, rfl⟩, rfl⟩

theorem Owned.grow (owned : set.Owned) (index : Nat) (value : CatalogEntry Name D)
    (addressed : value.address = set.nextAddress) (room : index < set.currentEntry) :
    { set.setEntries index (value :: set.entries index) with
      nextAddress := set.nextAddress + 1 }.Owned := by
  have inside : ∀ other, ∀ entry ∈ update set.entries index (value :: set.entries index)
      other, entry ∈ set.entries other ∨ (entry = value ∧ other = index) := by
    intro other entry member
    by_cases same : other = index
    · subst other
      rw [update_self] at member
      rcases mem_cons.mp member with new | old
      · exact inr ⟨new, rfl⟩
      · exact inl old
    · rw [update_of_ne same] at member
      exact inl member
  refine ⟨?_, ?_, ?_, ?_, owned.bounded, owned.named⟩
  · intro other
    change ((update set.entries index (value :: set.entries index) other).map _).Nodup
    by_cases same : other = index
    · subst other
      rw [update_self, map_cons, nodup_cons]
      refine ⟨?_, owned.distinct index⟩
      intro taken
      obtain ⟨entry, member, equal⟩ := mem_map.mp taken
      have := owned.fresh index entry member
      omega
    · rw [update_of_ne same]
      exact owned.distinct other
  · intro first second entry member twin twinMember same
    rcases inside first entry member with old | ⟨rfl, rfl⟩
    · rcases inside second twin twinMember with twinOld | ⟨rfl, rfl⟩
      · exact owned.place first second entry old twin twinOld same
      · have := owned.fresh first entry old
        omega
    · rcases inside second twin twinMember with twinOld | ⟨rfl, rfl⟩
      · have := owned.fresh second twin twinOld
        omega
      · rfl
  · intro other entry member
    change entry.address < set.nextAddress + 1
    rcases inside other entry member with old | ⟨rfl, _⟩
    · have := owned.fresh other entry old
      omega
    · omega
  · intro other beyond
    change update set.entries index (value :: set.entries index) other = []
    rw [update_of_ne (fun same => by subst same; exact absurd room (not_lt.mpr beyond))]
    exact owned.unused other beyond

theorem Owned.widen (owned : set.Owned) : { set with currentEntry := set.currentEntry + 1 }.Owned :=
  ⟨owned.distinct, owned.place, owned.fresh, fun index beyond => owned.unused index (Nat.le_of_succ_le beyond),
    fun name value inside => Nat.lt_succ_of_lt (owned.bounded name value inside), owned.named⟩

variable {entry : CatalogEntry Name D} {transaction : Transaction} {type : CatalogType D} {name : Name} {content : D}
  {deleted internal refused : Bool}

section

variable (owned : set.Owned)
include owned

theorem Owned.replaceEntry : (set.replaceEntry transaction index type name deleted internal).set.Owned := by
  rw [CatalogSet.replaceEntry]
  split
  · exact owned
  next current older chain =>
    have room : index < set.currentEntry := owned.room (by rw [chain]; exact mem_cons_self)
    rw [← chain]
    exact owned.grow index _ rfl room

theorem Owned.addDummy : (set.addDummy name).Owned := by
  have grown := owned.widen.grow set.currentEntry {
    address := set.nextAddress, type := .invalid, name, timestamp := 0, deleted := true,
    internal := false } rfl (Nat.lt_succ_self _)
  have empty : set.entries set.currentEntry = [] := owned.unused _ (le_refl _)
  rw [CatalogSet.addDummy]
  simp only [empty] at grown
  exact grown

theorem Owned.insertEntry : (set.insertEntry transaction index name content internal refused).set.Owned := by
  rw [CatalogSet.insertEntry]
  split
  · exact owned
  · exact owned.replaceEntry

theorem Owned.replaceAltered : (set.replaceAltered transaction index name content refused).set.Owned :=
  owned.insertEntry

theorem Owned.moveTail {target : Nat} {parent : CatalogEntry Name D}
    {rest : List (CatalogEntry Name D)} (chain : set.entries index = parent :: rest)
    (room : target < set.currentEntry) :
    ((set.setEntries index [parent]).setEntries target rest).Owned := by
  have distinct := owned.distinct index
  rw [chain, map_cons, nodup_cons] at distinct
  refine owned.relocate (fun old address =>
    if old = index then if address = parent.address then index else target else old) ?_ ?_
  · intro other
    by_cases atTarget : other = target
    · subst other
      rw [update_self]
      exact distinct.2
    rw [update_of_ne atTarget, setEntries_entries]
    by_cases atIndex : other = index
    · subst other
      rw [update_self]
      exact nodup_singleton _
    · rw [update_of_ne atIndex]
      exact owned.distinct other
  · intro other entry member
    by_cases atTarget : other = target
    · subst other
      rw [update_self] at member
      have inside : entry ∈ set.entries index := chain ▸ mem_cons_of_mem _ member
      have apart : entry.address ≠ parent.address := fun equal => distinct.1 (equal ▸ mem_map_of_mem member)
      exact ⟨room, index, ⟨entry, inside, rfl⟩, by rw [if_pos rfl, if_neg apart]⟩
    rw [update_of_ne atTarget, setEntries_entries] at member
    by_cases atIndex : other = index
    · subst other
      rw [update_self, mem_singleton] at member
      subst entry
      have inside : parent ∈ set.entries index := chain ▸ mem_cons_self
      exact ⟨owned.room inside, index, ⟨parent, inside, rfl⟩, by rw [if_pos rfl, if_pos rfl]⟩
    · rw [update_of_ne atIndex] at member
      exact ⟨owned.room member, other, ⟨entry, member, rfl⟩, (if_neg atIndex).symm⟩

end

variable {restored : CatalogSet Name D}

theorem Owned.restoreEntry (owned : set.Owned)
    (split : set.entries index = cut.above ++ cut.parent :: cut.entry :: cut.below)
    (done : set.restoreEntry index cut = some restored) : restored.Owned := by
  rw [CatalogSet.restoreEntry] at done
  split at done
  · cases done
    apply owned.setEntries
    rw [split]
    exact List.Sublist.append_left (sublist_cons_self _ _) _
  next root =>
    rw [root, nil_append] at split
    obtain ⟨latest, mapped, rfl⟩ := map_eq_some_iff.mp done
    exact owned.moveTail split (owned.bounded _ latest (mem_of_mem_head? mapped))

variable {address : Nat}

theorem Owned.cleanupEntry {cleaned : CatalogSet Name D} (owned : set.Owned)
    (done : set.cleanupEntry address = some cleaned) : cleaned.Owned := by
  obtain ⟨⟨index, cut⟩, found, rfl⟩ := map_eq_some_iff.mp done
  obtain ⟨_, split, _⟩ := locate_eq_some found
  apply owned.setEntries
  rw [split]
  exact List.Sublist.append_left ((sublist_cons_self _ _).cons_cons _) _

theorem stampEntry_owned (owned : set.Owned) (address timestamp : Nat) : (set.stampEntry address timestamp).Owned := by
  have sameAddress : ∀ entry : CatalogEntry Name D,
      (if entry.address = address then { entry with timestamp } else entry).address = entry.address := by
    intro entry
    split <;> rfl
  refine owned.relocate (fun old _ => old) ?_ ?_
  · intro index
    have unchanged : (((set.entries index).map fun entry =>
        if entry.address = address then { entry with timestamp } else entry).map
          CatalogEntry.address) = (set.entries index).map CatalogEntry.address := by
      rw [List.map_map]
      exact map_congr_left fun entry _ => sameAddress entry
    exact unchanged ▸ owned.distinct index
  · intro index entry member
    obtain ⟨old, inside, rfl⟩ := mem_map.mp member
    exact ⟨owned.room inside, index, ⟨old, inside, (sameAddress old).symm⟩, rfl⟩

variable [DecidableEq Name]

@[simp] theorem setMapping_entries (set : CatalogSet Name D) (name : Name)
    (chain : List MappingValue) : (set.setMapping name chain).entries = set.entries := rfl

@[simp] theorem setMapping_mapping (set : CatalogSet Name D) (name : Name) (chain : List MappingValue) :
    (set.setMapping name chain).mapping = update set.mapping name chain := rfl

theorem mem_setMapping_names (set : CatalogSet Name D) (name other : Name) (chain : List MappingValue) :
    other ∈ (set.setMapping name chain).names ↔ other ∈ set.names ∨ other = name := by
  rw [setMapping]
  by_cases known : name ∈ set.names
  · simp only [known, if_true]
    exact ⟨inl, fun either => either.elim id fun same => same ▸ known⟩
  · simp only [known, if_false, mem_append, mem_singleton]

variable {name : Name} {chain : List MappingValue} {lower : Name → Name}

theorem Owned.setMapping (owned : set.Owned) (bounded : ∀ value ∈ chain, value.index < set.currentEntry) :
    (set.setMapping name chain).Owned := by
  refine ⟨owned.distinct, owned.place, owned.fresh, owned.unused, ?_, ?_⟩
  · intro other value inside
    rw [setMapping_mapping] at inside
    by_cases same : other = name
    · subst other
      rw [update_self] at inside
      exact bounded value inside
    · rw [update_of_ne same] at inside
      exact owned.bounded other value inside
  · intro other present
    rw [mem_setMapping_names]
    by_cases same : other = name
    · exact inr same
    · rw [setMapping_mapping, update_of_ne same] at present
      exact inl (owned.named other present)

theorem Owned.popMapping (owned : set.Owned) : (set.popMapping name).Owned :=
  owned.setMapping fun value inside => owned.bounded name value (mem_of_mem_tail inside)

variable {mapped : CatalogSet Name D}

theorem putMapping_ok (put : set.putMapping transaction name index = .ok mapped) : mapped = set.setMapping name
      ({ index, timestamp := transaction.transactionId, deleted := false } :: set.mapping name) := by
  rw [putMapping] at put
  split at put
  next none =>
    cases put
    rw [none]
  rename_i latest older chain
  split at put
  · cases put
  · cases put
    rw [chain]

theorem Owned.putMapping (owned : set.Owned) (room : index < set.currentEntry)
    (put : set.putMapping transaction name index = .ok mapped) : mapped.Owned := by
  rw [putMapping_ok put]
  apply owned.setMapping
  intro value inside
  rcases mem_cons.mp inside with rfl | old
  · exact room
  · exact owned.bounded name value old

section

variable (owned : set.Owned)
include owned

theorem Owned.deleteMapping : (set.deleteMapping transaction name).Owned := by
  rw [CatalogSet.deleteMapping]
  split
  · exact owned
  rename_i latest older chain
  have bounded := owned.bounded name
  rw [chain] at bounded
  apply owned.setMapping
  intro value inside
  rcases mem_cons.mp inside with rfl | old
  · exact bounded latest mem_cons_self
  · exact bounded value old

theorem Owned.createFresh : (set.createFresh transaction name content internal refused).set.Owned := by
  rw [CatalogSet.createFresh]
  split
  · exact owned.addDummy
  next mapped put =>
    exact (owned.addDummy.putMapping (Nat.lt_succ_self _) put).insertEntry

theorem Owned.createEntry : (set.createEntry lower transaction name content internal refused).set.Owned := by
  rw [CatalogSet.createEntry]
  split
  · exact owned.createFresh
  split
  · exact owned.createFresh
  split
  · exact owned
  split
  · exact owned
  · split
    · exact owned.insertEntry
    · exact owned

omit owned in
theorem getEntryInternal_ok (found : set.getEntryInternal lower transaction name = .ok (some (index, entry))) :
    ∃ value older, set.getMapping lower transaction name true = some value ∧
      value.deleted = false ∧ value.index = index ∧ set.entries index = entry :: older ∧
      hasConflict transaction entry.timestamp = false ∧ entry.deleted = false := by
  rw [getEntryInternal] at found
  split at found
  · cases found
  rename_i value mapped
  split at found
  · cases found
  rename_i live
  split at found
  · cases found
  rename_i current older chain
  split at found
  · cases found
  rename_i free
  split at found
  · cases found
  next present =>
    cases found
    exact ⟨value, older, mapped, by simpa using live, rfl, chain, by simpa using free,
      by simpa using present⟩

theorem Owned.renameEntry {original : Name} (room : index < set.currentEntry) :
    (set.renameEntry lower transaction index original name content refused).set.Owned := by
  rw [CatalogSet.renameEntry]
  split
  · exact owned
  · split
    · exact owned
    next mapped put =>
      exact (owned.putMapping room put).deleteMapping.replaceAltered

theorem Owned.alterEntry {altered : Altered Name D} :
    (set.alterEntry lower transaction name altered refused).set.Owned := by
  rw [CatalogSet.alterEntry]
  split
  · exact owned
  · exact owned
  rename_i index entry found
  obtain ⟨_, older, _, _, _, chain, _⟩ := getEntryInternal_ok found
  have room : index < set.currentEntry := owned.room (by rw [chain]; exact mem_cons_self)
  split
  · exact owned
  split
  · exact owned
  · exact owned
  · split
    · exact owned.replaceAltered
    · exact owned.renameEntry room

theorem Owned.dropEntry : (set.dropEntry lower transaction name refused).set.Owned := by
  rw [CatalogSet.dropEntry]
  split
  · exact owned
  · exact owned
  split
  · exact owned
  · split
    · exact owned
    · exact owned.replaceEntry

theorem Owned.call {request : CatalogCall Name D} : (set.call lower transaction request).set.Owned := by
  cases request with
  | create name content internal refused => exact owned.createEntry
  | alter name altered refused => exact owned.alterEntry
  | drop name refused => exact owned.dropEntry

end

variable {timestamp : Nat}

theorem mem_modifyHead_index {value : MappingValue}
    (inside : value ∈ chain.modifyHead fun latest => { latest with timestamp }) :
    ∃ old ∈ chain, old.index = value.index := by
  cases chain with
  | nil => cases inside
  | cons latest older =>
    rcases mem_cons.mp inside with rfl | later
    · exact ⟨latest, mem_cons_self, rfl⟩
    · exact ⟨value, mem_cons_of_mem _ later, rfl⟩

section

variable (owned : set.Owned)
include owned

theorem Owned.createDefault : (set.createDefault transaction name content).1.Owned := by
  rw [CatalogSet.createDefault]
  simp only
  split
  · exact owned.widen
  rename_i mapped put
  have mappedOwned := owned.widen.putMapping (Nat.lt_succ_self _) put
  have same := putMapping_ok put
  have restamped : (mapped.setMapping name ((mapped.mapping name).modifyHead
      fun latest => { latest with timestamp := 0 })).Owned := by
    apply mappedOwned.setMapping
    intro value inside
    obtain ⟨old, oldInside, sameIndex⟩ := mem_modifyHead_index inside
    exact sameIndex ▸ mappedOwned.bounded name old oldInside
  have grown := restamped.grow set.currentEntry {
    address := set.nextAddress, type := .object content, name, timestamp := 0,
    deleted := false, internal := true } (by rw [same]; rfl) (by
      rw [same]
      exact Nat.lt_succ_self _)
  have empty : mapped.entries set.currentEntry = [] := by
    rw [same]
    exact owned.unused _ (le_refl _)
  have address : mapped.nextAddress = set.nextAddress := by rw [same]; rfl
  simp only [setMapping_entries, empty] at grown
  rw [← address]
  rw [← address] at grown
  exact grown

theorem Owned.getEntry {defaults : Name → Option D} : (set.getEntry lower defaults transaction name).1.Owned := by
  have missing : (set.noEntry defaults transaction name).1.Owned := by
    rw [noEntry]
    split
    · exact owned
    · exact owned.createDefault
  rw [CatalogSet.getEntry]
  split
  · exact missing
  split
  · exact missing
  split
  · exact owned
  · split
    · exact owned
    · exact owned

theorem Owned.restoreMapping (done : set.restoreMapping entry = some restored) : restored.Owned := by
  obtain ⟨latest, _, rfl⟩ := map_eq_some_iff.mp done
  cases entry.type with
  | invalid => exact owned.popMapping
  | deletedEntry | object content =>
    change (if latest.deleted then set.popMapping entry.name else set).Owned
    split
    · exact owned.popMapping
    · exact owned

theorem Owned.undo (done : set.undo address = some restored) : restored.Owned := by
  rw [CatalogSet.undo] at done
  obtain ⟨⟨index, cut⟩, found, rest⟩ := bind_eq_some_iff.mp done
  obtain ⟨middle, restoredEntry, restoredMapping⟩ := bind_eq_some_iff.mp rest
  obtain ⟨_, split, _⟩ := locate_eq_some found
  have cleared : (if cut.entry.name = cut.parent.name then set
      else set.popMapping cut.parent.name).Owned := by
    split
    · exact owned
    · exact owned.popMapping
  have sameEntries : (if cut.entry.name = cut.parent.name then set
      else set.popMapping cut.parent.name).entries = set.entries := by
    split <;> rfl
  exact (cleared.restoreEntry (by rw [sameEntries]; exact split) restoredEntry).restoreMapping restoredMapping

theorem Owned.updateTimestamp : (set.updateTimestamp entry timestamp).Owned := by
  have stamped := stampEntry_owned owned entry.address timestamp
  refine ⟨stamped.distinct, stamped.place, stamped.fresh, stamped.unused, ?_, ?_⟩
  · intro name value inside
    change value ∈ update set.mapping entry.name _ name at inside
    by_cases same : name = entry.name
    · subst name
      rw [update_self] at inside
      obtain ⟨old, oldInside, sameIndex⟩ := mem_modifyHead_index inside
      exact sameIndex ▸ owned.bounded _ old oldInside
    · rw [update_of_ne same] at inside
      exact owned.bounded name value inside
  · intro name present
    apply owned.named name
    intro empty
    apply present
    change update set.mapping entry.name _ name = []
    by_cases same : name = entry.name
    · subst name
      rw [update_self]
      change (set.mapping entry.name).modifyHead _ = []
      rw [empty]
      rfl
    · rw [update_of_ne same]
      exact empty

theorem Owned.commitEntry {committed : CatalogSet Name D} {commitId : Nat}
    (done : set.commitEntry commitId address = some committed) : committed.Owned := by
  obtain ⟨⟨index, cut⟩, _, rfl⟩ := map_eq_some_iff.mp done
  simp only
  split
  · exact owned.updateTimestamp
  · exact owned.updateTimestamp.updateTimestamp

end

end Owned

end CatalogSet

namespace CatalogState

variable {Name D : Type} {state next : CatalogState Name D}

theorem foldlM_owned {change : CatalogSet Name D → Nat → Option (CatalogSet Name D)}
    (kept : ∀ set address changed, set.Owned → change set address = some changed → changed.Owned)
    {set final : CatalogSet Name D} (owned : set.Owned) {addresses : List Nat}
    (done : addresses.foldlM change set = some final) : final.Owned :=
  Transition.runPartial_preserves kept owned done

theorem removeTransaction_spec (owned : state.set.Owned) {transaction : Transaction}
    (removed : state.removeTransaction transaction = some next) : next.set.Owned ∧
      next.manager = (state.manager.removeTransaction transaction).1 := by
  obtain ⟨set, cleaned, rfl⟩ := map_eq_some_iff.mp removed
  exact ⟨foldlM_owned (fun _ _ _ before done => before.cleanupEntry done) owned cleaned, rfl⟩

variable [DecidableEq Name]

variable {lower : Name → Name} {action : CatalogAction Name D} {defaults : Name → Option D}

theorem step_sound (owned : state.set.Owned) (valid : state.manager.Valid)
    (stepped : state.step lower defaults action = some next) :
    next.set.Owned ∧ next.manager.Valid := by
  cases action with
  | start =>
    cases stepped
    rw [startTransaction]
    split
    next started =>
      exact ⟨owned, startTransaction_valid valid started⟩
    · exact ⟨owned, valid⟩
  | call transactionId request =>
    rw [step] at stepped
    split at stepped
    · cases stepped
      exact ⟨owned, valid⟩
    · cases stepped
      exact ⟨owned.call, valid⟩
  | lookup transactionId name =>
    rw [step] at stepped
    split at stepped
    · cases stepped
      exact ⟨owned, valid⟩
    · cases stepped
      exact ⟨owned.getEntry, valid⟩
  | commit transactionId =>
    rw [step] at stepped
    split at stepped
    · cases stepped
      exact ⟨owned, valid⟩
    rename_i transaction found
    obtain ⟨set, stamped, removed⟩ := bind_eq_some_iff.mp stepped
    obtain ⟨removedOwned, manager⟩ := removeTransaction_spec (foldlM_owned
      (fun _ _ _ before done => before.commitEntry done) owned stamped) removed
    refine ⟨removedOwned, manager ▸ ?_⟩
    exact removeTransaction_valid (drawCommitId_valid valid) (find_eq_some found).1 rfl (Nat.lt_succ_self _)
  | rollback transactionId =>
    rw [step] at stepped
    split at stepped
    · cases stepped
      exact ⟨owned, valid⟩
    rename_i transaction found
    have member := (find_eq_some found).1
    have identified := valid.active transaction member
    obtain ⟨set, undone, removed⟩ := bind_eq_some_iff.mp stepped
    have undoneOwned : set.Owned := foldlM_owned (fun _ _ _ before done => before.undo done) owned undone
    obtain ⟨removedOwned, manager⟩ := removeTransaction_spec undoneOwned removed
    refine ⟨removedOwned, manager ▸ ?_⟩
    apply removeTransaction_valid valid member rfl
    have := identified.startBelow
    have := identified.uncommitted
    omega

theorem run_owned {actions : List (CatalogAction Name D)}
    (ran : Transition.runPartial (step lower defaults) initial actions = some state) :
    state.set.Owned ∧ state.manager.Valid :=
  @Transition.runPartial_preserves _ _ _ (fun state => state.set.Owned ∧ state.manager.Valid) _ _ _
    (fun _ _ _ sound stepped => step_sound sound.1 sound.2 stepped)
    ⟨CatalogSet.initial_owned, initial_valid⟩ ran

end CatalogState

end GuinsooDB
