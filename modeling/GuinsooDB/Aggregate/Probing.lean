import GuinsooDB.Aggregate.HashTable
import GuinsooDB.Library.Outcome

/-!
Looking up a vector of rows: each row ends at the group of its key, and a group is created
only for a key that had none. The keys must not hold values that stand for NULL.
-/

namespace GuinsooDB

open LinearProbing Outcome List Function
open Function (update)

namespace AggregateHashTable

variable {Row State : Type}

def keyHash (context : Aggregation Row State) (key : Key) : Nat :=
  hashKey context.hash context.groupTypes key

def ring (table : AggregateHashTable State) (slot : Nat) : Option Nat :=
  (table.slots slot).map HtEntry.group

def homeOf (context : Aggregation Row State) (table : AggregateHashTable State) (keys : List Key)
    (group : Nat) : Nat :=
  table.offset (keyHash context (keys.getD group []))

structure Ringed (context : Aggregation Row State) (table : AggregateHashTable State)
    (keys : List Key) : Prop where
  positive : 0 < table.capacity
  probing : Sound table.ring table.capacity keys.length (table.homeOf context keys)
  salts : ∀ slot entry, table.slots slot = some entry →
    entry.salt = table.salt (keyHash context (keys.getD entry.group []))
  clear : ∀ key ∈ keys, UnambiguousKey context.groupTypes key
  distinct : keys.Nodup

structure Holds (context : Aggregation Row State) (table : AggregateHashTable State)
    (keys : List Key) : Prop extends Ringed context table keys where
  values : table.groups.map GroupEntry.values = keys.map (storeKey context.groupTypes)
  hashes : table.groups.map GroupEntry.hash = keys.map (keyHash context)

variable {table : AggregateHashTable State}

theorem offset_lt (positive : 0 < table.capacity) (hash : Nat) : table.offset hash < table.capacity := by
  have bound := @Nat.and_le_right hash (table.capacity - 1)
  unfold offset
  omega

variable {keys : List Key} {context : Aggregation Row State}

theorem Holds.length (holds : Holds context table keys) : table.groups.length = keys.length := by
  have same := congrArg List.length holds.values
  simpa using same

variable {key : Key} {group : Nat}

theorem Holds.groupValues (holds : Holds context table keys) (there : keys[group]? = some key) :
    groupValues table.groups group = storeKey context.groupTypes key := by
  unfold AggregateHashTable.groupValues
  rw [← getElem?_map, holds.values, getElem?_map, there]
  rfl

/-! Comparing columns -/

variable {values : Nat → List Datum} {types : List PhysicalType} {rows : Nat → Key} {column : Nat}

theorem mem_compareGroups {index : Nat} {selected noMatch : List Nat}
    (columns : index ∈ selected → (rows index).length = column + types.length)
    (valueColumns : index ∈ selected → (values index).length = column + types.length) :
    index ∈ compareGroups rows values types column selected noMatch ↔ index ∈ noMatch ∨ index ∈ selected ∧
        compareKey types ((rows index).drop column) ((values index).drop column) = false := by
  induction types generalizing column selected noMatch with
  | nil => simp [compareGroups, compareKey]
  | cons type rest ih =>
    simp only [compareGroups]
    rw [ih]
    · by_cases listed : index ∈ selected
      · have inside : column < (rows index).length := by
          rw [columns listed, length_cons]
          omega
        have valueInside : column < (values index).length := by
          rw [valueColumns listed, length_cons]
          omega
        rw [drop_eq_getElem_cons inside, drop_eq_getElem_cons valueInside]
        simp only [mem_append, mem_filter, listed, true_and, compareKey,
          getD_eq_getElem _ _ inside, getD_eq_getElem _ _ valueInside]
        cases compareStored type (rows index)[column] (values index)[column] <;> simp
      · simp [listed]
    · intro kept
      rw [columns (mem_filter.mp kept).1, length_cons]
      omega
    · intro kept
      rw [valueColumns (mem_filter.mp kept).1, length_cons]
      omega

theorem compareGroups_nodup {selected noMatch : List Nat} (distinct : (noMatch ++ selected).Nodup) :
    (compareGroups rows values types column selected noMatch).Nodup ∧
      (compareGroups rows values types column selected noMatch).length ≤ noMatch.length + selected.length := by
  induction types generalizing column selected noMatch with
  | nil => exact ⟨(nodup_append.mp distinct).1, by simp [compareGroups]⟩
  | cons type rest ih =>
    have moved (test : Nat → Bool) : ((noMatch ++ selected.filter fun index => !test index) ++
        selected.filter test).Perm (noMatch ++ selected) := by
      rw [append_assoc]
      exact List.Perm.append_left noMatch (perm_append_comm.trans (filter_append_perm test selected))
    obtain ⟨nodup, length⟩ := @ih (column + 1) _ _ ((moved _).nodup_iff.mpr distinct)
    refine ⟨nodup, le_trans length ?_⟩
    have total := (moved fun index => compareStored type ((rows index).getD column none)
      ((values index).getD column default)).length_eq
    simp only [length_append] at total ⊢
    exact le_of_eq total

structure Waiting (context : Aggregation Row State) (table : AggregateHashTable State)
    (keys : List Key) (steps offset hash : Nat) (key : Key) : Prop where
  clear : UnambiguousKey context.groupTypes key
  hashed : hash = keyHash context key
  there : offset = place table.capacity (table.offset hash) steps
  missed : ∀ before < steps, ∃ group other,
    table.ring (place table.capacity (table.offset hash) before) = some group ∧
      keys[group]? = some other ∧ other ≠ key

/-- The rows in `done` have been looked at, and groups for the keys in `created` opened. -/
structure Visiting (context : Aggregation Row State) (rows : Nat → Key) (offsets : Nat → Nat)
    (table : AggregateHashTable State) (addresses : Nat → Nat) (keys : List Key)
    (done : List Nat) (round : Round State) (created : List Key) : Prop where
  ringed : Ringed context round.table (keys ++ created)
  capacity : round.table.capacity = table.capacity
  entryType : round.table.entryType = table.entryType
  groups : round.table.groups = table.groups ++ created.map fun key =>
    { hash := keyHash context key, values := [], state := context.function.initial }
  kept : ∀ slot group, table.ring slot = some group → round.table.ring slot = some group
  parts : (round.emptyVector ++ (round.noMatchVector ++ round.groupCompareVector)).Perm done
  sameLength : round.emptyVector.length = created.length
  opened : ∀ index ∈ round.emptyVector,
    (keys ++ created)[round.addresses index]? = some (rows index) ∧
      keys.length ≤ round.addresses index
  covered : ∀ group, keys.length ≤ group → group < keys.length + created.length →
    ∃ index ∈ round.emptyVector, round.addresses index = group
  compared : ∀ index ∈ round.groupCompareVector,
    round.table.ring (offsets index) = some (round.addresses index)
  missed : ∀ index ∈ round.noMatchVector, ∃ group other,
    round.table.ring (offsets index) = some group ∧
      (keys ++ created)[group]? = some other ∧ other ≠ rows index
  untouched : ∀ index ∉ done, round.addresses index = addresses index
  named : ∀ key ∈ created, ∃ index ∈ done, rows index = key

variable {created : List Key}

variable {later : AggregateHashTable State}

theorem offset_congr (capacity : later.capacity = table.capacity) (hash : Nat) :
    later.offset hash = table.offset hash := by
  rw [offset, offset, capacity]

theorem Ringed.insert {slot steps : Nat} (ringed : Ringed context table keys) (new : key ∉ keys)
    (clear : UnambiguousKey context.groupTypes key) (slots : later.slots = update table.slots slot
      (some { salt := table.salt (keyHash context key), group := keys.length }))
    (capacity : later.capacity = table.capacity) (entryType : later.entryType = table.entryType)
    (empty : table.slots slot = none)
    (there : slot = place table.capacity (table.offset (keyHash context key)) steps)
    (filled : Filled table.ring table.capacity (table.offset (keyHash context key)) steps) :
    Ringed context later (keys ++ [key]) := by
  have ring : later.ring = update table.ring slot (some keys.length) := by
    funext other
    by_cases same : other = slot <;> simp [AggregateHashTable.ring, slots, same]
  have last : (keys ++ [key]).getD keys.length [] = key := by
    simp
  have salt (hash : Nat) : later.salt hash = table.salt hash := by
    rw [AggregateHashTable.salt, AggregateHashTable.salt, entryType]
  have home : later.homeOf context (keys ++ [key]) keys.length = table.offset (keyHash context key) := by
    rw [homeOf, last, offset_congr capacity]
  have homes : ∀ group < keys.length, later.homeOf context (keys ++ [key]) group = table.homeOf context keys group := by
    intro group inside
    rw [homeOf, homeOf, getD_append _ _ _ _ inside, offset_congr capacity]
  constructor
  · exact capacity ▸ ringed.positive
  · have inside : slot < table.capacity := by
      rw [there]
      exact place_lt ringed.positive _ _
    rw [ring, capacity, length_append]
    refine (ringed.probing.congr_home homes).insert inside ?_ (home ▸ there) (home ▸ filled)
    simp [AggregateHashTable.ring, empty]
  · intro other entry taken
    rw [slots] at taken
    rw [salt]
    by_cases same : other = slot
    · rw [same, update_self] at taken
      cases taken
      rw [last]
    rw [update_of_ne same] at taken
    have inside := (ringed.probing.bounded other entry.group (by
      rw [AggregateHashTable.ring, taken]
      rfl)).2
    rw [getD_append _ _ _ _ inside]
    exact ringed.salts other entry taken
  · intro other listed
    rcases mem_append.mp listed with old | added
    · exact ringed.clear other old
    · exact mem_singleton.mp added ▸ clear
  · exact nodup_append.mpr ⟨ringed.distinct, nodup_singleton key,
      fun other old added addedHere same => new (mem_singleton.mp addedHere ▸ same ▸ old)⟩

variable {steps offset hash : Nat}

theorem Waiting.filled (waiting : Waiting context table keys steps offset hash key)
    (kept : ∀ slot group, table.ring slot = some group → later.ring slot = some group) :
    Filled later.ring table.capacity (table.offset hash) steps := by
  intro before near
  obtain ⟨group, _, met, _⟩ := waiting.missed before near
  rw [kept _ _ met]
  simp

theorem Waiting.new (waiting : Waiting context table keys steps offset hash key)
    (ringed : Ringed context later (keys ++ created)) (capacity : later.capacity = table.capacity)
    (kept : ∀ slot group, table.ring slot = some group → later.ring slot = some group)
    (empty : later.ring offset = none) :
    key ∉ keys ++ created ∧ Filled later.ring later.capacity (later.offset hash) steps := by
  have sameOffset := offset_congr capacity hash
  refine ⟨?_, ?_⟩
  · intro listed
    obtain ⟨group, inside, same⟩ := getElem_of_mem listed
    obtain ⟨slot, taken⟩ := ringed.probing.found group inside
    obtain ⟨distance, place, path⟩ := ringed.probing.path slot group taken
    have home : later.homeOf context (keys ++ created) group = table.offset hash := by
      rw [homeOf, getD_eq_getElem _ _ inside, same, ← waiting.hashed, sameOffset]
    rw [home, capacity] at place path
    rcases lt_trichotomy distance steps with near | equal | far
    · obtain ⟨group', other, met, there, apart⟩ := waiting.missed distance near
      have again := kept _ _ met
      rw [← place, taken] at again
      cases again
      have bound := (List.getElem?_eq_some_iff.mp there).1
      rw [getElem_append_left bound] at same
      rw [getElem?_eq_getElem bound] at there
      exact apart (by rw [← Option.some.inj there, same])
    · rw [equal, ← waiting.there] at place
      rw [place, empty] at taken
      cases taken
    · exact path steps far (waiting.there ▸ empty)
  · rw [capacity, sameOffset]
    exact waiting.filled kept

section Visiting

variable {context : Aggregation Row State} {rows : Nat → Key} {hashes offsets addresses : Nat → Nat}
  {table : AggregateHashTable State} {keys created : List Key} {done : List Nat}
  {round : Round State} {steps index : Nat}

theorem ring_update (slots : Nat → Option HtEntry) (entryType) (capacity)
    (groups : List (GroupEntry State)) (slot : Nat) (entry : HtEntry) :
    ring ⟨entryType, capacity, update slots slot (some entry), groups⟩ =
      update (ring ⟨entryType, capacity, slots, groups⟩) slot (some entry.group) := by
  funext other
  by_cases same : other = slot <;> simp [ring, same]

section

variable (visiting : Visiting context rows offsets table addresses keys done round created)
include visiting

theorem Visiting.apart (fresh : index ∉ done) {other : Nat} (inPart : other ∈ round.emptyVector ∨
    other ∈ round.noMatchVector ∨ other ∈ round.groupCompareVector) : other ≠ index := by
  rintro rfl
  exact fresh (visiting.parts.mem_iff.mp (by simpa using inPart))

theorem Visiting.create (length : table.groups.length = keys.length) (fresh : index ∉ done)
    (waiting : Waiting context table keys steps (offsets index) (hashes index) (rows index))
    (empty : round.table.slots (offsets index) = none) :
    Visiting context rows offsets table addresses keys (done ++ [index])
      (round.visit context.function.initial hashes offsets index) (created ++ [rows index]) := by
  have count : round.table.groups.length = (keys ++ created).length := by
    simp [visiting.groups, length]
  have ringNone : round.table.ring (offsets index) = none := by
    simp [AggregateHashTable.ring, empty]
  obtain ⟨new, filled⟩ := waiting.new visiting.ringed visiting.capacity visiting.kept ringNone
  have there : offsets index = place round.table.capacity (round.table.offset (hashes index)) steps := by
    rw [waiting.there, offset_congr visiting.capacity, visiting.capacity]
  rw [waiting.hashed] at there filled
  have keptSlot (slot group : Nat) (taken : round.table.ring slot = some group) : slot ≠ offsets index := by
    rintro rfl
    simp [ringNone] at taken
  have keptKey (group : Nat) (key : Key) (found : (keys ++ created)[group]? = some key) :
      (keys ++ (created ++ [rows index]))[group]? = some key := by
    rw [← append_assoc, List.getElem?_append_left (List.getElem?_eq_some_iff.mp found).1, found]
  have opened : (keys ++ (created ++ [rows index]))[round.table.groups.length]? = some (rows index) := by
    simp [count]
  unfold Round.visit
  rw [empty]
  constructor <;> try simp only [ring_update]
  · rw [← append_assoc]
    refine visiting.ringed.insert new waiting.clear ?_ rfl rfl empty there filled
    rw [count, waiting.hashed]
  · exact visiting.capacity
  · exact visiting.entryType
  · simp [visiting.groups, waiting.hashed]
  · intro slot group taken
    have before := visiting.kept slot group taken
    rw [update_of_ne (keptSlot slot group before)]
    exact before
  · refine List.Perm.trans ?_ (visiting.parts.append_right [index])
    rw [append_assoc, append_assoc]
    exact List.Perm.append_left _ perm_append_comm
  · simp [visiting.sameLength]
  · intro other listed
    rcases mem_append.mp listed with old | added
    · rw [update_of_ne (visiting.apart fresh (.inl old))]
      exact (visiting.opened other old).imp_left (keptKey _ _)
    · simp_all
  · intro group low high
    by_cases last : group = keys.length + created.length
    · exact ⟨index, by simp, by simp [count, last]⟩
    · obtain ⟨other, old, same⟩ := visiting.covered group low (by simp at high; omega)
      exact ⟨other, by simp [old], by rw [update_of_ne (visiting.apart fresh (.inl old)), same]⟩
  · intro other listed
    have before := visiting.compared other listed
    rw [update_of_ne (visiting.apart fresh (.inr (.inr listed))), update_of_ne (keptSlot _ _ before)]
    exact before
  · intro other listed
    obtain ⟨group, key, taken, found, differs⟩ := visiting.missed other listed
    refine ⟨group, key, ?_, keptKey _ _ found, differs⟩
    rw [update_of_ne (keptSlot _ _ taken)]
    exact taken
  · intro other outside
    rw [mem_append, mem_singleton, not_or] at outside
    rw [update_of_ne outside.2]
    exact visiting.untouched other outside.1
  · intro key listed
    rcases mem_append.mp listed with old | added
    · obtain ⟨other, inDone, same⟩ := visiting.named key old
      exact ⟨other, mem_append_left _ inDone, same⟩
    · exact ⟨index, by simp, by simp_all⟩

theorem Visiting.meet (fresh : index ∉ done)
    (waiting : Waiting context table keys steps (offsets index) (hashes index) (rows index))
    {entry : HtEntry} (taken : round.table.slots (offsets index) = some entry) :
    Visiting context rows offsets table addresses keys (done ++ [index])
      (round.visit context.function.initial hashes offsets index) created := by
  have ringTaken : round.table.ring (offsets index) = some entry.group := by
    rw [AggregateHashTable.ring, taken]
    rfl
  have named : ∀ key ∈ created, ∃ other ∈ done ++ [index], rows other = key := by
    intro key listed
    obtain ⟨other, inDone, same⟩ := visiting.named key listed
    exact ⟨other, mem_append_left _ inDone, same⟩
  unfold Round.visit
  rw [taken]
  dsimp only
  split
  · refine { visiting with
      parts := ?_, opened := ?_, covered := ?_, compared := ?_, untouched := ?_, named := named }
    · refine List.Perm.trans ?_ (visiting.parts.append_right [index])
      rw [append_assoc, append_assoc]
    · intro other listed
      simp only [update_of_ne (visiting.apart fresh (.inl listed))]
      exact visiting.opened other listed
    · intro group low high
      obtain ⟨other, listed, same⟩ := visiting.covered group low high
      exact ⟨other, listed, by simp [visiting.apart fresh (.inl listed), same]⟩
    · intro other listed
      rcases mem_append.mp listed with old | added
      · simp only [update_of_ne (visiting.apart fresh (.inr (.inr old)))]
        exact visiting.compared other old
      · simpa [mem_singleton.mp added] using ringTaken
    · intro other outside
      rw [mem_append, mem_singleton, not_or] at outside
      simp only [update_of_ne outside.2]
      exact visiting.untouched other outside.1
  next saltDiffers =>
    refine { visiting with parts := ?_, missed := ?_, untouched := ?_, named := named }
    · refine List.Perm.trans ?_ (visiting.parts.append_right [index])
      rw [append_assoc, append_assoc, append_assoc]
      exact List.Perm.append_left _ (List.Perm.append_left _ perm_append_comm)
    · intro other listed
      rcases mem_append.mp listed with old | added
      · exact visiting.missed other old
      rw [mem_singleton.mp added]
      have inside := (visiting.ringed.probing.bounded _ _ ringTaken).2
      refine ⟨entry.group, _, ringTaken, getElem?_eq_getElem inside, ?_⟩
      intro same
      apply saltDiffers
      rw [visiting.ringed.salts _ _ taken, getD_eq_getElem _ _ inside, same, waiting.hashed]
    · intro other outside
      rw [mem_append, mem_singleton, not_or] at outside
      exact visiting.untouched other outside.1

theorem Visiting.visitAll {rest : List Nat} (length : table.groups.length = keys.length)
    (distinct : (done ++ rest).Nodup) (waiting : ∀ index ∈ rest,
      Waiting context table keys steps (offsets index) (hashes index) (rows index)) :
    ∃ later, Visiting context rows offsets table addresses keys (done ++ rest)
      (rest.foldl (Round.visit context.function.initial hashes offsets) round)
      (created ++ later) := by
  induction rest generalizing done round created with
  | nil =>
    refine ⟨[], ?_⟩
    rw [append_nil, append_nil]
    exact visiting
  | cons index rest ih =>
    have fresh : index ∉ done := by
      intro listed
      exact (nodup_append.mp distinct).2.2 index listed index mem_cons_self rfl
    have first := waiting index mem_cons_self
    have later := fun other listed => waiting other (mem_cons_of_mem _ listed)
    have around : done ++ index :: rest = (done ++ [index]) ++ rest := by simp
    rw [around] at distinct ⊢
    cases met : round.table.slots (offsets index) with
    | none =>
      obtain ⟨more, final⟩ := ih (visiting.create length fresh first met) distinct later
      refine ⟨rows index :: more, ?_⟩
      have moved : created ++ rows index :: more = created ++ [rows index] ++ more := by simp
      rw [moved]
      exact final
    | some entry => exact ih (visiting.meet fresh first met) distinct later

end

theorem scatterGroups_getElem? {types : List PhysicalType} {target : Nat → List Datum}
    {list : List Nat} {groups : List (GroupEntry State)}
    (writes : ∀ index ∈ list, storeKey types (rows index) = target (addresses index))
    (group : Nat) :
    (scatterGroups types rows addresses groups list)[group]? = (groups[group]?).map fun entry =>
        if group ∈ list.map addresses then { entry with values := target group } else entry := by
  induction list generalizing groups with
  | nil => simp [scatterGroups]
  | cons index rest ih =>
    have first := writes index mem_cons_self
    have later := fun other listed => writes other (mem_cons_of_mem _ listed)
    change (scatterGroups types rows addresses (groups.modify (addresses index) _) rest)[group]? = _
    rw [ih later, getElem?_modify, first]
    by_cases here : addresses index = group
    · subst group
      cases groups[addresses index]? <;> simp
    · have elsewhere : group ≠ addresses index := fun same => here same.symm
      simp [here, elsewhere]

def newGroup (context : Aggregation Row State) (key : Key) : GroupEntry State where
  hash := keyHash context key
  values := storeKey context.groupTypes key
  state := context.function.initial

theorem Visiting.scatter (visiting : Visiting context rows offsets table addresses keys done round created)
    (length : table.groups.length = keys.length) :
    scatterGroups context.groupTypes rows round.addresses round.table.groups round.emptyVector =
      table.groups ++ created.map (newGroup context) := by
  apply ext_getElem?
  intro group
  have writes : ∀ index ∈ round.emptyVector, storeKey context.groupTypes (rows index) =
      storeKey context.groupTypes ((keys ++ created).getD (round.addresses index) []) := by
    intro index listed
    rw [getD_eq_getElem?_getD, (visiting.opened index listed).1]
    rfl
  rw [@scatterGroups_getElem? _ rows round.addresses context.groupTypes
    (fun group => storeKey context.groupTypes ((keys ++ created).getD group [])) _ _ writes group,
    visiting.groups]
  by_cases old : group < keys.length
  · have unhit : group ∉ round.emptyVector.map round.addresses := by
      intro hit
      obtain ⟨index, listed, same⟩ := mem_map.mp hit
      have bound := (visiting.opened index listed).2
      omega
    rw [getElem?_append_left (length ▸ old), getElem?_append_left (length ▸ old)]
    simp [unhit]
  · rw [getElem?_append_right (by omega), getElem?_append_right (by omega), getElem?_map, getElem?_map, length]
    cases found : created[group - keys.length]? with
    | none => rfl
    | some key =>
      have bound := (List.getElem?_eq_some_iff.mp found).1
      obtain ⟨index, listed, same⟩ := visiting.covered group (by omega) (by omega)
      have hit : group ∈ round.emptyVector.map round.addresses := mem_map.mpr ⟨index, listed, same⟩
      simp [hit, newGroup, getElem?_append_right (Nat.le_of_not_lt old), found]

/-- The outcome of lookups: the groups of the keys in `created` are new, and every row that
is no longer left has the group of its key. -/
structure Found (context : Aggregation Row State) (rows : Nat → Key)
    (table : AggregateHashTable State) (addresses : Nat → Nat) (keys : List Key)
    (selected left : List Nat) (found : AggregateHashTable State) (foundAddresses : Nat → Nat)
    (created : List Key) : Prop where
  holds : Holds context found (keys ++ created)
  capacity : found.capacity = table.capacity
  entryType : found.entryType = table.entryType
  groups : found.groups = table.groups ++ created.map (newGroup context)
  kept : ∀ slot group, table.ring slot = some group → found.ring slot = some group
  room : created.length + left.length ≤ selected.length
  subset : ∀ index ∈ left, index ∈ selected
  settled : ∀ index ∈ selected, index ∉ left →
    (keys ++ created)[foundAddresses index]? = some (rows index)
  untouched : ∀ index ∉ selected, foundAddresses index = addresses index
  named : ∀ key ∈ created, ∃ index ∈ selected, rows index = key

variable {selected : List Nat}

theorem probeRound_found {newGroups : List Nat} (holds : Holds context table keys)
    (distinct : selected.Nodup) (waiting : ∀ index ∈ selected,
      Waiting context table keys steps (offsets index) (hashes index) (rows index))
    (probed : probeRound context rows hashes offsets table addresses newGroups selected = round) :
    ∃ created, Found context rows table addresses keys selected round.noMatchVector round.table
        round.addresses created ∧ round.noMatchVector.Nodup ∧
      ∀ index ∈ round.noMatchVector, ∃ group other, round.table.ring (offsets index) = some group ∧
        (keys ++ created)[group]? = some other ∧ other ≠ rows index := by
  have begin : Visiting context rows offsets table addresses keys []
      { table, addresses, newGroups, emptyVector := [], groupCompareVector := []
        noMatchVector := [] } [] := by
    refine { ringed := ?_, capacity := rfl, entryType := rfl, groups := by simp,
             kept := fun _ _ taken => taken, parts := by simp, sameLength := rfl,
             opened := by simp, covered := ?_, compared := by simp, missed := by simp,
             untouched := fun _ _ => rfl, named := by simp }
    · rw [append_nil]
      exact holds.toRinged
    · intro group low high
      rw [length_nil] at high
      omega
  obtain ⟨created, visiting⟩ := begin.visitAll holds.length distinct waiting
  rw [nil_append, nil_append] at visiting
  have written := visiting.scatter holds.length
  subst probed
  unfold probeRound
  dsimp only
  generalize selected.foldl (Round.visit context.function.initial hashes offsets) _ = visited at visiting written ⊢
  obtain ⟨groups, grown⟩ : ∃ groups, groups = table.groups ++ created.map (newGroup context) := ⟨_, rfl⟩
  rw [written, ← grown]
  refine ⟨created, ?_⟩
  have final : Holds context { visited.table with groups } (keys ++ created) := by
    refine { visiting.ringed with values := ?_, hashes := ?_ }
    · simp only [grown, map_append, map_map, holds.values]
      rfl
    · simp only [grown, map_append, map_map, holds.hashes]
      rfl
  have parts := visiting.parts.nodup_iff.mpr distinct
  have inSelected (index : Nat) (listed : index ∈ visited.noMatchVector ++
      visited.groupCompareVector) : index ∈ selected :=
    visiting.parts.mem_iff.mp (mem_append_right _ listed)
  -- a comparison succeeds exactly for the group of the key
  have compared (index : Nat) (listed : index ∈ visited.groupCompareVector) :
      ∃ key, (keys ++ created)[visited.addresses index]? = some key ∧ UnambiguousKey context.groupTypes key ∧
        groupValues groups (visited.addresses index) = storeKey context.groupTypes key := by
    have inside := (visiting.ringed.probing.bounded _ _ (visiting.compared index listed)).2
    have there := getElem?_eq_getElem inside
    exact ⟨_, there, visiting.ringed.clear _ (getElem_mem inside), final.groupValues there⟩
  have left (index : Nat) : index ∈ compareGroups rows (groupValues groups <| visited.addresses ·)
        context.groupTypes 0 visited.groupCompareVector visited.noMatchVector ↔
      index ∈ visited.noMatchVector ∨ index ∈ visited.groupCompareVector ∧
        ¬(keys ++ created)[visited.addresses index]? = some (rows index) := by
    have own (listed : index ∈ visited.groupCompareVector) :=
      (waiting index (inSelected index (mem_append_right _ listed))).clear
    rw [mem_compareGroups fun listed => by rw [zero_add, (own listed).length_eq]]
    · refine or_congr_right (and_congr_right fun listed => ?_)
      obtain ⟨key, there, clear, values⟩ := compared index listed
      rw [values, there, drop_zero, drop_zero, ← Bool.not_eq_true,
        compareKey_storeKey (own listed) clear, Option.some.injEq]
      exact not_congr eq_comm
    · intro listed
      obtain ⟨key, there, clear, values⟩ := compared index listed
      rw [values, zero_add, storeKey, length_zipWith, clear.length_eq, min_self]
  obtain ⟨nodup, length⟩ := @compareGroups_nodup (groupValues groups <| visited.addresses ·)
    context.groupTypes rows 0 _ _ (nodup_append.mp parts).2.1
  refine ⟨?_, nodup, ?_⟩
  · refine { holds := final, capacity := visiting.capacity, entryType := visiting.entryType,
             groups := grown, kept := visiting.kept, room := ?_, subset := ?_, settled := ?_,
             untouched := visiting.untouched, named := visiting.named }
    · have total := visiting.parts.length_eq
      have same := visiting.sameLength
      simp only [length_append] at total
      omega
    · intro index listed
      rcases (left index).mp listed with missed | ⟨met, _⟩
      · exact inSelected index (mem_append_left _ missed)
      · exact inSelected index (mem_append_right _ met)
    · intro index listed gone
      have stays := mt (left index).mpr gone
      rcases mem_append.mp (visiting.parts.mem_iff.mpr listed) with opened | others
      · exact (visiting.opened index opened).1
      · rcases mem_append.mp others with missed | met
        · exact absurd (.inl missed) stays
        · by_contra differs
          exact stays (.inr ⟨met, differs⟩)
  · intro index listed
    rcases (left index).mp listed with missed | ⟨met, differs⟩
    · exact visiting.missed index missed
    · obtain ⟨key, there, _⟩ := compared index met
      refine ⟨visited.addresses index, key, visiting.compared index met, there, ?_⟩
      intro same
      exact differs (there.trans (congrArg some same))

theorem Found.trans {middle final : AggregateHashTable State}
    {middleAddresses finalAddresses : Nat → Nat} {left rest : List Nat} {later : List Key}
    (first : Found context rows table addresses keys selected left middle middleAddresses created)
    (second : Found context rows middle middleAddresses (keys ++ created) left rest final finalAddresses later) :
    Found context rows table addresses keys selected rest final finalAddresses (created ++ later) where
  holds := by
    rw [← append_assoc]
    exact second.holds
  capacity := second.capacity.trans first.capacity
  entryType := second.entryType.trans first.entryType
  groups := by
    rw [second.groups, first.groups, map_append, append_assoc]
  kept := fun slot group taken => second.kept slot group (first.kept slot group taken)
  room := by
    have firstRoom := first.room
    have secondRoom := second.room
    rw [length_append]
    omega
  subset := fun index listed => first.subset index (second.subset index listed)
  settled := by
    intro index listed gone
    rw [← append_assoc]
    by_cases waits : index ∈ left
    · exact second.settled index waits gone
    · have there := first.settled index listed waits
      have bound := (List.getElem?_eq_some_iff.mp there).1
      rw [second.untouched index waits, getElem?_append_left bound, there]
  untouched := by
    intro index outside
    have early : index ∉ left := fun listed => outside (first.subset index listed)
    rw [second.untouched index early, first.untouched index outside]
  named := by
    intro key listed
    rcases mem_append.mp listed with old | new
    · exact first.named key old
    · obtain ⟨index, waits, same⟩ := second.named key new
      exact ⟨index, first.subset index waits, same⟩

theorem Found.none (holds : Holds context table keys) :
    Found context rows table addresses keys [] [] table addresses [] where
  holds := by
    rw [append_nil]
    exact holds
  capacity := rfl
  entryType := rfl
  groups := by simp
  kept := fun _ _ taken => taken
  room := le_refl _
  subset := by simp
  settled := by simp
  untouched := fun _ _ => rfl
  named := by simp

theorem Waiting.next {offset hash : Nat} {key : Key} {later : AggregateHashTable State}
    (waiting : Waiting context table keys steps offset hash key)
    (positive : 0 < table.capacity) (capacity : later.capacity = table.capacity)
    (kept : ∀ slot group, table.ring slot = some group → later.ring slot = some group)
    (met : ∃ group other, later.ring offset = some group ∧ (keys ++ created)[group]? = some other ∧ other ≠ key) :
    Waiting context later (keys ++ created) (steps + 1) (advance table.capacity offset) hash key := by
  have sameOffset := offset_congr capacity hash
  refine { clear := waiting.clear, hashed := waiting.hashed, there := ?_, missed := ?_ }
  · rw [waiting.there, advance_place positive, capacity, sameOffset]
  intro before near
  rw [capacity, sameOffset]
  by_cases last : before = steps
  · rw [last, ← waiting.there]
    exact met
  · obtain ⟨group, other, taken, there, apart⟩ := waiting.missed before (by omega)
    have bound := (List.getElem?_eq_some_iff.mp there).1
    exact ⟨group, other, kept _ _ taken, by rw [getElem?_append_left bound, there], apart⟩

theorem probeLoop_found {fuel : Nat} {newGroups : List Nat} (holds : Holds context table keys)
    (distinct : selected.Nodup) (waiting : ∀ index ∈ selected,
      Waiting context table keys steps (offsets index) (hashes index) (rows index))
    (room : table.groups.length + selected.length < table.capacity)
    (enough : table.capacity < fuel + steps) :
    ∃ created, Found context rows table addresses keys selected []
      (probeLoop context rows hashes fuel offsets table addresses newGroups selected).1
      (probeLoop context rows hashes fuel offsets table addresses newGroups selected).2.1
      created := by
  induction fuel generalizing table keys steps offsets addresses newGroups selected with
  | zero =>
    cases selected with
    | nil => exact ⟨[], Found.none holds⟩
    | cons index rest =>
      have filled := (waiting index mem_cons_self).filled fun _ _ taken => taken
      have bound := holds.probing.filled_lt (by rw [← holds.length]; omega) (offset_lt holds.positive _) filled
      omega
  | succ fuel ih =>
    rw [probeLoop]
    cases selected with
    | nil => exact ⟨[], Found.none holds⟩
    | cons index rest =>
      rw [if_neg (by simp)]
      generalize index :: rest = selected at distinct waiting room
      generalize probed : probeRound context rows hashes offsets table addresses newGroups selected = round
      obtain ⟨created, found, nodup, met⟩ := probeRound_found holds distinct waiting probed
      have nextRoom : round.table.groups.length + round.noMatchVector.length < round.table.capacity := by
        have bound := found.room
        rw [found.groups, found.capacity, length_append, length_map]
        omega
      have nextWaiting : ∀ index ∈ round.noMatchVector, Waiting context round.table (keys ++ created) (steps + 1)
            (if index ∈ round.noMatchVector then advance table.capacity (offsets index)
              else offsets index) (hashes index) (rows index) := by
        intro index listed
        rw [if_pos listed]
        exact (waiting index (found.subset index listed)).next holds.positive found.capacity
          found.kept (met index listed)
      obtain ⟨later, rest⟩ := ih found.holds nodup nextWaiting nextRoom (by rw [found.capacity]; omega)
      exact ⟨created ++ later, found.trans rest⟩

end Visiting

section Resizing

variable {context : Aggregation Row State} {table : AggregateHashTable State}
  {keys : List Key} {count : Nat}

theorem firstUnused_spec {start steps fuel : Nat} {home : Nat → Nat}
    (sound : Sound table.ring table.capacity count home) (room : count < table.capacity)
    (inside : start < table.capacity) (filled : Filled table.ring table.capacity start steps)
    (enough : table.capacity ≤ fuel + steps) :
    ∃ distance, firstUnused table.slots table.capacity fuel (place table.capacity start steps) =
        place table.capacity start distance ∧
      Filled table.ring table.capacity start distance ∧
      table.slots (place table.capacity start distance) = none := by
  induction fuel generalizing steps with
  | zero =>
    have bound := sound.filled_lt room inside filled
    omega
  | succ fuel ih =>
    rw [firstUnused]
    cases met : table.slots (place table.capacity start steps) with
    | none => exact ⟨steps, rfl, filled, met⟩
    | some entry =>
      rw [advance_place (Nat.zero_lt_of_lt inside)]
      refine ih ?_ (by omega)
      intro before near
      by_cases last : before = steps
      · rw [last, AggregateHashTable.ring, met]
        simp
      · exact filled before (by omega)

theorem reinsert_ringed {rest : List (GroupEntry State)} {later : List Key}
    (ringed : Ringed context table keys) (distinct : (keys ++ later).Nodup)
    (clear : ∀ key ∈ later, UnambiguousKey context.groupTypes key)
    (hashes : rest.map GroupEntry.hash = later.map (keyHash context))
    (room : keys.length + later.length < table.capacity) :
    Ringed context (table.reinsert keys.length rest) (keys ++ later) ∧
      (table.reinsert keys.length rest).capacity = table.capacity ∧
      (table.reinsert keys.length rest).entryType = table.entryType ∧
      (table.reinsert keys.length rest).groups = table.groups := by
  induction rest generalizing table keys later with
  | nil =>
    rw [map_nil, eq_comm, map_eq_nil_iff] at hashes
    rw [hashes, append_nil]
    exact ⟨ringed, rfl, rfl, rfl⟩
  | cons entry rest ih =>
    cases later with
    | nil => cases hashes
    | cons key later =>
      rw [map_cons, map_cons, cons.injEq] at hashes
      obtain ⟨hash, hashes⟩ := hashes
      rw [length_cons] at room
      have startInside := offset_lt ringed.positive (keyHash context key)
      have nothing : Filled table.ring table.capacity (table.offset (keyHash context key)) 0 :=
        fun before near => absurd near (Nat.not_lt_zero before)
      obtain ⟨distance, there, filled, empty⟩ := @firstUnused_spec State table _ _ 0
        table.capacity _ ringed.probing (by omega) startInside nothing (by omega)
      rw [place_zero startInside] at there
      have new : key ∉ keys := fun old =>
        (nodup_append.mp distinct).2.2 key old key mem_cons_self rfl
      rw [reinsert, hash, there]
      have next : Ringed context { table with
          slots := update table.slots
            (place table.capacity (table.offset (keyHash context key)) distance)
            (some { salt := table.salt (keyHash context key), group := keys.length }) }
          (keys ++ [key]) :=
        ringed.insert new (clear key mem_cons_self) rfl rfl rfl empty rfl filled
      have around : keys ++ key :: later = (keys ++ [key]) ++ later := by simp
      rw [around] at distinct ⊢
      have lengths : keys.length + 1 = (keys ++ [key]).length := by simp
      rw [lengths]
      exact ih next distinct (fun other listed => clear other (mem_cons_of_mem _ listed))
        hashes (by rw [← lengths]; change _ < table.capacity; omega)

theorem Holds.resize (holds : Holds context table keys) {size : Nat} (larger : table.capacity < size)
    (room : keys.length < size) :
    ∃ resized, table.resize size = .ok resized ∧ Holds context resized keys ∧
      resized.capacity = max size standardVectorSize ∧ resized.entryType = table.entryType ∧
      resized.groups = table.groups := by
  have cleared : Ringed context { table with
      capacity := max size standardVectorSize, slots := fun _ => none } [] := by
    refine { positive := ?_, probing := Sound.empty _ _, salts := by simp, clear := by simp,
             distinct := nodup_nil }
    change 0 < max size standardVectorSize
    omega
  have enough : ([] : List Key).length + keys.length < max size standardVectorSize := by
    rw [length_nil]
    omega
  obtain ⟨ringed, capacity, entryType, groups⟩ := reinsert_ringed cleared holds.distinct holds.clear holds.hashes enough
  refine ⟨_, if_neg (not_le.mpr larger), ?_, capacity, entryType, groups⟩
  refine { ringed with values := ?_, hashes := ?_ }
  · rw [← holds.values]
    exact congrArg _ groups
  · rw [← holds.hashes]
    exact congrArg _ groups

structure Sized (table : AggregateHashTable State) : Prop where
  large : standardVectorSize * 2 ≤ table.capacity
  free : table.groups.length < table.capacity

variable {fits : Prop}

theorem Holds.ensureRoom (holds : Holds context table keys) (sized : Sized table) (small : count ≤ standardVectorSize)
    (fit : fits → table.groups.length + count ≤ table.maxCapacity context) :
    Yields fits (fun roomy => Holds context roomy keys ∧
        standardVectorSize * 2 ≤ roomy.capacity ∧ roomy.groups.length + count < roomy.capacity ∧
        roomy.entryType = table.entryType ∧ roomy.groups = table.groups)
      (table.ensureRoom context count) := by
  obtain ⟨large, free⟩ := sized
  have length := holds.length
  unfold AggregateHashTable.ensureRoom
  split
  next tooMany =>
    exact fun room => not_lt.mpr (fit room) tooMany
  split
  · have positive := holds.positive
    obtain ⟨resized, same, resizedHolds, capacity, entryType, groups⟩ :=
      @Holds.resize Row State context table keys holds (table.capacity * 2) (by omega) (by omega)
    rw [same]
    refine ⟨resizedHolds, ?_, ?_, entryType, groups⟩
    · rw [capacity]
      omega
    · rw [capacity, groups]
      omega
  · exact ⟨holds, large, by omega, rfl, rfl⟩

structure FoundGroups (context : Aggregation Row State) (table : AggregateHashTable State)
    (keys rows : List Key) (found : AggregateHashTable State) (addresses : Nat → Nat)
    (created : List Key) : Prop where
  holds : Holds context found (keys ++ created)
  sized : Sized found
  entryType : found.entryType = table.entryType
  groups : found.groups = table.groups ++ created.map (newGroup context)
  settled : ∀ (index : Nat) (key : Key), rows[index]? = some key →
    (keys ++ created)[addresses index]? = some key
  named : ∀ key ∈ created, key ∈ rows

theorem Holds.findOrCreateGroups (holds : Holds context table keys) (sized : Sized table)
    {rows : List Key} {hashes : Nat → Nat} (small : rows.length ≤ standardVectorSize)
    (clear : ∀ key ∈ rows, UnambiguousKey context.groupTypes key)
    (hashed : ∀ (index : Nat) (key : Key), rows[index]? = some key → hashes index = keyHash context key)
    (fit : fits → table.groups.length + rows.length ≤ table.maxCapacity context) :
    Yields fits (fun found => ∃ created, FoundGroups context table keys rows found.1 found.2.1 created)
      (table.findOrCreateGroups context rows hashes) := by
  refine (holds.ensureRoom sized small fit).bind fun roomy given => ?_
  obtain ⟨roomyHolds, large, free, entryType, groups⟩ := given
  have waiting : ∀ index ∈ range rows.length,
      Waiting context roomy keys 0 (roomy.offset (hashes index)) (hashes index) (rows.getD index []) := by
    intro index listed
    have inside := mem_range.mp listed
    have there := getElem?_eq_getElem inside
    rw [getD_eq_getElem _ _ inside]
    exact {
      clear := clear _ (getElem_mem inside)
      hashed := hashed index _ there
      there := (place_zero (offset_lt roomyHolds.positive _)).symm
      missed := fun before near => absurd near (Nat.not_lt_zero before) }
  obtain ⟨created, all⟩ := @probeLoop_found Row State context
    (fun index => rows.getD index []) hashes (fun index => roomy.offset (hashes index))
    (fun _ => 0) roomy keys 0 _ (roomy.capacity + 1) [] roomyHolds nodup_range waiting
    (by rw [length_range]; exact free) (by omega)
  refine ⟨created, all.holds, ⟨?_, ?_⟩, all.entryType.trans entryType, ?_, ?_, ?_⟩
  · rw [all.capacity]
    exact large
  · have bound := all.room
    rw [length_range, length_nil] at bound
    rw [all.capacity, all.groups, length_append, length_map]
    omega
  · rw [all.groups, groups]
  · intro index key there
    have inside := (List.getElem?_eq_some_iff.mp there).1
    have final := all.settled index (mem_range.mpr inside) (by simp)
    rwa [getD_eq_getElem?_getD, there] at final
  · intro key listed
    obtain ⟨index, inRange, same⟩ := all.named key listed
    have inside := mem_range.mp inRange
    rw [getD_eq_getElem _ _ inside] at same
    exact same ▸ getElem_mem inside

theorem create_holds {context : Aggregation Row State} {entryType : HtEntryType} :
    Holds context (create entryType) [] := by
  refine { positive := ?_, probing := Sound.empty _ _, salts := ?_, clear := by simp,
           distinct := nodup_nil, values := rfl, hashes := rfl }
  · change 0 < standardVectorSize * 2
    decide
  · intro slot entry taken
    cases taken

end Resizing

end AggregateHashTable

end GuinsooDB
