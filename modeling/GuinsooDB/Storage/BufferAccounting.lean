import GuinsooDB.Storage.BufferManager
import GuinsooDB.Library.Transition
import Mathlib.Algebra.BigOperators.Group.List.Basic

/-!
The memory counter is the memory of the loaded blocks. The loop that evicts blocks keeps the
counter ahead by the memory that the call asks for.
-/

namespace GuinsooDB

open Option Transition List Or

def loadedUsage : Option BlockHandle → Nat
  | some handle => if handle.loaded then handle.memoryUsage else 0
  | none => 0

/-- A block is unpinned as often as it was pinned, and is in memory while it is pinned. -/
structure BlockHandle.Sound (handle : BlockHandle) : Prop where
  pinned : handle.readers = handle.pins
  kept : 0 < handle.readers → handle.loaded = true
  buffered : handle.loaded = true → handle.buffer = true

namespace BufferManager

variable {manager next : BufferManager} {name limit extra : Nat} {handle : BlockHandle}
  {events : BufferEvents}

def loadedMemory (manager : BufferManager) : Nat := (manager.handles.map loadedUsage).sum

structure Accounted (manager : BufferManager) : Prop where
  memory : manager.currentMemory = manager.loadedMemory
  limited : manager.currentMemory ≤ manager.maximumMemory
  bounded : manager.maximumMemory < 2 ^ 64
  handles : ∀ name handle, manager.lookup name = some handle → handle.Sound

/-! Handles and their sum -/

theorem lookup_eq_some : manager.lookup name = some handle ↔ manager.handles[name]? = some (some handle) := by
  rw [lookup]
  cases manager.handles[name]? <;> simp

theorem lookup_setHandle (changed : Option BlockHandle) (inside : name < manager.handles.length)
    (other : Nat) : (manager.setHandle name changed).lookup other =
      if other = name then changed else manager.lookup other := by
  rw [lookup, setHandle, getElem?_set]
  by_cases same : other = name
  · simp [same, inside]
  · rw [if_neg (Ne.symm same), if_neg same, lookup]

variable (found : manager.lookup name = some handle)

include found in
theorem lookup_inside : name < manager.handles.length := by
  obtain ⟨inside, _⟩ := List.getElem?_eq_some_iff.mp (lookup_eq_some.mp found)
  exact inside

theorem sum_set {list : List (Option BlockHandle)} (index : Nat) (before after : Option BlockHandle)
    (found : list[index]? = some before) :
    ((list.set index after).map loadedUsage).sum + loadedUsage before =
      (list.map loadedUsage).sum + loadedUsage after := by
  induction list generalizing index with
  | nil => simp at found
  | cons first rest ih =>
    cases index with
    | zero =>
      simp only [getElem?_cons_zero, some.injEq] at found
      simp only [set_cons_zero, map_cons, sum_cons, found]
      omega
    | succ index =>
      have tail := ih index (by simpa using found)
      simp only [set_cons_succ, map_cons, sum_cons]
      omega

include found in
theorem loadedMemory_setHandle (changed : Option BlockHandle) :
    (manager.setHandle name changed).loadedMemory + loadedUsage (some handle) =
      manager.loadedMemory + loadedUsage changed :=
  sum_set name (some handle) changed (lookup_eq_some.mp found)

include found in
theorem usage_le : loadedUsage (some handle) ≤ manager.loadedMemory := by
  have changed := loadedMemory_setHandle found none
  simp only [loadedUsage] at changed ⊢
  omega

variable {first second : Nat}

theorem subWord_of_le (fits : first < 2 ^ 64) (below : second ≤ first) : subWord first second = first - second := by
  rw [subWord, Nat.mod_eq_of_lt (by omega : second < 2 ^ 64)]
  have turned : first + (2 ^ 64 - second) = first - second + 2 ^ 64 := by omega
  rw [turned, Nat.add_mod_right, Nat.mod_eq_of_lt (by omega)]

theorem addWord_of_lt (fits : first + second < 2 ^ 64) : addWord first second = first + second := Nat.mod_eq_of_lt fits

structure Evicting (extra : Nat) (manager : BufferManager) : Prop where
  memory : manager.currentMemory = manager.loadedMemory + extra
  fits : manager.currentMemory < 2 ^ 64
  handles : ∀ name handle, manager.lookup name = some handle → handle.Sound

structure Unloads (manager next : BufferManager) : Prop where
  maximumMemory : next.maximumMemory = manager.maximumMemory
  handles : ∀ name, next.lookup name = manager.lookup name ∨ ∃ handle,
    manager.lookup name = some handle ∧ handle.loaded = true ∧ handle.readers = 0 ∧
      next.lookup name = some { handle with loaded := false, buffer := false }

theorem Unloads.refl (manager : BufferManager) : Unloads manager manager := ⟨rfl, fun _ => inl rfl⟩

theorem Unloads.trans {last : BufferManager} (first : Unloads manager next)
    (second : Unloads next last) : Unloads manager last := by
  refine ⟨second.maximumMemory.trans first.maximumMemory, fun name => ?_⟩
  rcases second.handles name with same | ⟨handle, found, loaded, idle, unloaded⟩
  · rw [same]
    exact first.handles name
  rcases first.handles name with same | ⟨before, _, _, _, already⟩
  · rw [same] at found
    exact inr ⟨handle, found, loaded, idle, unloaded⟩
  · rw [already] at found
    cases found
    cases loaded

theorem Unloads.untouched (unloads : Unloads manager next) (found : manager.lookup name = some handle)
    (held : 0 < handle.readers ∨ handle.loaded = false) : next.lookup name = some handle := by
  rcases unloads.handles name with same | ⟨other, foundOther, loaded, idle, _⟩
  · rw [same, found]
  rw [found] at foundOther
  cases foundOther
  rcases held with read | unloaded
  · omega
  · rw [unloaded] at loaded
    cases loaded

variable {tempDirectory : Bool}

theorem canUnload_iff (can : handle.canUnload tempDirectory = true) : handle.loaded = true ∧ handle.readers = 0 := by
  simp only [BlockHandle.canUnload, Bool.and_eq_true, decide_eq_true_eq] at can
  exact ⟨can.1.1, can.1.2⟩

theorem unload_evicting (evicting : Evicting extra manager)
    (found : manager.lookup name = some handle) (loaded : handle.loaded = true)
    (idle : handle.readers = 0) :
    ∃ next, manager.unload name handle false = (next, false) ∧ Evicting extra next ∧
      Unloads manager next ∧ next.currentMemory ≤ manager.currentMemory := by
  have inside := lookup_inside found
  have small := usage_le found
  have sum := loadedMemory_setHandle found (some { handle with loaded := false, buffer := false })
  have memory := evicting.memory
  have fits := evicting.fits
  simp only [loadedUsage, loaded, if_true, Bool.false_eq_true, if_false] at small sum
  have lowered := subWord_of_le fits (show handle.memoryUsage ≤ manager.currentMemory by omega)
  have made : manager.unload name handle false = ({ manager.setHandle name
      (some { handle with loaded := false, buffer := false }) with
      currentMemory := subWord manager.currentMemory handle.memoryUsage }, false) := by
    simp [unload]
  refine ⟨_, made, ⟨?_, ?_, ?_⟩, ⟨rfl, ?_⟩, ?_⟩
  · change subWord _ _ = (manager.setHandle name _).loadedMemory + extra
    omega
  · change subWord _ _ < _
    omega
  · intro other changed there
    change (manager.setHandle name _).lookup other = some changed at there
    rw [lookup_setHandle _ inside] at there
    split at there
    · cases there
      have sound := evicting.handles name handle found
      refine ⟨sound.pinned, fun read => ?_, fun impossible => by cases impossible⟩
      exact absurd idle (ne_of_gt read)
    · exact evicting.handles other changed there
  · intro other
    change (manager.setHandle name _).lookup other = _ ∨ _
    rw [lookup_setHandle _ inside]
    by_cases same : other = name
    · rw [if_pos same, same]
      exact inr ⟨handle, found, loaded, idle, by
        change (manager.setHandle name _).lookup name = _
        rw [lookup_setHandle _ inside, if_pos rfl]⟩
    · rw [if_neg same]
      exact inl rfl
  · change subWord _ _ ≤ _
    omega

theorem evictLoop_evicting (silent : events.writeThrows = []) {fuel : Nat} (evicting : Evicting extra manager) :
    ∃ next result, evictLoop events limit fuel manager = (next, result) ∧ result ≠ .threw ∧
      Evicting extra next ∧ Unloads manager next ∧ next.currentMemory ≤ manager.currentMemory ∧
      (result = .done → next.currentMemory ≤ limit) := by
  induction fuel generalizing manager with
  | zero =>
    refine ⟨manager, _, rfl, ?_, evicting, .refl manager, le_refl _, ?_⟩
    · split <;> simp
    · split
      · simp
      · intro _
        omega
  | succ fuel ih =>
    rw [evictLoop]
    split
    · -- a round that only takes a node leaves the rest to the next one
      have skip : ∀ queue : List EvictionNode, ∃ next result,
          evictLoop events limit fuel { manager with queue } = (next, result) ∧ result ≠ .threw ∧
          Evicting extra next ∧ Unloads manager next ∧
          next.currentMemory ≤ manager.currentMemory ∧
          (result = .done → next.currentMemory ≤ limit) := by
        intro queue
        obtain ⟨next, result, looped, quiet, after, unloads, lower, done⟩ :=
          @ih { manager with queue } ⟨evicting.memory, evicting.fits, evicting.handles⟩
        exact ⟨next, result, looped, quiet, after, ⟨unloads.maximumMemory, unloads.handles⟩, lower, done⟩
      split
      · exact ⟨manager, .exhausted, rfl, by simp, evicting, .refl manager, le_refl _, by simp⟩
      rename_i node queue _
      dsimp only
      split
      · exact skip queue
      rename_i handle found
      split
      next can =>
        obtain ⟨loaded, idle⟩ := canUnload_iff can.2
        obtain ⟨unloaded, made, kept, unloads, lower⟩ :=
          @unload_evicting { manager with queue } node.handle extra handle
            ⟨evicting.memory, evicting.fits, evicting.handles⟩ found loaded idle
        rw [silent, contains_nil, made]
        obtain ⟨next, result, looped, quiet, after, more, lowerStill, done⟩ := ih kept
        refine ⟨next, result, looped, quiet, after, ?_, le_trans lowerStill lower, done⟩
        have both := unloads.trans more
        exact ⟨both.maximumMemory, both.handles⟩
      · exact skip queue
    · refine ⟨manager, .done, rfl, by simp, evicting, .refl manager, le_refl _, fun _ => ?_⟩
      omega

theorem evictBlocks_spec (silent : events.writeThrows = [])
    (accounted : manager.Accounted) (fits : manager.currentMemory + extra < 2 ^ 64) :
    ∃ next result, manager.evictBlocks events extra limit = (next, result) ∧ Unloads manager next ∧
      (result = .done ∧ Evicting extra next ∧ next.currentMemory ≤ limit ∧
          next.currentMemory ≤ manager.currentMemory + extra ∨
        result = .exhausted ∧ Evicting 0 next ∧ next.currentMemory ≤ manager.currentMemory) := by
  have raised : Evicting extra { manager with currentMemory := addWord manager.currentMemory extra } := by
    refine ⟨?_, ?_, accounted.handles⟩
    · change addWord _ _ = manager.loadedMemory + extra
      rw [addWord_of_lt fits, accounted.memory]
    · change addWord _ _ < _
      rwa [addWord_of_lt fits]
  obtain ⟨next, result, looped, quiet, after, unloads, lower, done⟩ := evictLoop_evicting silent raised
  change next.currentMemory ≤ addWord _ _ at lower
  rw [addWord_of_lt fits] at lower
  rw [evictBlocks, looped]
  cases result with
  | threw => exact absurd rfl quiet
  | done =>
    exact ⟨next, .done, rfl, ⟨unloads.maximumMemory, unloads.handles⟩, inl ⟨rfl, after, done rfl, lower⟩⟩
  | exhausted =>
    have memory := after.memory
    have lowered := subWord_of_le after.fits (show extra ≤ next.currentMemory by omega)
    refine ⟨_, .exhausted, rfl, ⟨unloads.maximumMemory, unloads.handles⟩, inr ⟨rfl, ⟨?_, ?_, after.handles⟩, ?_⟩⟩
    · change subWord _ _ = next.loadedMemory + 0
      omega
    · change subWord _ _ < _
      omega
    · change subWord _ _ ≤ _
      omega

structure Keeps (manager next : BufferManager) (outcome : BufferOutcome) : Prop where
  accounted : next.Accounted
  pinned : ∀ name handle, manager.lookup name = some handle → 0 < handle.readers →
    ∃ after, next.lookup name = some after ∧ after.loaded = true ∧ after.buffer = true
  failed : outcome = .threw → next.maximumMemory = manager.maximumMemory ∧
    ∀ name, (next.lookup name).map BlockHandle.readers = (manager.lookup name).map BlockHandle.readers

structure BufferEvents.Silent (events : BufferEvents) : Prop where
  reads : events.readThrows = false
  writes : events.writeThrows = []

/-- No error happens during a call that may load or unload blocks, no temporary block that may
be destroyed is pinned after it was, and the counter does not overflow. -/
def Allowed (manager : BufferManager) : BufferCall → Prop
  | .registerMemory allocSize _ events =>
    BufferEvents.Silent events ∧ manager.currentMemory + allocSize.toNat < 2 ^ 64
  | .pin name events => ∀ handle, manager.lookup name = some handle → handle.loaded = false →
      BufferEvents.Silent events ∧ (handle.isTemporary && handle.canDestroy) = false ∧
        manager.currentMemory + handle.memoryUsage < 2 ^ 64
  | .setLimit _ events => BufferEvents.Silent events
  | .registerBlock _ | .unpin _ | .destroy _ => True

theorem Unloads.readers (unloads : Unloads manager next) (name : Nat) :
    (next.lookup name).map BlockHandle.readers = (manager.lookup name).map BlockHandle.readers := by
  rcases unloads.handles name with same | ⟨handle, found, _, _, unloaded⟩
  · rw [same]
  · rw [found, unloaded]
    rfl

theorem Unloads.pinned (unloads : Unloads manager next) (accounted : manager.Accounted)
    (found : manager.lookup name = some handle) (read : 0 < handle.readers) :
    next.lookup name = some handle ∧ handle.loaded = true ∧ handle.buffer = true := by
  have sound := accounted.handles name handle found
  exact ⟨unloads.untouched found (inl read), sound.kept read, sound.buffered (sound.kept read)⟩

variable {outcome : BufferOutcome}

theorem keeps_exhausted (accounted : manager.Accounted) (unloads : Unloads manager next)
    (evicted : Evicting 0 next) (lower : next.currentMemory ≤ manager.currentMemory) :
    Keeps manager next outcome where
  accounted := {
    memory := evicted.memory
    limited := by
      rw [unloads.maximumMemory]
      exact le_trans lower accounted.limited
    bounded := by
      rw [unloads.maximumMemory]
      exact accounted.bounded
    handles := evicted.handles }
  pinned := fun _ _ found read => ⟨_, unloads.pinned accounted found read⟩
  failed := fun _ => ⟨unloads.maximumMemory, unloads.readers⟩

theorem Accounted.evicting (accounted : manager.Accounted) : Evicting 0 manager :=
  ⟨accounted.memory, lt_of_le_of_lt accounted.limited accounted.bounded, accounted.handles⟩

/-- `changed` has the handles of `manager`, but for new ones and loaded ones. -/
def Refreshes (manager changed : BufferManager) : Prop :=
  ∀ name, changed.lookup name = manager.lookup name ∨ ∃ handle, changed.lookup name = some handle ∧
    handle.Sound ∧ (manager.lookup name = none ∨ handle.loaded = true)

theorem lookup_append (manager : BufferManager) (added : BlockHandle) (name : Nat) :
    ((manager.handles ++ [some added])[name]?).join =
      if name = manager.handles.length then some added else manager.lookup name := by
  rw [getElem?_append, lookup]
  by_cases inside : name < manager.handles.length
  · rw [if_pos inside, if_neg (ne_of_lt inside)]
  by_cases last : name = manager.handles.length
  · simp [last]
  · have beyond : name - manager.handles.length ≠ 0 := by omega
    rw [if_neg inside, if_neg last, getElem?_eq_none (by omega : _ ≤ name)]
    simp [beyond]

theorem refreshes_append {changed : BufferManager}
    (handles : changed.handles = manager.handles ++ [some handle]) (sound : handle.Sound) :
    Refreshes manager changed := by
  intro name
  rw [lookup, handles, lookup_append]
  split
  next last =>
    exact .inr ⟨handle, rfl, sound, .inl (by simp [lookup, last])⟩
  · exact .inl rfl

include found in
theorem refreshes_setHandle {changed : BlockHandle} (sound : changed.Sound) (loaded : changed.loaded = true) :
    Refreshes manager (manager.setHandle name (some changed)) := by
  intro other
  rw [lookup_setHandle _ (lookup_inside found)]
  split
  · exact .inr ⟨changed, rfl, sound, .inr loaded⟩
  · exact .inl rfl

section

variable (accounted : manager.Accounted)
include accounted

/-- Blocks have been evicted for the memory of the handle that is changed then. -/
theorem keeps_refreshed {evicted : BufferManager} (unloads : Unloads manager evicted)
    (evicting : Evicting extra evicted) (below : evicted.currentMemory ≤ manager.maximumMemory)
    (counter : next.currentMemory = evicted.currentMemory)
    (limit : next.maximumMemory = evicted.maximumMemory)
    (loads : next.loadedMemory = evicted.loadedMemory + extra) (refreshes : Refreshes evicted next) :
    Keeps manager next .returned := by
  rw [unloads.maximumMemory] at limit
  refine ⟨⟨?_, ?_, ?_, fun name handle found => ?_⟩, fun name handle found read => ?_,
    fun impossible => by cases impossible⟩
  · rw [counter, loads, evicting.memory]
  · rwa [counter, limit]
  · rw [limit]
    exact accounted.bounded
  · rcases refreshes name with same | ⟨changed, there, sound, _⟩
    · exact evicting.handles name handle (same ▸ found)
    · rw [there] at found
      cases found
      exact sound
  · obtain ⟨kept, loaded, buffered⟩ := unloads.pinned accounted found read
    rcases refreshes name with same | ⟨changed, there, sound, isNew | loadedNow⟩
    · exact ⟨handle, same.trans kept, loaded, buffered⟩
    · rw [kept] at isNew
      cases isNew
    · exact ⟨changed, there, loadedNow, sound.buffered loadedNow⟩

theorem Accounted.registerBlock (blockId : Nat) : Keeps manager (manager.registerBlock blockId) .returned := by
  rw [BufferManager.registerBlock]
  split
  · exact keeps_refreshed accounted (.refl _) accounted.evicting accounted.limited rfl rfl rfl fun _ => .inl rfl
  · refine keeps_refreshed accounted (.refl _) accounted.evicting accounted.limited rfl rfl ?_
      (refreshes_append rfl ⟨rfl, by simp, by simp⟩)
    simp [loadedMemory, loadedUsage]

theorem Accounted.registerMemory {allocSize : UInt64} {canDestroy : Bool}
    (silent : BufferEvents.Silent events) (fits : manager.currentMemory + allocSize.toNat < 2 ^ 64)
    (called : manager.registerMemory events allocSize canDestroy = (next, outcome)) :
    Keeps manager next outcome := by
  obtain ⟨evicted, result, made, unloads, cases⟩ :=
    @evictBlocks_spec manager manager.maximumMemory _ events silent.writes accounted fits
  rw [BufferManager.registerMemory, made] at called
  rcases cases with ⟨rfl, evicting, below, _⟩ | ⟨rfl, evicting, lower⟩
  · cases called
    refine keeps_refreshed accounted unloads evicting below rfl rfl ?_ (refreshes_append rfl ⟨rfl, by simp, by simp⟩)
    simp [loadedMemory, loadedUsage]
  · cases called
    exact keeps_exhausted accounted unloads evicting lower

section

variable (found : manager.lookup name = some handle)
include found

theorem Accounted.pin (allowed : Allowed manager (.pin name events))
    (called : manager.pin events name handle = (next, outcome)) : Keeps manager next outcome := by
  have sound := accounted.handles name handle found
  rw [BufferManager.pin] at called
  split at called
  next loaded =>
    cases called
    refine keeps_refreshed accounted (.refl _) accounted.evicting accounted.limited rfl rfl ?_
      (refreshes_setHandle found ⟨congrArg (· + 1) sound.pinned, fun _ => loaded, sound.buffered⟩ loaded)
    have sum := loadedMemory_setHandle found (some { handle with
      readers := handle.readers + 1, pins := handle.pins + 1 })
    simp only [loadedUsage] at sum
    omega
  next unloaded =>
    have away : handle.loaded = false := by simpa using unloaded
    obtain ⟨silent, readable, fits⟩ := allowed handle found away
    obtain ⟨evicted, result, made, unloads, cases⟩ :=
      @evictBlocks_spec manager manager.maximumMemory _ events silent.writes accounted fits
    rw [made] at called
    rcases cases with ⟨rfl, evicting, below, _⟩ | ⟨rfl, evicting, lower⟩
    · have still := unloads.untouched found (inr away)
      have idle : handle.readers = 0 := by
        by_contra read
        rw [sound.kept (Nat.pos_of_ne_zero read)] at away
        cases away
      simp only [load, readable, silent.reads, Bool.false_eq_true, if_false, Prod.mk.injEq] at called
      obtain ⟨rfl, rfl⟩ := called
      refine keeps_refreshed accounted unloads evicting below rfl rfl ?_ (refreshes_setHandle still
        ⟨by rw [← sound.pinned, idle], fun _ => rfl, fun _ => rfl⟩ rfl)
      have sum := loadedMemory_setHandle still (some { handle with
          readers := 1, loaded := true, buffer := true, pins := handle.pins + 1 })
      simp only [loadedUsage, away, Bool.false_eq_true, if_false, if_true] at sum
      omega
    · cases called
      exact keeps_exhausted accounted unloads evicting lower

theorem Accounted.unpin (pins : handle.pins ≠ 0) : Keeps manager (manager.unpin name handle) .returned := by
  have sound := accounted.handles name handle found
  have loaded := sound.kept (by rw [sound.pinned]; omega)
  have left (timestamp : Nat) (queue : List EvictionNode) : Keeps manager { manager.setHandle name
      (some { handle with
        readers := handle.readers - 1, pins := handle.pins - 1, evictionTimestamp := timestamp }) with
      queue } .returned := by
    refine keeps_refreshed accounted (.refl _) accounted.evicting accounted.limited rfl rfl ?_
      (refreshes_setHandle found ⟨congrArg (· - 1) sound.pinned, fun _ => loaded, sound.buffered⟩ loaded)
    have sum := loadedMemory_setHandle found (some { handle with
      readers := handle.readers - 1, pins := handle.pins - 1, evictionTimestamp := timestamp })
    simp only [loadedUsage] at sum
    exact add_right_cancel sum
  rw [BufferManager.unpin]
  split
  · exact left _ _
  · exact left _ _

theorem Accounted.destroy (pins : handle.pins = 0) : Keeps manager (manager.destroy name handle) .returned := by
  have inside := lookup_inside found
  have sound := accounted.handles name handle found
  have small := usage_le found
  have sum := loadedMemory_setHandle found none
  have memory := accounted.memory
  have limited := accounted.limited
  have bounded := accounted.bounded
  have counted : (manager.destroy name handle).currentMemory = manager.currentMemory - loadedUsage (some handle) := by
    rw [BufferManager.destroy, loadedUsage]
    split
    next loaded =>
      rw [loadedUsage, if_pos loaded] at small
      exact subWord_of_le (by omega) (by omega)
    · rfl
  refine ⟨⟨?_, ?_, bounded, ?_⟩, ?_, fun impossible => by cases impossible⟩
  · rw [counted]
    change _ = (manager.setHandle name none).loadedMemory
    rw [show loadedUsage none = 0 from rfl] at sum
    omega
  · rw [counted]
    change _ ≤ manager.maximumMemory
    omega
  · intro other reader there
    change (manager.setHandle name none).lookup other = some reader at there
    rw [lookup_setHandle _ inside] at there
    split at there
    · cases there
    · exact accounted.handles other reader there
  · intro other reader there read
    have soundOther := accounted.handles other reader there
    refine ⟨reader, ?_, soundOther.kept read, soundOther.buffered (soundOther.kept read)⟩
    change (manager.setHandle name none).lookup other = some reader
    rw [lookup_setHandle _ inside, if_neg, there]
    rintro rfl
    rw [found] at there
    cases there
    have none := sound.pinned
    omega

end

theorem Accounted.setLimit (silent : BufferEvents.Silent events) {bound : UInt64}
    (called : manager.setLimit events bound = (next, outcome)) : Keeps manager next outcome := by
  have fits := lt_of_le_of_lt accounted.limited accounted.bounded
  obtain ⟨evicted, result, made, unloads, cases⟩ :=
    @evictBlocks_spec manager bound.toNat 0 events silent.writes accounted fits
  rw [BufferManager.setLimit, made] at called
  rcases cases with ⟨rfl, evicting, below, lower⟩ | ⟨rfl, evicting, lower⟩
  · have limited : ({ evicted with maximumMemory := bound.toNat } : BufferManager).Accounted :=
      ⟨evicting.memory, below, bound.toNat_lt, evicting.handles⟩
    obtain ⟨again, result, madeAgain, unloadsAgain, casesAgain⟩ :=
      @evictBlocks_spec { evicted with maximumMemory := bound.toNat } bound.toNat 0 events
        silent.writes limited (lt_of_le_of_lt below bound.toNat_lt)
    simp only [madeAgain] at called
    rcases casesAgain with ⟨rfl, evictingAgain, belowAgain, _⟩ | ⟨rfl, evictingAgain, lowerAgain⟩
    · cases called
      refine ⟨⟨evictingAgain.memory, ?_, ?_, evictingAgain.handles⟩, ?_, fun impossible => by cases impossible⟩
      · exact le_trans belowAgain (le_of_eq unloadsAgain.maximumMemory.symm)
      · exact lt_of_le_of_lt (le_of_eq unloadsAgain.maximumMemory) bound.toNat_lt
      · intro other reader there read
        obtain ⟨same, loaded, buffered⟩ := unloads.pinned accounted there read
        exact ⟨reader, unloadsAgain.untouched same (inl read), loaded, buffered⟩
    · cases called
      have both : Unloads manager { again with maximumMemory := evicted.maximumMemory } :=
        unloads.trans ⟨rfl, unloadsAgain.handles⟩
      have less : again.currentMemory ≤ evicted.currentMemory := lowerAgain
      exact keeps_exhausted accounted both
        ⟨evictingAgain.memory, evictingAgain.fits, evictingAgain.handles⟩ (le_trans less lower)
  · cases called
    exact keeps_exhausted accounted unloads evicting lower

theorem Accounted.step {call : BufferCall} (allowed : Allowed manager call)
    (stepped : manager.step call = some (next, outcome)) : Keeps manager next outcome := by
  cases call with
  | registerBlock blockId =>
    cases stepped
    exact accounted.registerBlock blockId
  | registerMemory allocSize canDestroy events =>
    exact accounted.registerMemory allowed.1 allowed.2 (some.inj stepped)
  | pin name events =>
    obtain ⟨handle, found, called⟩ := map_eq_some_iff.mp stepped
    exact accounted.pin found allowed called
  | unpin name =>
    obtain ⟨handle, found, called⟩ := bind_eq_some_iff.mp stepped
    split at called
    · cases called
    next pins =>
      cases called
      exact accounted.unpin found pins
  | destroy name =>
    obtain ⟨handle, found, called⟩ := bind_eq_some_iff.mp stepped
    split at called
    next pins =>
      cases called
      exact accounted.destroy found pins
    · cases called
  | setLimit limit events => exact accounted.setLimit allowed (some.inj stepped)

end

theorem start_accounted {bound : UInt64} : (start bound tempDirectory).Accounted where
  memory := rfl
  limited := Nat.zero_le _
  bounded := bound.toNat_lt
  handles := fun name handle found => by simp [start, lookup] at found

def after (manager : BufferManager) (call : BufferCall) : Option BufferManager :=
  (manager.step call).map Prod.fst

/-- The counter is right after every history of calls, and the next call keeps it so. -/
theorem run_memory_accounted {bound : UInt64} {tempDirectory : Bool} {calls : List BufferCall}
    (meets : Transition.MeetsPartial after Allowed (start bound tempDirectory) calls)
    (ran : runPartial after (start bound tempDirectory) calls = some manager) :
    manager.Accounted ∧ ∀ call next outcome, Allowed manager call →
      manager.step call = some (next, outcome) → Keeps manager next outcome := by
  have accounted : manager.Accounted := by
    refine runPartial_keeps (fun state call next accounted allowed stepped => ?_)
      (start_accounted) meets ran
    obtain ⟨⟨_, outcome⟩, made, rfl⟩ := map_eq_some_iff.mp stepped
    exact (accounted.step allowed made).accounted
  exact ⟨accounted, fun call next outcome allowed stepped => accounted.step allowed stepped⟩

instance (events : BufferEvents) : Decidable (BufferEvents.Silent events) :=
  decidable_of_iff (events.readThrows = false ∧ events.writeThrows = [])
    ⟨fun ⟨reads, writes⟩ => ⟨reads, writes⟩, fun silent => ⟨silent.reads, silent.writes⟩⟩

instance (manager : BufferManager) : (call : BufferCall) → Decidable (Allowed manager call)
  | .registerMemory _ _ _ => inferInstanceAs (Decidable (_ ∧ _))
  | .pin name _ =>
    match found : manager.lookup name with
    | none => isTrue fun _ there => absurd (found.symm.trans there).symm (some_ne_none _)
    | some handle => decidable_of_iff (handle.loaded = false → _) ⟨fun given _ there =>
      Option.some.inj (found.symm.trans there) ▸ given, fun given => given handle found⟩
  | .setLimit _ events => inferInstanceAs (Decidable (BufferEvents.Silent events))
  | .registerBlock _ | .unpin _ | .destroy _ => instDecidableTrue

def quietly : BufferEvents where
  readThrows := false
  writeThrows := []
  position := fun _ => 0

def evictAndReload : List BufferCall :=
  [.registerMemory 262144 false quietly, .pin 0 quietly, .unpin 0,
    .registerMemory 262144 false quietly, .registerBlock 7, .pin 1 quietly, .unpin 1,
    .pin 0 quietly, .pin 2 quietly, .unpin 0, .setLimit 300000 quietly, .destroy 1]

theorem run_memory_accounted_evictAndReload : ∃ manager,
    runPartial after (start 400000 true) evictAndReload = some manager ∧
      manager.Accounted ∧ ∀ call next outcome, Allowed manager call →
        manager.step call = some (next, outcome) → Keeps manager next outcome := by
  have ends : (runPartial after (start 400000 true) evictAndReload).isSome = true := by
    decide +kernel
  obtain ⟨manager, ran⟩ := isSome_iff_exists.mp ends
  have checked : checkPartial after (fun state call => decide (Allowed state call))
      (start 400000 true) evictAndReload = true := by
    decide +kernel
  exact ⟨manager, ran,
    run_memory_accounted (meetsPartial_of_check (fun _ _ => of_decide_eq_true) checked) ran⟩

/-! Calls that the condition excludes -/

def unreadable : List BufferCall := [.registerBlock 7, .pin 0 { quietly with readThrows := true }]

def unwritable : List BufferCall :=
  [.registerMemory 262144 false quietly, .pin 0 quietly, .unpin 0,
    .registerMemory 262144 false { quietly with writeThrows := [0] }]

def destroyed : List BufferCall :=
  [.registerMemory 262144 true quietly, .pin 0 quietly, .unpin 0,
    .registerMemory 262144 true quietly, .destroy 1, .pin 0 quietly]

def overflowing : List BufferCall :=
  [.registerMemory 262144 true quietly, .registerMemory 18446744073709551615 true quietly]

def miscounted (manager : BufferManager) : Bool :=
  decide (manager.currentMemory ≠ manager.loadedMemory) ||
    (manager.lookup 0).any fun handle => handle.loaded && !handle.buffer

theorem not_accounted_of_miscounted (wrong : manager.miscounted = true) : ¬ manager.Accounted := by
  intro accounted
  have memory := accounted.memory
  cases found : manager.lookup 0 with
  | none => simp [miscounted, memory, found] at wrong
  | some handle =>
    have buffered := (accounted.handles 0 handle found).buffered
    simp_all [miscounted]

theorem not_run_memory_accounted :
    (∃ manager, runPartial after (start 400000 true) unreadable = some manager ∧ ¬ manager.Accounted) ∧
    (∃ manager, runPartial after (start 400000 true) unwritable = some manager ∧ ¬ manager.Accounted) ∧
    (∃ manager, runPartial after (start 400000 true) destroyed = some manager ∧ ¬ manager.Accounted) ∧
    ∃ manager, runPartial after (start 400000 true) overflowing = some manager ∧ ¬ manager.Accounted := by
  have wrong {run : Option BufferManager} (given : run.map miscounted = some true) :
      ∃ manager, run = some manager ∧ ¬ manager.Accounted := by
    obtain ⟨manager, ran, miscounted⟩ := map_eq_some_iff.mp given
    exact ⟨manager, ran, not_accounted_of_miscounted miscounted⟩
  refine ⟨wrong ?_, wrong ?_, wrong ?_, wrong ?_⟩ <;> decide +kernel

end BufferManager

end GuinsooDB
