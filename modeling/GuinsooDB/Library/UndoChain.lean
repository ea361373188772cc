import Mathlib.Data.List.Basic

/-!
Undo chains of one key. The chain lists the undo values from the newest version to
the oldest, and is compared with the writes to the key, newest first. Versions
that every reader may see are old, and may be missing from the chain.
-/

namespace UndoChain

open List

variable {V : Type*}

def newest (base : V) : List (Nat × V) → V
  | [] => base
  | write :: _ => write.2

inductive Linked (old : Nat → Prop) (base : V) : V → List (Nat × V) → List (Nat × V) → Prop
  | settled {nodes writes : List (Nat × V)} : (∀ node ∈ nodes, old node.1) →
      (∀ write ∈ writes, old write.1) → Linked old base (newest base writes) nodes writes
  | node {version : Nat} {undo value : V} {nodes writes : List (Nat × V)} : ¬old version →
      Linked old base undo nodes writes →
      Linked old base value ((version, undo) :: nodes) ((version, value) :: writes)

def rewind (hidden : Nat → Bool) : V → List (Nat × V) → V
  | current, [] => current
  | current, node :: nodes => rewind hidden (if hidden node.1 then node.2 else current) nodes

def firstShown (hidden : Nat → Bool) (base : V) : List (Nat × V) → V
  | [] => base
  | write :: writes => if hidden write.1 then firstShown hidden base writes else write.2

theorem mem_stamped {A : Type*} {items : List A} {stamp : A → Nat} {value : A → Option V}
    {node : Nat × V} : node ∈ items.filterMap (fun item => (value item).map (stamp item, ·)) ↔
      ∃ item ∈ items, stamp item = node.1 ∧ value item = some node.2 := by
  simp only [List.mem_filterMap, Option.map_eq_some_iff]
  constructor
  · rintro ⟨item, member, found, wrote, rfl⟩
    exact ⟨item, member, rfl, wrote⟩
  · rintro ⟨item, member, same, wrote⟩
    exact ⟨item, member, node.2, wrote, by rw [same]⟩

variable {hidden : Nat → Bool}

theorem rewind_of_shown {current : V} {nodes : List (Nat × V)}
    (shown : ∀ node ∈ nodes, hidden node.1 = false) : rewind hidden current nodes = current := by
  induction nodes with
  | nil => rfl
  | cons first rest ih =>
    rw [rewind, shown first (by simp)]
    exact ih fun node member => shown node (by simp [member])

theorem firstShown_of_shown {base : V} {writes : List (Nat × V)} (shown : ∀ write ∈ writes, hidden write.1 = false) :
    firstShown hidden base writes = newest base writes := by
  cases writes with
  | nil => rfl
  | cons first rest => simp [firstShown, newest, shown first (by simp)]

structure Peels (version : Nat) (writes rest : List (Nat × V)) : Prop where
  absent : ∀ write ∈ rest, write.1 ≠ version
  shape : writes = rest ∨ ∃ value, writes = (version, value) :: rest

namespace Linked

variable {old : Nat → Prop} {base current : V} {nodes writes : List (Nat × V)}

theorem unwritten (old : Nat → Prop) (base : V) : Linked old base base [] [] := by
  have settled : Linked old base (newest base []) [] [] := .settled (by simp) (by simp)
  exact settled

section

variable (linked : Linked old base current nodes writes)
include linked

theorem node_version : ∀ node ∈ nodes, old node.1 ∨ ∃ write ∈ writes, write.1 = node.1 := by
  induction linked with
  | settled nodesOld _ => exact fun node member => .inl (nodesOld node member)
  | node fresh _ ih =>
    intro node member
    rcases mem_cons.mp member with same | later
    · subst node
      exact .inr ⟨_, mem_cons_self, rfl⟩
    · rcases ih node later with isOld | ⟨write, inside, same⟩
      · exact .inl isOld
      · exact .inr ⟨write, mem_cons_of_mem _ inside, same⟩

theorem write_node : ∀ write ∈ writes, ¬old write.1 → ∃ node ∈ nodes, node.1 = write.1 := by
  induction linked with
  | settled _ writesOld => exact fun write member fresh => absurd (writesOld write member) fresh
  | node _ _ ih =>
    intro write member fresh
    rcases mem_cons.mp member with same | later
    · subst write
      exact ⟨_, mem_cons_self, rfl⟩
    · obtain ⟨node, inside, same⟩ := ih write later fresh
      exact ⟨node, mem_cons_of_mem _ inside, same⟩

end

variable {version : Nat}

theorem head_node {value : V} (fresh : ¬old version)
    (linked : Linked old base current nodes ((version, value) :: writes)) :
    ∃ undo rest, nodes = (version, undo) :: rest ∧ Linked old base undo rest writes := by
  cases linked with
  | settled _ writesOld => exact absurd (writesOld _ mem_cons_self) fresh
  | node _ tail => exact ⟨_, _, rfl, tail⟩

variable (linked : Linked old base current nodes writes)

include linked in
theorem undo {rest : List (Nat × V)} (fresh : ¬old version)
    (peels : Peels version writes rest) : Linked old base ((nodes.lookup version).getD current)
      (nodes.filter fun node => node.1 ≠ version) rest := by
  have unmentioned : ∀ {value : V} {remaining : List (Nat × V)},
      Linked old base value remaining rest → ∀ node ∈ remaining, node.1 ≠ version := by
    intro value remaining chain node member same
    rcases chain.node_version node member with isOld | ⟨write, inside, written⟩
    · exact fresh (same ▸ isOld)
    · exact peels.absent write inside (written.trans same)
  rcases peels.shape with same | ⟨value, shape⟩
  · subst writes
    have absent := unmentioned linked
    have unknown : nodes.lookup version = none :=
      lookup_eq_none_iff.mpr fun node member => by simpa using Ne.symm (absent node member)
    rw [unknown, filter_eq_self.mpr fun node member => by simp [absent node member]]
    exact linked
  · subst writes
    obtain ⟨undo, remaining, nodesEq, tail⟩ := linked.head_node fresh
    have absent := unmentioned tail
    subst nodes
    rw [lookup_cons_self, filter_cons_of_neg (by simp),
      filter_eq_self.mpr fun node member => by simp [absent node member]]
    exact tail

include linked in
theorem mono {older : Nat → Prop}
    (grows : ∀ version, old version → older version)
    (closed : writes.Pairwise fun newer earlier => older newer.1 → older earlier.1) :
    Linked older base current nodes writes := by
  induction linked with
  | settled nodesOld writesOld =>
    exact .settled (fun node member => grows _ (nodesOld node member))
      (fun write member => grows _ (writesOld write member))
  | @node version undo value rest earlier fresh tail ih =>
    obtain ⟨headClosed, tailClosed⟩ := pairwise_cons.mp closed
    by_cases nowOld : older version
    · have writesOld : ∀ write ∈ (version, value) :: earlier, older write.1 := by
        intro write member
        rcases mem_cons.mp member with same | later
        · subst write
          exact nowOld
        · exact headClosed write later nowOld
      have nodesOld : ∀ node ∈ (version, undo) :: rest, older node.1 := by
        intro node member
        rcases mem_cons.mp member with same | later
        · subst node
          exact nowOld
        · rcases tail.node_version node later with isOld | ⟨write, inside, same⟩
          · exact grows _ isOld
          · rw [← same]
            exact writesOld write (mem_cons_of_mem _ inside)
      exact .settled nodesOld writesOld
    · exact .node nowOld (ih tailClosed)

theorem filter {A : Type*} {read : A → Option (Nat × V)} {items : List A} {keep : A → Bool}
    (linked : Linked old base current (items.filterMap read) writes)
    (removed : ∀ item ∈ items, keep item = false → ∀ node, read item = some node → old node.1) :
    Linked old base current ((items.filter keep).filterMap read) writes := by
  induction items generalizing current writes with
  | nil => exact linked
  | cons item rest ih =>
    have restRemoved : ∀ other ∈ rest, keep other = false → ∀ node, read other = some node → old node.1 :=
      fun other member => removed other (mem_cons_of_mem _ member)
    cases readItem : read item with
    | none =>
      rw [filterMap_cons_none readItem] at linked
      rw [filter_cons]
      split
      · rw [filterMap_cons_none readItem]
        exact ih linked restRemoved
      · exact ih linked restRemoved
    | some node =>
      rw [filterMap_cons_some readItem] at linked
      cases linked with
      | settled nodesOld writesOld =>
        refine .settled ?_ writesOld
        intro other member
        apply nodesOld other
        rw [← filterMap_cons_some readItem]
        exact (filter_sublist.filterMap read).subset member
      | node fresh tail =>
        have kept : keep item = true := by
          cases decided : keep item with
          | true => rfl
          | false => exact absurd (removed item mem_cons_self decided _ readItem) fresh
        rw [filter_cons_of_pos kept, filterMap_cons_some readItem]
        exact .node fresh (ih tail restRemoved)

theorem map_rename_of_old {rename : Nat → Nat} (keepsOld : ∀ version, old version → rename version = version)
    {entries : List (Nat × V)} (entriesOld : ∀ entry ∈ entries, old entry.1) :
    entries.map (fun entry => (rename entry.1, entry.2)) = entries := by
  conv_rhs => rw [← map_id entries]
  apply map_congr_left
  intro entry member
  simp [keepsOld _ (entriesOld entry member)]

theorem relabel (rename : Nat → Nat) (linked : Linked old base current nodes writes)
    (keepsOld : ∀ version, old version → rename version = version)
    (keepsFresh : ∀ version, ¬old version → ¬old (rename version)) :
    Linked old base current (nodes.map fun node => (rename node.1, node.2))
      (writes.map fun write => (rename write.1, write.2)) := by
  induction linked with
  | settled nodesOld writesOld =>
    rw [map_rename_of_old keepsOld nodesOld, map_rename_of_old keepsOld writesOld]
    exact .settled nodesOld writesOld
  | node fresh _ ih => exact .node (keepsFresh _ fresh) ih

include linked in
theorem rewind_eq
    (oldShown : ∀ version, old version → hidden version = false)
    (closed : writes.Pairwise fun newer earlier =>
      hidden newer.1 = false → hidden earlier.1 = false) :
    rewind hidden current nodes = firstShown hidden base writes := by
  induction linked with
  | settled nodesOld writesOld =>
    rw [rewind_of_shown fun node member => oldShown _ (nodesOld node member),
      firstShown_of_shown fun write member => oldShown _ (writesOld write member)]
  | @node version undo value rest earlier fresh tail ih =>
    obtain ⟨headClosed, tailClosed⟩ := pairwise_cons.mp closed
    cases decided : hidden version with
    | true => simpa [rewind, firstShown, decided] using ih tailClosed
    | false =>
      have restShown : ∀ node ∈ rest, hidden node.1 = false := by
        intro node member
        rcases tail.node_version node member with isOld | ⟨write, inside, same⟩
        · exact oldShown _ isOld
        · rw [← same]
          exact headClosed write inside decided
      simp [rewind, firstShown, decided, rewind_of_shown restShown]

end Linked

end UndoChain
