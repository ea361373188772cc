import GuinsooDB.Index.Art
import GuinsooDB.Library.RadixMap
import GuinsooDB.Library.Transition

/-!
The tree as a map from keys to rows. A node that is reached by a path stands for a map from what
keys have behind the path; insertion and erasure change that map at one place.
-/

namespace GuinsooDB

open RadixMap NodeLayout List Function Option Transition ArtNode Or
open List (cons replicate)

abbrev Contents := List Byte → List Int

/-- The shape of a tree and what it holds: the children of inner nodes are valid, and the bytes
on the path to a leaf are those with which its key begins. -/
inductive StandsFor : List Byte → ArtNode → Contents → Prop where
  | leaf (path rest prefixBytes : List Byte) (rows : List Int) (present : rows ≠ []) :
      StandsFor path (.leaf prefixBytes (path ++ rest) rows)
        (update (nothing []) rest rows)
  | inner (path prefixBytes : List Byte) (layout : NodeLayout ArtNode) (parts : Byte → Contents)
      (valid : layout.Valid)
      (children : ∀ byte child, layout.find byte = some child →
        StandsFor (path ++ prefixBytes ++ [byte]) child (parts byte))
      (absent : ∀ byte, layout.find byte = none → parts byte = nothing []) :
      StandsFor path (.inner prefixBytes layout) (branch [] prefixBytes parts)

namespace ArtNode

theorem compareKeys_self (rest : List Byte) : compareKeys rest rest = some none := by
  induction rest with
  | nil => rfl
  | cons byte rest ih => simp [compareKeys, ih]

variable {other byte : Byte}

theorem compareKeys_append (shared left right : List Byte) (different : byte ≠ other) :
    compareKeys (shared ++ byte :: left) (shared ++ other :: right) = some (some (shared, byte, other)) := by
  induction shared with
  | nil => simp [compareKeys, different]
  | cons first shared ih => simp [compareKeys, ih]

theorem leafMatches_self (rest : List Byte) : leafMatches rest rest = some true := by
  induction rest with
  | nil => rfl
  | cons byte rest ih => simp [leafMatches, ih]

theorem leafMatches_append {shared left right : List Byte} (different : byte ≠ other) :
    leafMatches (shared ++ byte :: left) (shared ++ other :: right) = some false := by
  induction shared with
  | nil => simp [leafMatches, different]
  | cons first shared ih => simp [leafMatches, ih]

theorem exists_difference {first second : List Byte} (apart : Apart first second) :
    ∃ shared byte left other right, first = shared ++ byte :: left ∧
      second = shared ++ other :: right ∧ byte ≠ other := by
  induction first generalizing second with
  | nil => exact absurd nil_prefix apart.1
  | cons byte left ih =>
    cases second with
    | nil => exact absurd nil_prefix apart.2
    | cons other right =>
      by_cases same : byte = other
      · subst other
        obtain ⟨shared, first, left, second, right, rfl, rfl, different⟩ :=
          ih ((Apart.append_iff [byte] left right).mp apart)
        exact ⟨byte :: shared, first, left, second, right, rfl, rfl, different⟩
      · exact ⟨[], byte, left, other, right, rfl, rfl, same⟩

theorem matchPrefix_matched (shared rest : List Byte) : matchPrefix shared (shared ++ rest) = .matched rest := by
  induction shared with
  | nil => rfl
  | cons byte shared ih => simp [matchPrefix, ih]

theorem matchPrefix_differs (shared left right : List Byte) (different : byte ≠ other) :
    matchPrefix (shared ++ byte :: left) (shared ++ other :: right) = .differs shared byte left other := by
  induction shared with
  | nil => simp [matchPrefix, different]
  | cons first shared ih => simp [matchPrefix, ih]

theorem matchPrefix_cases {prefixBytes rest : List Byte} (long : ¬ rest <+: prefixBytes) :
    (∃ byte later, rest = prefixBytes ++ byte :: later) ∨
      ∃ shared byte left other right, prefixBytes = shared ++ byte :: left ∧
        rest = shared ++ other :: right ∧ byte ≠ other := by
  by_cases within : prefixBytes <+: rest
  · obtain ⟨later, rfl⟩ := within
    cases later with
    | nil => simp at long
    | cons byte later => exact inl ⟨byte, later, rfl⟩
  · exact inr (exists_difference ⟨within, long⟩)

theorem restOf_append (path rest existing : List Byte) : restOf (path ++ rest) rest (path ++ existing) = existing := by
  simp [restOf]

end ArtNode

namespace StandsFor

open ArtNode

variable {path prefixBytes rest : List Byte} {node : ArtNode} {contents : Contents}
  {layout changedLayout : NodeLayout ArtNode} {parts : Byte → Contents} {byte other : Byte}

def Children (path prefixBytes : List Byte) (find : Byte → Option ArtNode)
    (parts : Byte → Contents) : Prop :=
  (∀ byte child, find byte = some child →
    StandsFor (path ++ prefixBytes ++ [byte]) child (parts byte)) ∧
    ∀ byte, find byte = none → parts byte = nothing []

variable {find : Byte → Option ArtNode}

theorem of_children (valid : layout.Valid) (found : (fun byte => layout.find byte) = find)
    (children : Children path prefixBytes find parts) :
    StandsFor path (.inner prefixBytes layout) (branch [] prefixBytes parts) := by
  subst found
  exact .inner path prefixBytes layout parts valid children.1 children.2

theorem Children.set {child : Option ArtNode} {part : Contents} (children : Children path prefixBytes find parts)
    (represents : ∀ node, child = some node → StandsFor (path ++ prefixBytes ++ [byte]) node part)
    (absent : child = none → part = nothing []) :
    Children path prefixBytes (update find byte child) (update parts byte part) := by
  refine ⟨fun other found there => ?_, fun other there => ?_⟩
  · by_cases same : other = byte
    · subst other
      rw [update_self] at there ⊢
      exact represents found there
    · simp only [update_of_ne same] at there ⊢
      exact children.1 other found there
  · by_cases same : other = byte
    · subst other
      rw [update_self] at there ⊢
      exact absent there
    · simp only [update_of_ne same] at there ⊢
      exact children.2 other there

theorem Children.update {child : ArtNode} {part : Contents} (children : Children path prefixBytes find parts)
    (represents : StandsFor (path ++ prefixBytes ++ [byte]) child part) :
    Children path prefixBytes (update find byte (some child)) (update parts byte part) :=
  children.set (fun _ same => some.inj same ▸ represents) (by simp)

theorem Children.none : Children path prefixBytes (fun _ => none) (fun _ => nothing []) :=
  ⟨fun _ _ there => absurd there.symm (some_ne_none _), fun _ _ => rfl⟩

theorem pair {child added : ArtNode} {first second : Contents} {shared : List Byte}
    (different : byte ≠ other) (represents : StandsFor (path ++ shared ++ [byte]) child first)
    (representsAdded : StandsFor (path ++ shared ++ [other]) added second) :
    StandsFor path (ArtNode.pair shared byte child other added)
      (branch [] shared (update (update (fun _ => nothing []) byte first) other second)) := by
  have one : Ordered [(byte, child)] := pairwise_singleton _ _
  have fresh : findEntry other [(byte, child)] = none := by simp [findEntry, different]
  obtain ⟨valid, found⟩ := @insert4_spec _ other added _ one (le_refl 1) (by simp) fresh
  have single : (fun third => findEntry third [(byte, child)]) = update (fun _ => none) byte (some child) := by
    funext third
    simp [findEntry, update_apply, eq_comm]
  rw [single] at found
  exact of_children valid found ((Children.none.update represents).update representsAdded)

theorem nonempty (represents : StandsFor path node contents) : ∃ rest, contents rest ≠ [] := by
  induction represents with
  | leaf path rest prefixBytes rows present => exact ⟨rest, by simpa using present⟩
  | inner path prefixBytes layout parts valid children absent ih =>
    obtain ⟨byte, child, found⟩ := valid.exists_child
    obtain ⟨rest, present⟩ := ih byte child found
    exact ⟨prefixBytes ++ byte :: rest, by rwa [branch_append]⟩

def inserted (unique : Bool) (contents : Contents) (rest : List Byte) (row : Int) : Contents × Bool :=
  if unique && !(contents rest).isEmpty then (contents, false)
  else (update contents rest (contents rest ++ [row]), true)

def Separate (contents : Contents) (rest : List Byte) : Prop :=
  ∀ other, contents other ≠ [] → other ≠ rest → Apart other rest

variable {later : List Byte}

theorem Separate.part (separate : Separate (branch [] prefixBytes parts) (prefixBytes ++ byte :: later)) :
    Separate (parts byte) later := by
  intro other present different
  have apart := separate (prefixBytes ++ byte :: other) (by rwa [branch_append]) (by simpa using different)
  exact (Apart.append_iff [byte] other later).mp ((Apart.append_iff prefixBytes _ _).mp apart)

theorem Separate.long (separate : Separate contents rest)
    (represents : StandsFor path (.inner prefixBytes layout) contents) : ¬ rest <+: prefixBytes := by
  intro short
  obtain ⟨word, present⟩ := represents.nonempty
  cases represents with
  | inner _ _ _ parts valid children absent =>
    obtain ⟨byte, later, rfl, _⟩ := branch_ne_empty present
    have within : rest <+: prefixBytes ++ byte :: later := short.trans (prefix_append _ _)
    refine (separate _ present ?_).2 within
    rintro rfl
    have lengths := short.length_le
    simp only [length_append, length_cons] at lengths
    omega

variable {unique : Bool} {row : Int}

theorem inserted_branch : inserted unique (branch [] prefixBytes parts) (prefixBytes ++ byte :: later) row =
      (branch [] prefixBytes (update parts byte (inserted unique (parts byte) later row).1),
        (inserted unique (parts byte) later row).2) := by
  rw [inserted, inserted, branch_append, update_branch]
  split
  · simp
  · rfl

theorem inserted_fresh (fresh : contents rest = []) :
    inserted unique contents rest row = (update contents rest [row], true) := by
  simp [inserted, fresh]

variable {rows : List Int}

theorem leaf_below (path shared later prefixBytes : List Byte) (byte : Byte)
    (present : rows ≠ []) : StandsFor (path ++ shared ++ [byte])
      (.leaf prefixBytes (path ++ (shared ++ byte :: later)) rows)
      (update (nothing []) later rows) := by
  simpa using StandsFor.leaf (path ++ shared ++ [byte]) later prefixBytes rows present

theorem elsewhere {shared left right : List Byte} (different : byte ≠ other) :
    branch [] (shared ++ byte :: left) parts (shared ++ other :: right) = [] := by
  refine branch_elsewhere fun symbol rest equal => different ?_
  rw [append_assoc, append_cancel_left_eq, cons_append, cons.injEq] at equal
  exact equal.1.symm

theorem deeper (prefixBytes : List Byte) (byte : Byte) (fuel : Nat) :
    later.length < (prefixBytes ++ byte :: later).length + fuel := by
  simp only [length_append, length_cons]
  omega

variable {fuel : Nat}

theorem insert (represents : StandsFor path node contents) (separate : Separate contents rest)
    (enough : rest.length < fuel) : ∃ changed, node.insert unique (path ++ rest) row fuel rest =
        some (changed, (inserted unique contents rest row).2) ∧
      StandsFor path changed (inserted unique contents rest row).1 ∧
      ((inserted unique contents rest row).2 = false → changed = node) := by
  induction represents generalizing rest fuel with
  | leaf path existing prefixBytes rows present =>
    obtain ⟨fuel, rfl⟩ := Nat.exists_eq_add_of_lt enough
    rw [ArtNode.insert, restOf_append]
    by_cases same : existing = rest
    · subst existing
      rw [compareKeys_self]
      have taken : rows.isEmpty = false := by simpa using present
      cases unique with
      | true =>
        simp only [inserted, insertToLeaf, update_self, taken, Bool.not_false, Bool.and_self, if_true, map_some]
        exact ⟨_, rfl, .leaf path rest prefixBytes rows present, fun _ => rfl⟩
      | false =>
        simp only [inserted, insertToLeaf, update_self, Bool.false_and,
          Bool.false_eq_true, if_false, map_some, update_idem]
        exact ⟨_, rfl, .leaf path rest prefixBytes (rows ++ [row]) (by simp), by simp⟩
    · have fresh : update (nothing []) existing rows rest = [] := by
        simp [Ne.symm same]
      obtain ⟨shared, byte, left, other, right, rfl, rfl, different⟩ :=
        exists_difference (separate existing (by simpa using present) same)
      rw [inserted_fresh fresh, compareKeys_append _ _ _ different]
      refine ⟨_, rfl, ?_, by simp⟩
      have both := pair different (leaf_below path shared left prefixBytes byte present)
        (leaf_below path shared right [] other (cons_ne_nil row []))
      rw [← branch_single, update_branch, update_of_ne different.symm]
      exact both
  | inner path prefixBytes layout parts valid children absent ih =>
    obtain ⟨fuel, rfl⟩ := Nat.exists_eq_add_of_lt enough
    have whole := StandsFor.inner path prefixBytes layout parts valid children absent
    rw [ArtNode.insert]
    rcases matchPrefix_cases (separate.long whole) with ⟨byte, later, rfl⟩ |
      ⟨shared, byte, left, other, right, rfl, rfl, different⟩
    · rw [matchPrefix_matched, inserted_branch]
      dsimp only
      cases found : layout.find byte with
      | some child =>
        obtain ⟨changed, made, after, same⟩ := ih byte child found separate.part (deeper prefixBytes byte fuel)
        rw [append_assoc, append_assoc, singleton_append] at made
        simp only [made, map_some]
        obtain ⟨replaced, foundAll⟩ := @Valid.replace _ byte changed layout valid (by simp [found])
        refine ⟨_, rfl, of_children replaced foundAll (Children.update ⟨children, absent⟩ after), ?_⟩
        intro failed
        rw [same failed, replace_self found]
      | none =>
        obtain ⟨grown, foundAll⟩ := @Valid.insertChild _ byte
          (ArtNode.leaf [] (path ++ (prefixBytes ++ byte :: later)) [row]) layout valid found
        have nothingThere := absent byte found
        have fresh := @inserted_fresh later (parts byte) unique row (by rw [nothingThere])
        rw [fresh]
        refine ⟨_, rfl, of_children grown foundAll (Children.update ⟨children, absent⟩ ?_), by simp⟩
        rw [nothingThere]
        exact leaf_below path prefixBytes later [] byte (cons_ne_nil row [])
    · rw [matchPrefix_differs _ _ _ different, inserted_fresh (elsewhere different)]
      refine ⟨_, rfl, ?_, by simp⟩
      have old : StandsFor (path ++ shared ++ [byte]) (.inner left layout) (branch [] left parts) := by
        refine .inner _ left layout parts valid (fun next child found => ?_) absent
        have there := children next child found
        simpa using there
      have both := pair different old (leaf_below path shared right [] other (cons_ne_nil row []))
      rw [branch_split, update_branch, update_of_ne different.symm]
      exact both

theorem leafMatches_leaf {existing : List Byte} (present : rows ≠ [])
    (separate : Separate (update (nothing []) existing rows) rest) :
    leafMatches existing rest = some (decide (existing = rest)) := by
  by_cases same : existing = rest
  · simp [same, leafMatches_self]
  · obtain ⟨shared, byte, left, other, right, rfl, rfl, different⟩ :=
      exists_difference (separate existing (by simpa using present) same)
    rw [leafMatches_append different, decide_eq_false same]

theorem lookup (represents : StandsFor path node contents) (separate : Separate contents rest)
    (enough : rest.length < fuel) : node.lookup (path ++ rest) fuel rest =
      some (if contents rest = [] then none else some (path ++ rest, contents rest)) := by
  induction represents generalizing rest fuel with
  | leaf path existing prefixBytes rows present =>
    obtain ⟨fuel, rfl⟩ := Nat.exists_eq_add_of_lt enough
    rw [ArtNode.lookup, restOf_append, leafMatches_leaf present separate]
    by_cases same : existing = rest
    · simp [same, present]
    · simp [same, Ne.symm same]
  | inner path prefixBytes layout parts valid children absent ih =>
    obtain ⟨fuel, rfl⟩ := Nat.exists_eq_add_of_lt enough
    have whole := StandsFor.inner path prefixBytes layout parts valid children absent
    rw [ArtNode.lookup]
    rcases matchPrefix_cases (separate.long whole) with ⟨byte, later, rfl⟩ |
      ⟨shared, byte, left, other, right, rfl, rfl, different⟩
    · rw [matchPrefix_matched, branch_append]
      dsimp only
      cases found : layout.find byte with
      | some child =>
        have there := ih byte child found separate.part (deeper prefixBytes byte fuel)
        rw [append_assoc, append_assoc, singleton_append] at there
        exact there
      | none => simp [absent byte found]
    · simp [matchPrefix_differs _ _ _ different, elsewhere different]

def erased (contents : Contents) (rest : List Byte) (row : Int) : Contents :=
  update contents rest ((contents rest).erase row)

theorem erased_absent (fresh : contents rest = []) : erased contents rest row = contents := by
  rw [erased, fresh, erase_nil, ← fresh, update_eq_self]

theorem erased_branch : erased (branch [] prefixBytes parts) (prefixBytes ++ byte :: later) row =
      branch [] prefixBytes (update parts byte (erased (parts byte) later row)) := by
  rw [erased, erased, branch_append, update_branch]

inductive LeafPrefix : ArtNode → List Byte → Prop where
  | here (prefixBytes key : List Byte) (rows : List Int) :
      LeafPrefix (.leaf prefixBytes key rows) prefixBytes
  | child {prefixBytes leafPrefix : List Byte} {layout : NodeLayout ArtNode} {byte : Byte}
      {child : ArtNode} (found : layout.find byte = some child)
      (inside : LeafPrefix child leafPrefix) : LeafPrefix (.inner prefixBytes layout) leafPrefix

def Short (contents : Contents) : Prop := ∀ rest, contents rest ≠ [] → rest.length < 2 ^ 32

def Roomy (node : ArtNode) (length : Nat) : Prop :=
  ∀ leafPrefix, LeafPrefix node leafPrefix → leafPrefix.length + length < 2 ^ 32

theorem Short.part (short : Short (branch [] prefixBytes parts)) : Short (parts byte) := by
  intro rest present
  have bound := short (prefixBytes ++ byte :: rest) (by rwa [branch_append])
  simp only [length_append, length_cons] at bound
  omega

variable {length : Nat}

theorem Roomy.child {child : ArtNode} {less : Nat}
    (roomy : Roomy (.inner prefixBytes layout) length) (found : layout.find byte = some child)
    (fewer : less ≤ length) : Roomy child less := by
  intro leafPrefix inside
  have bound := roomy leafPrefix (.child found inside)
  omega

theorem concatenate {child : ArtNode} {part : Contents}
    (represents : StandsFor (path ++ prefixBytes ++ [byte]) child part) (roomy : Roomy child length)
    (less : prefixBytes.length < length)
    (short : Short (branch [] prefixBytes (update (fun _ => nothing []) byte part))) :
    ∃ changed, ArtNode.concatenate prefixBytes byte child = some changed ∧ StandsFor path changed
        (branch [] prefixBytes (update (fun _ => nothing []) byte part)) := by
  rcases represents with ⟨_, rest, childPrefix, rows, present⟩ |
    ⟨_, childPrefix, layout, parts, valid, children, absent⟩
  · have room := roomy childPrefix (.here _ _ _)
    rw [ArtNode.concatenate, if_pos (by change _ + childPrefix.length + 1 < _; omega)]
    have there := StandsFor.leaf path (prefixBytes ++ byte :: rest) (prefixBytes ++ byte :: childPrefix) rows present
    rw [branch_single]
    simpa using there
  rw [← branch_split] at short ⊢
  have moved : StandsFor path (.inner (prefixBytes ++ byte :: childPrefix) layout)
      (branch [] (prefixBytes ++ byte :: childPrefix) parts) := by
    refine .inner path _ layout parts valid (fun other child found => ?_) absent
    have there := children other child found
    simpa using there
  obtain ⟨word, present⟩ := moved.nonempty
  have bound := short word present
  obtain ⟨next, later, rfl, _⟩ := branch_ne_empty present
  simp only [length_append, length_cons] at bound
  rw [ArtNode.concatenate, if_pos (by change _ + childPrefix.length + 1 < _; omega)]
  exact ⟨_, rfl, moved⟩

theorem eraseLeaf (valid : layout.Valid) (children : Children path prefixBytes (fun byte => layout.find byte) parts)
    (present : layout.find byte ≠ none) (roomy : Roomy (.inner prefixBytes layout) length)
    (less : prefixBytes.length < length)
    (short : Short (branch [] prefixBytes (update parts byte (nothing [])))) :
    ∃ changed, ArtNode.eraseLeaf prefixBytes layout byte = some changed ∧ StandsFor path changed
        (branch [] prefixBytes (update parts byte (nothing []))) := by
  have shrinks := valid.eraseChild present
  have left := @Children.set _ _ _ byte _ none _ children (by simp) fun _ => rfl
  rw [ArtNode.eraseLeaf]
  cases result : layout.eraseChild byte with
  | kept small =>
    rw [result] at shrinks
    exact ⟨_, rfl, of_children shrinks.1 shrinks.2 left⟩
  | oneWay last child =>
    rw [result] at shrinks
    rw [show update (fun other => layout.find other) byte none =
      update (fun _ => none) last (some child) from shrinks] at left
    have single : update parts byte (nothing []) = update (fun _ => nothing []) last
          (update parts byte (nothing []) last) := by
      funext other
      by_cases same : other = last
      · subst other
        rw [update_self]
      · rw [update_of_ne same]
        exact left.2 other (by rw [update_of_ne same])
    have found : layout.find last = some child := by
      have at_last := congrFun (show update (fun other => layout.find other) byte none =
        update (fun _ => none) last (some child) from shrinks) last
      rw [update_self] at at_last
      by_cases same : last = byte
      · rw [same, update_self] at at_last
        cases at_last
      · rwa [update_of_ne same] at at_last
    rw [single] at short ⊢
    exact (left.1 last child (update_self _ _ _)).concatenate (roomy.child found (le_refl length)) less short

theorem of_erased {word : List Byte} (present : erased contents rest row word ≠ []) : contents word ≠ [] := by
  intro absent
  by_cases same : word = rest
  · subst word
    exact present (by rw [erased, update_self, absent, erase_nil])
  · exact present (by rw [erased, update_of_ne same, absent])

theorem Short.erased (short : Short contents) : Short (erased contents rest row) :=
  fun word present => short word (of_erased present)

theorem isLeafOf_child {child : ArtNode} {part : Contents}
    (represents : StandsFor (path ++ prefixBytes ++ [byte]) child part)
    (separate : Separate part later) : (∃ childPrefix rows, rows ≠ [] ∧
        child = .leaf childPrefix (path ++ (prefixBytes ++ byte :: later)) rows ∧
        part = update (nothing []) later rows ∧
        child.isLeafOf (path ++ (prefixBytes ++ byte :: later)) (byte :: later) = some true) ∨
      child.isLeafOf (path ++ (prefixBytes ++ byte :: later)) (byte :: later) = some false ∧
      child.isLeafOf (path ++ (prefixBytes ++ byte :: later)) later = some false := by
  rcases represents with ⟨_, rest, childPrefix, rows, present⟩ | _
  · have matched := leafMatches_leaf present separate
    have fromParent := restOf_append (path ++ prefixBytes) (byte :: later) (byte :: rest)
    have fromChild := restOf_append (path ++ prefixBytes ++ [byte]) later rest
    simp only [append_assoc, singleton_append] at fromParent fromChild
    by_cases same : rest = later
    · subst rest
      refine inl ⟨childPrefix, rows, present, by simp, rfl, ?_⟩
      simp [isLeafOf, fromParent, leafMatches_self]
    · refine inr ⟨?_, ?_⟩
      · simpa [isLeafOf, fromParent, leafMatches, same] using matched
      · simpa [isLeafOf, fromChild, same] using matched
  · exact inr ⟨rfl, rfl⟩

theorem erase (represents : StandsFor path node contents) (separate : Separate contents rest)
    (short : Short contents) (roomy : Roomy node rest.length) (enough : rest.length < fuel) :
    ∃ result, node.erase (path ++ rest) row fuel rest = some result ∧ match result with
      | some changed => StandsFor path changed (erased contents rest row)
      | none => erased contents rest row = nothing [] ∧ node.isLeafOf (path ++ rest) rest = some true := by
  induction represents generalizing rest fuel with
  | leaf path existing prefixBytes rows present =>
    obtain ⟨fuel, rfl⟩ := Nat.exists_eq_add_of_lt enough
    have matched := leafMatches_leaf present separate
    rw [ArtNode.erase, isLeafOf, restOf_append, matched]
    by_cases same : existing = rest
    · subst existing
      have after : erased (update (nothing []) rest rows) rest row = update (nothing []) rest (rows.erase row) := by
        rw [erased, update_self, update_idem]
      by_cases last : rows.erase row = []
      · refine ⟨none, by simp [remove, last], ?_, by simp⟩
        rw [after, last, update_eq_self_iff]
      · refine ⟨some (.leaf prefixBytes (path ++ rest) (rows.erase row)), by simp [remove, last], ?_⟩
        rw [after]
        exact .leaf path rest prefixBytes _ last
    · refine ⟨some (.leaf prefixBytes (path ++ existing) rows), by simp [same], ?_⟩
      rw [erased_absent (by simp [Ne.symm same])]
      exact .leaf path existing prefixBytes rows present
  | inner path prefixBytes layout parts valid children absent ih =>
    obtain ⟨fuel, rfl⟩ := Nat.exists_eq_add_of_lt enough
    have whole := StandsFor.inner path prefixBytes layout parts valid children absent
    rw [ArtNode.erase]
    rcases matchPrefix_cases (separate.long whole) with ⟨byte, later, rfl⟩ |
      ⟨shared, byte, left, other, right, rfl, rfl, different⟩
    · rw [matchPrefix_matched]
      dsimp only
      have length : prefixBytes.length < (prefixBytes ++ byte :: later).length := by
        simp
      cases found : layout.find byte with
      | none =>
        rw [erased_absent (by rw [branch_append, absent byte found])]
        exact ⟨_, rfl, whole⟩
      | some child =>
        have represents := children byte child found
        have present : layout.find byte ≠ none := by simp [found]
        have smaller : Short (erased (branch [] prefixBytes parts) (prefixBytes ++ byte :: later) row) := short.erased
        rw [erased_branch] at smaller ⊢
        rcases isLeafOf_child represents separate.part with
          ⟨childPrefix, rows, held, rfl, part, is⟩ | ⟨isNot, isNotItself⟩
        · have after : erased (parts byte) later row = update (nothing []) later (rows.erase row) := by
            rw [erased, part, update_self, update_idem]
          simp only [is, bind_eq_bind, bind_some, if_true]
          by_cases last : rows.erase row = []
          · rw [after, last, update_eq_self_iff.mpr rfl] at smaller ⊢
            obtain ⟨changed, made, represented⟩ := eraseLeaf valid ⟨children, absent⟩ present roomy length smaller
            exact ⟨some changed, by simp [remove, last, made], represented⟩
          obtain ⟨replaced, foundAll⟩ := @Valid.replace _ byte (ArtNode.leaf childPrefix
            (path ++ (prefixBytes ++ byte :: later)) (rows.erase row)) layout valid present
          have removed : remove row (ArtNode.leaf childPrefix
              (path ++ (prefixBytes ++ byte :: later)) rows) = some (.leaf childPrefix
                (path ++ (prefixBytes ++ byte :: later)) (rows.erase row)) := by
            rw [remove, if_neg last]
          rw [removed]
          refine ⟨_, rfl, ?_⟩
          rw [after]
          exact of_children replaced foundAll (Children.update ⟨children, absent⟩
            (leaf_below path prefixBytes later childPrefix byte last))
        · obtain ⟨result, made, after⟩ := ih byte child found separate.part
            short.part (roomy.child found (by simp; omega)) (deeper prefixBytes byte fuel)
          rw [append_assoc, append_assoc, singleton_append] at made
          simp only [isNot, bind_eq_bind, bind_some, Bool.false_eq_true, if_false, made]
          cases result with
          | none => simp [isNotItself] at after
          | some changed =>
            obtain ⟨replaced, foundAll⟩ := @Valid.replace _ byte changed layout valid present
            exact ⟨_, rfl, of_children replaced foundAll (Children.update ⟨children, absent⟩ after)⟩
    · rw [matchPrefix_differs _ _ _ different, erased_absent (elsewhere different)]
      exact ⟨_, rfl, whole⟩

end StandsFor

namespace Art

open StandsFor

def Holds (tree : Art) (contents : Contents) : Prop :=
  match tree with
  | none => contents = nothing []
  | some node => StandsFor [] node contents

def key : ArtAction → List Byte
  | .insert key _ | .erase key _ => key

def mapStep (unique : Bool) (contents : Contents) : ArtAction → Contents × Bool
  | .insert key row => inserted unique contents key row
  | .erase key row => (erased contents key row, true)

/-- The key is one of the given ones and has less than 2^32 bytes; for an erasure, so has the
key together with the prefix of any leaf. -/
def Allowed (keys : Set (List Byte)) (tree : Art) (action : ArtAction) : Prop :=
  key action ∈ keys ∧ (key action).length < 2 ^ 32 ∧ match action with
    | .insert _ _ => True
    | .erase erasedKey _ => ∀ node, tree = some node → Roomy node erasedKey.length

structure Multimap (keys : Set (List Byte)) (tree : Art) (contents : Contents) : Prop where
  holds : tree.Holds contents
  among : ∀ key, contents key ≠ [] → key ∈ keys
  short : Short contents

variable {keys : Set (List Byte)} {tree : Art} {contents : Contents} {unique : Bool} {key : List Byte}

theorem Multimap.separate (multimap : Multimap keys tree contents)
    (apart : keys.Pairwise Apart) (inside : key ∈ keys) : Separate contents key :=
  fun other present different => apart (multimap.among other present) inside different

theorem Multimap.step {action : ArtAction} (multimap : Multimap keys tree contents)
    (apart : keys.Pairwise Apart) (allowed : Allowed keys tree action) :
    ∃ changed, tree.step unique action = some (changed, (mapStep unique contents action).2) ∧
      Multimap keys changed (mapStep unique contents action).1 ∧
      ((mapStep unique contents action).2 = false → changed = tree) := by
  obtain ⟨inside, bound, fits⟩ := allowed
  have separate := multimap.separate apart inside
  cases action with
  | insert key row =>
    have among : ∀ other, (inserted unique contents key row).1 other ≠ [] → other ∈ keys ∧ other.length < 2 ^ 32 := by
      intro other present
      by_cases same : other = key
      · exact same ▸ ⟨inside, bound⟩
      have old : contents other ≠ [] := by
        rw [inserted] at present
        split at present
        · exact present
        · simpa [same] using present
      exact ⟨multimap.among other old, multimap.short other old⟩
    have kept {changed : Art} (holds : changed.Holds (inserted unique contents key row).1) :
        Multimap keys changed (inserted unique contents key row).1 :=
      ⟨holds, fun other present => (among other present).1, fun other present => (among other present).2⟩
    cases tree with
    | none =>
      obtain rfl : contents = nothing [] := multimap.holds
      rw [mapStep, inserted_fresh rfl] at *
      exact ⟨some (.leaf [] key [row]), rfl, kept (.leaf [] key [] [row] (cons_ne_nil row [])), by simp⟩
    | some node =>
      have represents : StandsFor [] node contents := multimap.holds
      obtain ⟨changed, made, after, same⟩ := @StandsFor.insert _ key _ _ unique row
        (key.length + 1) represents separate (Nat.lt_succ_self key.length)
      rw [nil_append] at made
      refine ⟨some changed, ?_, kept after, fun failed => by rw [same failed]⟩
      rw [Art.step, Art.insert, made]
      rfl
  | erase key row =>
    have kept {changed : Art} (holds : changed.Holds (erased contents key row)) :
        Multimap keys changed (erased contents key row) :=
      ⟨holds, fun other present => multimap.among other (of_erased present), multimap.short.erased⟩
    cases tree with
    | none =>
      obtain rfl : contents = nothing [] := multimap.holds
      exact ⟨none, rfl, kept (erased_absent rfl), by simp [mapStep]⟩
    | some node =>
      have represents : StandsFor [] node contents := multimap.holds
      obtain ⟨result, made, after⟩ := @StandsFor.erase _ key _ _ row
        (key.length + 1) represents separate multimap.short (fits node rfl)
        (Nat.lt_succ_self key.length)
      rw [nil_append] at made
      refine ⟨result, ?_, kept ?_, by simp [mapStep]⟩
      · rw [Art.step, Art.erase, made]
        rfl
      · cases result with
        | none => exact after.1
        | some changed => exact after

theorem Multimap.lookup (multimap : Multimap keys tree contents) (apart : keys.Pairwise Apart) (inside : key ∈ keys) :
    tree.lookup key = some (if contents key = [] then none else some (key, contents key)) := by
  cases tree with
  | none =>
    have empty : contents = nothing [] := multimap.holds
    simp [Art.lookup, empty]
  | some node =>
    have represents : StandsFor [] node contents := multimap.holds
    exact represents.lookup (multimap.separate apart inside) (Nat.lt_succ_self key.length)

/-! Sequences of actions -/

def logged (unique : Bool) (state : Art × List Bool) (action : ArtAction) :
    Option (Art × List Bool) :=
  (state.1.step unique action).map fun result => (result.1, state.2 ++ [result.2])

def mapLogged (unique : Bool) (state : Contents × List Bool) (action : ArtAction) :
    Contents × List Bool :=
  ((mapStep unique state.1 action).1, state.2 ++ [(mapStep unique state.1 action).2])

theorem Multimap.run {state : Art × List Bool} {actions : List ArtAction}
    (multimap : Multimap keys state.1 contents) (apart : keys.Pairwise Apart)
    (meets : Transition.MeetsPartial (logged unique) (fun state => Allowed keys state.1) state actions) :
    ∃ tree, runPartial (logged unique) state actions = some
        (tree, (run (mapLogged unique) (contents, state.2) actions).2) ∧
      Multimap keys tree (run (mapLogged unique) (contents, state.2) actions).1 := by
  induction actions generalizing state contents with
  | nil => exact ⟨state.1, rfl, multimap⟩
  | cons action rest ih =>
    obtain ⟨changed, made, kept, _⟩ := @Multimap.step _ _ _ unique _ multimap apart meets.1
    have stepped : logged unique state action = some (changed, state.2 ++ [(mapStep unique contents action).2]) := by
      rw [logged, made]
      rfl
    obtain ⟨tree, ran, after⟩ := ih kept (meets.2 _ stepped)
    refine ⟨tree, ?_, after⟩
    rw [runPartial, foldlM_cons, stepped]
    exact ran

/-- Every sequence of insertions and erasures of keys of which none continues another: the tree
is valid, holds the rows that were inserted and not erased, and a lookup finds them. An insertion
into a unique index fails exactly where the key has a row, and changes nothing then. -/
theorem run_multimap (unique : Bool) {keys : Set (List Byte)} (apart : keys.Pairwise Apart)
    {actions : List ArtAction}
    (meets : Transition.MeetsPartial (logged unique) (fun state => Allowed keys state.1)
      (none, []) actions) : ∃ tree, runPartial (logged unique) (none, []) actions = some
        (tree, (run (mapLogged unique) (nothing [], []) actions).2) ∧
      tree.Holds (run (mapLogged unique) (nothing [], []) actions).1 ∧
      (∀ key ∈ keys, tree.lookup key =
        some (if (run (mapLogged unique) (nothing [], []) actions).1 key = [] then none
          else some (key, (run (mapLogged unique) (nothing [], []) actions).1 key))) ∧
      ∀ key ∈ keys, ∀ row, key.length < 2 ^ 32 → ∃ changed, tree.insert unique key row =
        some (changed, !(unique &&
          !((run (mapLogged unique) (nothing [], []) actions).1 key).isEmpty)) ∧
        (unique = true → (run (mapLogged unique) (nothing [], []) actions).1 key ≠ [] →
          changed = tree) := by
  have empty : Multimap keys none (nothing []) :=
    ⟨rfl, fun _ present => absurd rfl present, fun _ present => absurd rfl present⟩
  obtain ⟨tree, ran, multimap⟩ := @Multimap.run _ _ unique (none, []) _ empty apart meets
  refine ⟨tree, ran, multimap.holds, fun key inside => multimap.lookup apart inside, ?_⟩
  intro key inside row bound
  obtain ⟨changed, made, _, same⟩ := @Multimap.step _ _ _ unique (.insert key row) multimap apart
    ⟨inside, bound, trivial⟩
  refine ⟨changed, made.trans ?_, ?_⟩
  · rw [mapStep, inserted]
    split
    next fails =>
      rw [fails]
      rfl
    next succeeds =>
      rw [Bool.eq_false_iff.mpr succeeds]
      rfl
  · rintro rfl present
    exact same (by rw [mapStep, inserted, if_pos (by simpa using present)])

def sharedByte : List ArtAction :=
  [.insert [0, 1] 7, .insert [0, 2] 8, .insert [0, 1] 9, .erase [0, 2] 8]

def words : Set (List Byte) := {word | word.length = 2}

theorem words_apart : words.Pairwise Apart := by
  intro first firstLength second secondLength different
  have lengths : first.length = second.length := firstLength.trans secondLength.symm
  refine ⟨fun within => different (within.eq_of_length lengths), fun within => different ?_⟩
  exact (within.eq_of_length lengths.symm).symm

theorem run_multimap_sharedByte : ∃ tree,
    runPartial (logged false) (none, []) sharedByte = some (tree, [true, true, true, true]) ∧
      tree.lookup [0, 1] = some (some ([0, 1], [7, 9])) ∧ tree.lookup [0, 2] = some none := by
  have meets : Transition.MeetsPartial (logged false) (fun state => Allowed words state.1)
      (none, []) sharedByte := by
    refine ⟨⟨rfl, by decide, trivial⟩, fun first stepped => ?_⟩
    obtain rfl := some.inj stepped
    refine ⟨⟨rfl, by decide, trivial⟩, fun second stepped => ?_⟩
    obtain rfl := some.inj stepped
    refine ⟨⟨rfl, by decide, trivial⟩, fun third stepped => ?_⟩
    obtain rfl := some.inj stepped
    refine ⟨⟨rfl, by decide, fun node same leafPrefix inside => ?_⟩, fun _ _ => trivial⟩
    obtain rfl := some.inj same
    change LeafPrefix (.inner [0] (.node4 [(1, .leaf [] [0, 1] [7, 9]), (2, .leaf [] [0, 2] [8])]))
      leafPrefix at inside
    obtain _ | ⟨found, inside⟩ := inside
    simp only [find, findEntry] at found
    split at found
    · cases found
      cases inside
      decide
    split at found
    · cases found
      cases inside
      decide
    · cases found
  obtain ⟨tree, ran, _, found, _⟩ := run_multimap false words_apart meets
  exact ⟨tree, ran, found [0, 1] rfl, found [0, 2] rfl⟩

/-! Prefixes that grow without bound -/

def longKey (length : Nat) (last : Byte) : List Byte := replicate length 0 ++ [last]

theorem longKey_apart (length : Nat) : Apart (longKey length 0) (longKey length 1) := by
  rw [longKey, longKey, Apart.append_iff]
  simp [Apart]

def firstLeaf (length : Nat) (prefixBytes : List Byte) : ArtNode := .leaf prefixBytes (longKey length 0) [7]

def bothLeaves (length : Nat) (prefixBytes : List Byte) : ArtNode :=
  ArtNode.pair (replicate length 0) 0 (firstLeaf length prefixBytes) 1 (.leaf [] (longKey length 1) [8])

variable (length : Nat) (prefixBytes : List Byte) (log : List Bool)

theorem logged_insert_longKey : logged false (some (firstLeaf length prefixBytes), log) (.insert (longKey length 1) 8) =
      some (some (bothLeaves length prefixBytes), log ++ [true]) := by
  have compared : compareKeys (longKey length 0) (longKey length 1) = some (some (replicate length 0, 0, 1)) :=
    compareKeys_append _ _ _ (by decide)
  have rest := restOf_append [] (longKey length 1) (longKey length 0)
  rw [nil_append, nil_append] at rest
  simp [logged, Art.step, Art.insert, firstLeaf, bothLeaves, ArtNode.insert, rest, compared]

theorem logged_erase_longKey : logged false (some (bothLeaves length prefixBytes), log) (.erase (longKey length 1) 8) =
      (ArtNode.concatenate (replicate length 0) 0 (firstLeaf length prefixBytes)).map fun left =>
        (some left, log ++ [true]) := by
  have matched : matchPrefix (replicate length 0) (longKey length 1) = .matched [1] := matchPrefix_matched _ [1]
  have rest : restOf (longKey length 1) [1] (longKey length 1) = [1] := restOf_append (replicate length 0) [1] [1]
  have layout : bothLeaves length prefixBytes = .inner (replicate length 0)
      (.node4 [(0, firstLeaf length prefixBytes), (1, .leaf [] (longKey length 1) [8])]) :=
    rfl
  simp [logged, Art.step, Art.erase, ArtNode.erase, matched, layout, find, findEntry, isLeafOf, rest, leafMatches,
    remove, ArtNode.eraseLeaf, eraseChild, erase4, eraseEntry, comp_def]

def toggle (length : Nat) : List ArtAction :=
  [.insert (longKey length 0) 7, .insert (longKey length 1) 8, .erase (longKey length 1) 8,
    .insert (longKey length 1) 8, .erase (longKey length 1) 8]

theorem run_toggle {length : Nat} (fits : length + 1 < 2 ^ 32) (long : 2 ^ 32 ≤ 2 * (length + 1)) :
    runPartial (logged false) (none, []) (toggle length) = none := by
  have first : ArtNode.concatenate (replicate length 0) 0 (firstLeaf length []) =
      some (firstLeaf length (longKey length 0)) := by
    rw [firstLeaf, ArtNode.concatenate, if_pos (by simpa [ArtNode.prefixBytes] using fits)]
    rfl
  have second : ArtNode.concatenate (replicate length 0) 0 (firstLeaf length (longKey length 0)) = none := by
    rw [firstLeaf, ArtNode.concatenate, if_neg]
    simp only [ArtNode.prefixBytes, longKey, length_append, length_replicate, length_singleton]
    omega
  have start : logged false (none, []) (.insert (longKey length 0) 7) = some (some (firstLeaf length []), [true]) := rfl
  simp only [runPartial, toggle, foldlM_cons, start, logged_insert_longKey, logged_erase_longKey, first, second,
    bind_eq_bind, bind_some, map_some, map_none, bind_none]

theorem run_not_multimap : ∃ first second : List Byte, Apart first second ∧
    runPartial (logged false) (none, [])
      [.insert first 7, .insert second 8, .erase second 8, .insert second 8, .erase second 8] =
      none :=
  ⟨longKey (2 ^ 31) 0, longKey (2 ^ 31) 1, longKey_apart _, run_toggle (by omega) (by omega)⟩

end Art

end GuinsooDB
