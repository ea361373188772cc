import Mathlib.Data.List.Count
import Mathlib.Data.List.Dedup
import GuinsooDB.Library.ThreeValued

/-!
`DistributivityRule`: conjuncts that all children of an OR have are taken out of it. A child of
which nothing is left is removed from the OR, although it is then TRUE.
-/

namespace GuinsooDB

open ThreeValued List

variable {P : Type}

/-- A child of an OR, as `AddExpressionSet` reads it: the conjuncts of an AND, which are several,
or one other predicate. -/
structure Disjunct (P : Type) where
  conjuncts : List P
  nonempty : conjuncts ≠ []

inductive FactoredChild (P : Type) where
  | common (predicate : P)
  | remaining (conjuncts : List P)
  | disjunction (children : List (List P))

inductive FactoredRoot (P : Type) where
  | single (child : FactoredChild P)
  | conjunction (children : List (FactoredChild P))

def Disjunct.value (truth : P → Option Bool) (disjunct : Disjunct P) : Option Bool :=
  conj (disjunct.conjuncts.map truth)

def FactoredChild.value (truth : P → Option Bool) : FactoredChild P → Option Bool
  | .common predicate => truth predicate
  | .remaining conjuncts => conj (conjuncts.map truth)
  | .disjunction children => disj (children.map fun conjuncts => conj (conjuncts.map truth))

def FactoredRoot.value (truth : P → Option Bool) : FactoredRoot P → Option Bool
  | .single child => child.value truth
  | .conjunction children => conj (children.map (FactoredChild.value truth))

namespace DistributivityRule

/-- All conjuncts of the child are conjuncts of every child. -/
def Shared (disjuncts : List (Disjunct P)) (disjunct : Disjunct P) : Prop :=
  ∀ predicate ∈ disjunct.conjuncts, ∀ other ∈ disjuncts, predicate ∈ other.conjuncts

/-- A child with shared conjuncts only is alone with such children, or one of them repeats a
conjunct, so that something is left of it. -/
def Absorbs (disjuncts : List (Disjunct P)) : Prop :=
  (∃ disjunct ∈ disjuncts, Shared disjuncts disjunct) →
    (∀ disjunct ∈ disjuncts, Shared disjuncts disjunct) ∨
      ∃ disjunct ∈ disjuncts, Shared disjuncts disjunct ∧ ¬ disjunct.conjuncts.Nodup

def newRoot (candidates : List P) (children : List (List P)) : List (FactoredChild P) :=
  candidates.map .common ++ match children with
    | [] => []
    | [child] => [.remaining child]
    | children => [.disjunction children]

variable [DecidableEq P]

def candidateSet (first : Disjunct P) (others : List (Disjunct P)) : List P :=
  others.foldl (fun set next => set.filter (· ∈ next.conjuncts)) first.conjuncts.dedup

/-- The order in which the unordered set of candidates is read. -/
structure CandidateOrder (first : Disjunct P) (others : List (Disjunct P)) where
  candidates : List P
  perm : candidates.Perm (candidateSet first others)

def extractExpression (predicate : P) : List P → List P
  | [_] => []
  | conjuncts => conjuncts.erase predicate

def extractAll (candidates : List P) (children : List (List P)) : List (List P) :=
  candidates.foldl (fun children predicate =>
    (children.map (extractExpression predicate)).filter (· ≠ [])) children

def apply {first : Disjunct P} {others : List (Disjunct P)} (order : CandidateOrder first others) :
    Option (FactoredRoot P) :=
  if order.candidates = [] then none
  else
    match newRoot order.candidates
      (extractAll order.candidates ((first :: others).map Disjunct.conjuncts)) with
    | [child] => some (.single child)
    | children => some (.conjunction children)

/-! What the loops compute -/

theorem candidateSet_eq (first : Disjunct P) (others : List (Disjunct P)) : candidateSet first others =
      first.conjuncts.dedup.filter fun predicate => ∀ next ∈ others, predicate ∈ next.conjuncts := by
  rw [candidateSet]
  generalize first.conjuncts.dedup = set
  induction others generalizing set with
  | nil => simp
  | cons next others ih =>
    rw [foldl_cons, ih, filter_filter]
    simp [Bool.and_comm]

variable {predicate : P}

theorem extractExpression_eq {conjuncts : List P} (member : predicate ∈ conjuncts) :
    extractExpression predicate conjuncts = conjuncts.erase predicate := by
  rw [extractExpression.eq_def]
  split
  · simp_all
  · rfl

theorem exists_extractAll {candidates : List P} {children : List (List P)}
    (nodup : candidates.Nodup) (nonempty : ∀ child ∈ children, child ≠ [])
    (common : ∀ child ∈ children, candidates ⊆ child) (holds : List P → Prop) :
    (∃ left ∈ extractAll candidates children, holds left) ↔
      ∃ child ∈ children, child.diff candidates ≠ [] ∧ holds (child.diff candidates) := by
  induction candidates generalizing children with
  | nil =>
    refine exists_congr fun child => and_congr_right fun member => ?_
    simp [nonempty child member]
  | cons predicate rest ih =>
    obtain ⟨fresh, restNodup⟩ := nodup_cons.mp nodup
    have extracted child (member : child ∈ children) := extractExpression_eq (common child member mem_cons_self)
    rw [extractAll, foldl_cons, ← extractAll, ih restNodup]
    · simp only [diff_cons]
      constructor
      · rintro ⟨left, member, kept⟩
        simp only [mem_filter, mem_map] at member
        obtain ⟨⟨child, listed, rfl⟩, -⟩ := member
        rw [extracted child listed] at kept
        exact ⟨child, listed, kept⟩
      rintro ⟨child, listed, kept⟩
      rw [← extracted child listed] at kept
      refine ⟨_, mem_filter.mpr ⟨mem_map_of_mem listed, ?_⟩, kept⟩
      have left : extractExpression predicate child ≠ [] := by
        intro none
        simp [none] at kept
      simpa using left
    · simp
    · intro left member other inside
      simp only [mem_filter, mem_map] at member
      obtain ⟨⟨child, listed, rfl⟩, -⟩ := member
      rw [extracted child listed]
      refine (mem_erase_of_ne ?_).mpr (common child listed (mem_cons_of_mem _ inside))
      rintro rfl
      exact fresh inside

/-! The value of the result -/

section Value

variable {first : Disjunct P} {others : List (Disjunct P)} (order : CandidateOrder first others)
  {disjunct : Disjunct P} {truth : P → Option Bool} {strict : Bool}

def leftOf (disjunct : Disjunct P) : List P :=
  disjunct.conjuncts.diff order.candidates

theorem mem_candidates : predicate ∈ order.candidates ↔
    ∀ disjunct ∈ first :: others, predicate ∈ disjunct.conjuncts := by
  simp [order.perm.mem_iff, candidateSet_eq]

theorem nodup_candidates : order.candidates.Nodup := by
  rw [order.perm.nodup_iff, candidateSet_eq]
  exact first.conjuncts.nodup_dedup.filter _

theorem candidates_append_leftOf (member : disjunct ∈ first :: others) :
    (order.candidates ++ leftOf order disjunct).Perm disjunct.conjuncts :=
  subperm_append_diff_self_of_count_le (subperm_ext_iff.mp (subperm_of_subset (nodup_candidates order) fun _ inside =>
      (mem_candidates order).mp inside disjunct member))

theorem shared_iff (member : disjunct ∈ first :: others) :
    Shared (first :: others) disjunct ↔ leftOf order disjunct ⊆ order.candidates := by
  have parts := candidates_append_leftOf order member
  simp only [Shared, ← mem_candidates order, ← parts.mem_iff, forall_mem_append]
  exact ⟨fun all => all.2, fun inside => ⟨fun _ candidate => candidate, inside⟩⟩

theorem leftOf_eq_nil_iff (member : disjunct ∈ first :: others) : leftOf order disjunct = [] ↔
    Shared (first :: others) disjunct ∧ disjunct.conjuncts.Nodup := by
  rw [shared_iff order member, ← (candidates_append_leftOf order member).nodup_iff, nodup_append']
  refine ⟨fun none => by simp [none, nodup_candidates order], fun ⟨inside, _, _, disjoint⟩ => ?_⟩
  exact eq_nil_iff_forall_not_mem.mpr fun _ member => disjoint (inside member) member

omit [DecidableEq P] in
theorem reaches_newRoot (candidates : List P) (children : List (List P)) :
    (∀ child ∈ newRoot candidates children, Reaches strict (child.value truth)) ↔
      (∀ predicate ∈ candidates, Reaches strict (truth predicate)) ∧ ((∃ child ∈ children, True) →
          ∃ child ∈ children, ∀ predicate ∈ child, Reaches strict (truth predicate)) := by
  rcases children with _ | ⟨first, _ | ⟨second, rest⟩⟩ <;>
    simp [newRoot, FactoredChild.value, or_imp, forall_and]

theorem reaches_apply {root : FactoredRoot P} (applied : apply order = some root) :
    Reaches strict (root.value truth) ↔ (∀ predicate ∈ order.candidates, Reaches strict (truth predicate)) ∧
        ((∃ disjunct ∈ first :: others, leftOf order disjunct ≠ []) →
          ∃ disjunct ∈ first :: others, leftOf order disjunct ≠ [] ∧
            ∀ predicate ∈ leftOf order disjunct, Reaches strict (truth predicate)) := by
  have rooted : Reaches strict (root.value truth) ↔ ∀ child ∈ newRoot order.candidates
        (extractAll order.candidates ((first :: others).map Disjunct.conjuncts)),
        Reaches strict (child.value truth) := by
    rw [apply] at applied
    split at applied
    · cases applied
    split at applied <;> cases applied
    next same =>
      rw [same]
      simp [FactoredRoot.value]
    · simp [FactoredRoot.value]
  have extracted := exists_extractAll (nodup_candidates order) (forall_mem_map.mpr fun disjunct _ => disjunct.nonempty)
    (forall_mem_map.mpr fun disjunct member _ inside =>
      (mem_candidates order).mp inside disjunct member)
  rw [rooted, reaches_newRoot, extracted fun _ => True,
    extracted fun conjuncts => ∀ predicate ∈ conjuncts, Reaches strict (truth predicate)]
  simp [leftOf]

theorem reaches_disjuncts : Reaches strict (disj ((first :: others).map (Disjunct.value truth))) ↔
      (∀ predicate ∈ order.candidates, Reaches strict (truth predicate)) ∧ ∃ disjunct ∈ first :: others,
          ∀ predicate ∈ leftOf order disjunct, Reaches strict (truth predicate) := by
  have parts {disjunct} (member : disjunct ∈ first :: others) : Reaches strict (disjunct.value truth) ↔
        (∀ predicate ∈ order.candidates, Reaches strict (truth predicate)) ∧
          ∀ predicate ∈ leftOf order disjunct, Reaches strict (truth predicate) := by
    simp only [Disjunct.value, reaches_conj, forall_mem_map,
      ← (candidates_append_leftOf order member).mem_iff, forall_mem_append]
  rw [reaches_disj]
  constructor
  · rintro ⟨_, member, reached⟩
    obtain ⟨disjunct, listed, rfl⟩ := mem_map.mp member
    exact ⟨((parts listed).mp reached).1, disjunct, listed, ((parts listed).mp reached).2⟩
  · rintro ⟨common, disjunct, listed, rest⟩
    exact ⟨_, mem_map_of_mem listed, (parts listed).mpr ⟨common, rest⟩⟩

end Value

theorem value_apply_iff_absorbs (first : Disjunct P) (others : List (Disjunct P))
    (order : CandidateOrder first others) :
    (∀ root, apply order = some root → ∀ truth, root.value truth =
        disj ((first :: others).map (Disjunct.value truth))) ↔ Absorbs (first :: others) := by
  constructor
  · rintro preserved ⟨disjunct, member, shared⟩
    by_cases some : ∃ other ∈ first :: others, leftOf order other ≠ []
    · right
      obtain ⟨predicate, listed⟩ := exists_mem_of_ne_nil _ disjunct.nonempty
      have candidate := (mem_candidates order).mpr (shared predicate listed)
      obtain ⟨root, applied⟩ : ∃ root, apply order = Option.some root := by
        rw [apply, if_neg (ne_nil_of_mem candidate)]
        split <;> exact ⟨_, rfl⟩
      -- exactly the common conjuncts are TRUE
      have same := congrArg (Reaches true) (preserved root applied fun predicate =>
        Option.some (decide (predicate ∈ order.candidates)))
      rw [eq_iff_iff, reaches_apply order applied, reaches_disjuncts order] at same
      simp only [Reaches, if_true, Option.some.injEq, decide_eq_true_eq] at same
      obtain ⟨other, among, kept, inside⟩ :=
        (same.mpr ⟨fun _ candidate => candidate, disjunct, member,
          (shared_iff order member).mp shared⟩).2 some
      have otherShared := (shared_iff order among).mpr inside
      exact ⟨other, among, otherShared,
        fun nodup => kept ((leftOf_eq_nil_iff order among).mpr ⟨otherShared, nodup⟩)⟩
    · left
      intro other among
      refine ((leftOf_eq_nil_iff order among).mp ?_).1
      exact not_not.mp fun kept => some ⟨other, among, kept⟩
  · intro absorbs root applied truth
    refine eq_of_reaches fun strict => ?_
    rw [reaches_apply order applied, reaches_disjuncts order]
    refine and_congr_right fun common => ⟨fun rest => ?_, ?_⟩
    · by_cases none : leftOf order first = []
      · exact ⟨first, mem_cons_self, by simp [none]⟩
      · obtain ⟨disjunct, member, _, all⟩ := rest ⟨first, mem_cons_self, none⟩
        exact ⟨disjunct, member, all⟩
    rintro ⟨disjunct, member, all⟩ ⟨rest, listed, some⟩
    by_cases none : leftOf order disjunct = []
    · obtain ⟨other, among, shared, kept⟩ : ∃ other ∈ first :: others,
          Shared (first :: others) other ∧ leftOf order other ≠ [] := by
        rcases absorbs ⟨disjunct, member, ((leftOf_eq_nil_iff order member).mp none).1⟩ with
          every | ⟨other, among, shared, repeats⟩
        · exact ⟨rest, listed, every rest listed, some⟩
        · exact ⟨other, among, shared, fun empty =>
            repeats ((leftOf_eq_nil_iff order among).mp empty).2⟩
      exact ⟨other, among, kept, fun predicate inside =>
        common predicate ((shared_iff order among).mp shared inside)⟩
    · exact ⟨disjunct, member, none, all⟩

/-- `(X AND B) OR X` becomes `X AND B`. -/
theorem value_apply_of_absorbed_child :
    let first : Disjunct Nat := ⟨[0, 1], by simp⟩
    let order : CandidateOrder first [⟨[0], by simp⟩] := ⟨[0], by decide⟩
    let truth := fun predicate => some (predicate == 0)
    ((apply order).map (FactoredRoot.value truth),
        disj ([first, ⟨[0], by simp⟩].map (Disjunct.value truth))) =
      (some (some false), some true) := by
  decide

end DistributivityRule

end GuinsooDB
