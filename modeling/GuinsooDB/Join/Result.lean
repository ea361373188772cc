import Mathlib.Algebra.Group.Action.Defs
import GuinsooDB.Join.Mark

/-!
The hash join from the chunks of both sides to the rows that one thread returns.
-/

namespace GuinsooDB

open Outcome List

namespace HashJoin

variable {Left : Type} {plan : HashJoin} {builds : List BuildRow} {probes : List (ProbeRow Left)}

theorem emitted_length {row : ProbeRow Left} : (plan.emitted builds row).length ≤ builds.length + 1 := by
  have few : (plan.partners builds row).length ≤ builds.length := by
    rw [partners, length_reverse]
    exact length_filter_le _ _
  unfold emitted
  cases plan.joinType with
  | inner | right =>
    rw [length_map]
    omega
  | left | outer =>
    rw [length_append, length_map]
    split <;> simp only [length_cons, length_nil] <;> omega
  | semi | anti =>
    dsimp only
    split <;> simp
  | _ => exact Nat.le_add_left _ _

variable {base : JoinHashTable}

theorem total_card (indexed : plan.Indexed builds base) : (plan.total builds base probes).card ≤
      probes.length * (builds.length + 1) + builds.length := by
  have pairs : (plan.emittedAll builds probes).card ≤ probes.length * (builds.length + 1) := by
    have bound := List.sum_le_card_nsmul (probes.map fun row => (plan.emitted builds row).length)
      (builds.length + 1) fun size listed => by
        obtain ⟨row, _, rfl⟩ := List.mem_map.mp listed
        exact emitted_length
    rw [length_map, smul_eq_mul] at bound
    rwa [emittedAll, Multiset.coe_card, length_flatMap]
  have strays : (plan.unmatchedFrom base probes 0).card ≤ builds.length := by
    unfold unmatchedFrom
    split
    · rw [Multiset.coe_card, length_map]
      refine le_trans (length_filter_le _ _) ?_
      rw [length_range', indexed.entries, length_map, Nat.sub_zero]
      exact length_filter_le _ _
    · exact Nat.zero_le _
  rw [total, Multiset.card_add]
  omega

theorem total_nestedLoop_iff (indexed : plan.Indexed builds base)
    (shaped : plan.Shaped builds probes) (clearBuild : plan.ClearGroups (builds.map BuildRow.keys))
    (clear : plan.ClearGroups (probes.map ProbeRow.keys)) :
    plan.NestedLoop builds probes (plan.total builds base probes) ↔ plan.Faithful builds probes := by
  have plain : plan.joinType.isRightOuter = false → plan.total builds base probes = plan.emittedAll builds probes := by
    intro other
    rw [total, unmatchedFrom, if_neg (by rw [other]; exact Bool.false_ne_true), Multiset.add_zero]
  unfold NestedLoop Faithful
  cases type : plan.joinType with
  | inner | left =>
    rw [plain (by rw [type]; rfl)]
    exact emittedAll_pairs_iff shaped (by rw [type]; rfl)
  | right | outer =>
    exact total_unmatched_iff shaped indexed (by rw [type]; rfl) (by rw [type]; rfl)
  | semi =>
    rw [plain (by rw [type]; rfl)]
    exact emittedAll_filter_iff shaped (.inl type)
  | anti =>
    rw [plain (by rw [type]; rfl)]
    exact emittedAll_filter_iff shaped (.inr type)
  | single =>
    rw [plain (by rw [type]; rfl)]
    exact emittedAll_single_iff shaped type
  | mark =>
    rw [plain (by rw [type]; rfl)]
    refine (emittedAll_mark_iff type).trans (forall_congr' fun row => forall_congr' fun inside => ?_)
    cases plan.planned type with
    | contained condition only strict simple =>
      exact markOf_strict (show _ = [] ++ [condition] from only) (by simp) strict simple shaped type
        clearBuild clear inside
    | exists' all simple => exact markOf_exists shaped type all simple inside
    | any condition columns split all strict counted =>
      exact markOf_strict split all strict counted shaped type clearBuild clear inside

end HashJoin

structure JoinInput (Left : Type) where
  plan : HashJoin
  build : List (List BuildRow)
  probe : List (List (ProbeRow Left))
  buildSmall : ∀ chunk ∈ build, chunk.length ≤ standardVectorSize
  probeSmall : ∀ chunk ∈ probe, chunk ≠ [] ∧ chunk.length ≤ standardVectorSize
  shaped : plan.Shaped build.flatten probe.flatten

namespace JoinInput

variable {Left : Type}

variable (input : JoinInput Left)

def execute (fuel : Nat) : Except String (List (JoinedRow Left)) := do
  let global ← input.plan.buildAll input.build
  input.plan.drain fuel global (HashJoin.startTask input.probe)

def ClearGroups : Prop :=
  input.plan.ClearGroups (input.build.flatten.map BuildRow.keys) ∧
    input.plan.ClearGroups (input.probe.flatten.map ProbeRow.keys)

def CountsFit : Prop :=
  input.plan.CountsFit (input.build.flatten.length + input.probe.flatten.length)

def Faithful : Prop :=
  input.plan.Faithful input.build.flatten input.probe.flatten

def NestedLoop (output : List (JoinedRow Left)) : Prop :=
  input.plan.NestedLoop input.build.flatten input.probe.flatten output

def callBound : Nat :=
  input.probe.flatten.length * (input.build.flatten.length + 1) + input.build.flatten.length

theorem execute_yields (input : JoinInput Left) (clear : input.ClearGroups) {fuel : Nat} :
    Yields (input.CountsFit ∧ input.callBound < fuel)
      (fun output => input.NestedLoop output ↔ input.Faithful) (input.execute fuel) := by
  refine (@HashJoin.buildAll_built Left input.plan input.probe.flatten _ input.build input.buildSmall
    clear.1 clear.2 And.left).bind fun global built => ?_
  have indexed := built.prepared.indexed
  refine (built.drain input.probeSmall fun fits => ?_).mono fun output rows => ?_
  · exact lt_of_le_of_lt (HashJoin.total_card indexed) fits.2
  · rw [NestedLoop, rows]
    exact HashJoin.total_nestedLoop_iff indexed input.shaped clear.1 clear.2

def plainHash (_ : PhysicalType) : Datum → Nat
  | .number value => value.natAbs
  | .bytes data => data.length

def equalOn (type : PhysicalType) (nullValuesAreEqual : Bool) : JoinCondition where
  type
  comparison := .equal
  nullValuesAreEqual
  equality := fun _ => rfl

def byEquality (joinType : JoinType) (type : PhysicalType) : HashJoin where
  conditions := [equalOn type false]
  equalities := 1
  buildTypes := [type]
  joinType
  correlated := 0
  hash := plainHash
  tuplesPerBlock := 1000
  uninitialised := fun _ => 0
  positive := Nat.zero_lt_one
  bounded := le_refl 1
  leading := by
    intro index condition there
    cases index with
    | zero =>
      cases there
      exact iff_of_true rfl Nat.zero_lt_one
    | succ index => cases there
  planned := fun _ => .contained _ rfl rfl rfl

/-- `x = ANY (SELECT r.b FROM r WHERE r.g = l.g)` -/
def correlatedAny : HashJoin where
  conditions := [equalOn .int32 true, equalOn .int32 false]
  equalities := 2
  buildTypes := []
  joinType := .mark
  correlated := 1
  hash := plainHash
  tuplesPerBlock := 1000
  uninitialised := fun _ => 0
  positive := Nat.zero_lt_two
  bounded := le_refl 2
  leading := by
    intro index condition there
    match index with
    | 0 =>
      cases there
      exact iff_of_true rfl (by decide)
    | 1 =>
      cases there
      exact iff_of_true rfl (by decide)
    | index + 2 => cases there
  planned := fun _ => .any (equalOn .int32 false) [equalOn .int32 true] rfl
    (fun column listed => by rw [List.mem_singleton.mp listed]; rfl) rfl rfl

def number (value : Int) : Cell := some (.number value)

def groupsWithNull : JoinInput Nat where
  plan := correlatedAny
  build := [[⟨[number 1, number 7], []⟩, ⟨[number 2, none], []⟩]]
  probe := [[⟨[number 1, number 7], 0⟩, ⟨[number 2, number 7], 1⟩], [⟨[number 3, number 7], 2⟩]]
  buildSmall := by decide
  probeSmall := by decide
  shaped := ⟨by decide, by decide, by decide⟩

def zeroPayload : JoinInput Nat where
  plan := byEquality .inner .uint32
  build := [[⟨[number 5], [number 0]⟩]]
  probe := [[⟨[number 5], 0⟩]]
  buildSmall := by decide
  probeSmall := by decide
  shaped := ⟨by decide, by decide, by decide⟩

def nullKey : JoinInput Nat where
  plan := byEquality .right .uint32
  build := [[⟨[none], [number 9]⟩]]
  probe := [[⟨[number 0], 0⟩]]
  buildSmall := by decide
  probeSmall := by decide
  shaped := ⟨by decide, by decide, by decide⟩

def otherGroup : JoinInput Nat where
  plan := correlatedAny
  build := [[⟨[number 1, none], []⟩]]
  probe := [[⟨[number 2, number 7], 0⟩]]
  buildSmall := by decide
  probeSmall := by decide
  shaped := ⟨by decide, by decide, by decide⟩

end JoinInput

end GuinsooDB
