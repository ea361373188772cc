import GuinsooDB.Join.NestedLoop
import GuinsooDB.Join.Task

/-!
Which rows the hash join returns, against the nested-loop definition: for each join type, the
condition under which they are the same.
-/

namespace GuinsooDB

open List Multiset JoinedRow Bool

namespace HashJoin

variable {Left : Type} {plan : HashJoin} {builds : List BuildRow} {probes : List (ProbeRow Left)}

/-! The final scan, row by row of the build side -/

section Entries

variable {base : JoinHashTable}

theorem mem_hits (indexed : plan.Indexed builds base) {entry : Nat} {build : BuildRow}
    (there : (plan.keptRows builds)[entry]? = some build) {row : ProbeRow Left} :
    entry ∈ plan.hits base row ↔ plan.joins builds row build = true := by
  have stored : base.entries[entry]? = some (plan.serialize build) := by
    rw [indexed.entries, List.getElem?_map, there]
    rfl
  have kept : plan.keptBuild build = true := (mem_filter.mp (mem_of_getElem? there)).2
  have chain : entry ∈ plan.chainOf base row ↔ plan.keptProbe row = true ∧
      plan.hashKeys build.keys &&& plan.bitmaskOf builds = plan.hashKeys row.keys &&& plan.bitmaskOf builds := by
    unfold chainOf
    split
    next probed =>
      rw [indexed.chains, mem_reverse, List.mem_map]
      constructor
      · rintro ⟨⟨item, number⟩, listed, rfl⟩
        obtain ⟨inside, bucket⟩ := mem_filter.mp listed
        have known := mem_zipIdx_iff_getElem?.mp inside
        rw [stored] at known
        cases known
        rw [indexed.bitmask] at bucket
        exact ⟨probed, of_decide_eq_true bucket⟩
      · rintro ⟨_, bucket⟩
        refine ⟨(plan.serialize build, entry), mem_filter.mpr ⟨mem_zipIdx_iff_getElem?.mpr stored, ?_⟩, rfl⟩
        rw [indexed.bitmask]
        exact decide_eq_true bucket
    next out =>
      exact ⟨fun listed => absurd listed not_mem_nil, fun given => absurd given.1 out⟩
  rw [hits, List.mem_filter, chain, stored, joins, kept]
  simp only [and_eq_true, beq_iff_eq, Bool.and_true]
  refine and_congr_left fun _ => and_congr_right fun _ => ?_
  exact eq_comm

def strayRow (plan : HashJoin) (build : BuildRow) : JoinedRow Left where
  left := none
  right := some build
  columns := gatherKey plan.buildTypes (storeKey plan.buildTypes build.payload)

theorem keptRows_all (rightOuter : plan.joinType.isRightOuter = true) : plan.keptRows builds = builds := by
  apply filter_eq_self.mpr
  intro build _
  rw [keptBuild, rightOuter, Bool.true_or]

theorem unmatchedFrom_start (indexed : plan.Indexed builds base)
    (rightOuter : plan.joinType.isRightOuter = true) : plan.unmatchedFrom base probes 0 =
      (((builds.filter fun build => !probes.any fun row => plan.joins builds row build).map
        plan.strayRow : List (JoinedRow Left)) : Multiset (JoinedRow Left)) := by
  have all := @keptRows_all plan builds rightOuter
  have count : base.entries.length = builds.length := by
    rw [indexed.entries, length_map, all]
  rw [unmatchedFrom, if_pos rightOuter, count, Nat.sub_zero, ← range_eq_range',
    ← filterMap_filter_range builds (fun entry => !plan.hit base probes entry), List.map_filterMap]
  · congr 1
    rw [← List.filterMap_eq_map]
    apply filterMap_congr
    intro entry listed
    have inside : entry < builds.length := List.mem_range.mp (List.mem_of_mem_filter listed)
    have there := getElem?_eq_getElem inside
    have stored : base.entries[entry]? = some (plan.serialize builds[entry]) := by
      rw [indexed.entries, getElem?_map, all, there]
      rfl
    rw [there, Function.comp_apply, unmatchedRow, stored]
    rfl
  · intro entry build there
    rw [← all] at there
    rw [hit]
    congr 2
    funext row
    rw [Bool.eq_iff_iff, decide_eq_true_iff]
    exact mem_hits indexed there

end Entries

/-! When the rows are right -/

/-- The rows that the table joins match, as far as the result depends on them, and values of the
build side come out as they went in. -/
def Faithful (plan : HashJoin) (builds : List BuildRow) (probes : List (ProbeRow Left)) : Prop :=
  match plan.joinType with
  | .inner | .left => ∀ row ∈ probes, ∀ build ∈ builds, plan.joins builds row build = true →
      plan.sqlMatches row build = true ∧ UnambiguousKey plan.buildTypes build.payload
  | .right | .outer => (∀ row ∈ probes, ∀ build ∈ builds, plan.joins builds row build = true →
      plan.sqlMatches row build = true) ∧
      ∀ build ∈ builds, UnambiguousKey plan.buildTypes build.payload
  | .semi | .anti => ∀ row ∈ probes, (∃ build ∈ builds, plan.joins builds row build = true) →
      ∃ build ∈ builds, plan.sqlMatches row build = true
  | .single => ∀ row ∈ probes, ∀ build, (builds.filter (plan.joins builds row)).getLast? = some build →
      plan.sqlMatches row build = true ∧ UnambiguousKey plan.buildTypes build.payload
  | .mark => ∀ row ∈ probes, ((∃ build ∈ builds, plan.joins builds row build = true) →
      ∃ build ∈ builds, plan.sqlMatches row build = true) ∧
      (builds ≠ [] → plan.keptRows builds = [] → ∃ build ∈ builds, plan.truth row build = none)

/-- A row is joined only if it has a match. -/
abbrev Genuine (plan : HashJoin) (builds : List BuildRow) (row : ProbeRow Left) : Prop :=
  (∃ build ∈ builds, plan.joins builds row build = true) →
    ∃ build ∈ builds, plan.sqlMatches row build = true

/-- A row is joined only with its matches, and their values come out as they went in. -/
abbrev Exact (plan : HashJoin) (builds : List BuildRow) (row : ProbeRow Left) : Prop :=
  ∀ build ∈ builds, plan.joins builds row build = true →
    plan.sqlMatches row build = true ∧ UnambiguousKey plan.buildTypes build.payload

theorem restored_iff {build : BuildRow} (columns : build.payload.length = plan.buildTypes.length) :
    gatherKey plan.buildTypes (storeKey plan.buildTypes build.payload) = build.payload ↔
      UnambiguousKey plan.buildTypes build.payload := by
  refine ⟨fun same => ?_, gatherKey_storeKey⟩
  have clear := @gatherKey_unambiguous plan.buildTypes (storeKey plan.buildTypes build.payload) (by rw [same, columns])
  rwa [same] at clear

variable {joined : JoinedRow Left} {row : ProbeRow Left}

theorem sqlRows_left (listed : joined ∈ plan.sqlRows builds row) : joined.left = some row := by
  have paired : joined ∈ (builds.filter (plan.sqlMatches row)).map (sqlPair row) → joined.left = some row := by
    intro found
    obtain ⟨_, _, rfl⟩ := mem_map.mp found
    rfl
  have single : ∀ {p : Prop} [Decidable p] {columns : List Cell},
      joined ∈ (if p then [alone row columns] else []) → joined.left = some row := by
    intro p _ columns found
    split at found
    · rw [List.mem_singleton.mp found]
      rfl
    · cases found
  unfold sqlRows at listed
  cases type : plan.joinType <;> rw [type] at listed <;> dsimp only at listed
  case inner | right => exact paired listed
  case left | outer => exact (mem_append.mp listed).elim paired single
  case anti => exact single listed
  case semi =>
    rw [← ite_not] at listed
    exact single listed
  case mark =>
    rw [List.mem_singleton.mp listed]
    rfl
  case single => cases listed

theorem mem_sqlRows (listed : joined ∈ probes.flatMap (plan.sqlRows builds)) (left : joined.left = some row) :
    joined ∈ plan.sqlRows builds row := by
  obtain ⟨other, _, there⟩ := mem_flatMap.mp listed
  have sameRow : other = row := Option.some.inj ((sqlRows_left there).symm.trans left)
  exact sameRow ▸ there

section Iff

variable (shaped : plan.Shaped builds probes)

include shaped

variable {row : ProbeRow Left} {build : BuildRow}

theorem joins_iff_matches (inside : row ∈ probes) (listed : build ∈ builds)
    (sound : plan.joins builds row build = true → plan.sqlMatches row build = true) :
    plan.joins builds row build = plan.sqlMatches row build := by
  rw [Bool.eq_iff_iff]
  exact ⟨sound, joins_of_matches (shaped.probeKeys row inside) (shaped.buildKeys build listed)⟩

theorem pairs_perm (inside : row ∈ probes) (sound : plan.Exact builds row) :
    ((plan.partners builds row).map (plan.joinedPair row)).Perm
      ((builds.filter (plan.sqlMatches row)).map (sqlPair row)) := by
  refine ((reverse_perm _).map _).trans (List.Perm.of_eq ?_)
  rw [filter_congr fun build listed => joins_iff_matches shaped inside listed fun joined =>
    (sound build listed joined).1]
  apply map_congr_left
  intro build found
  obtain ⟨listed, matched⟩ := mem_filter.mp found
  have joined : plan.joins builds row build = true := joins_of_matches (shaped.probeKeys row inside)
    (shaped.buildKeys build listed) matched
  rw [joinedPair, gatherKey_storeKey (sound build listed joined).2]
  rfl

theorem partners_isEmpty (inside : row ∈ probes) (sound : plan.Genuine builds row) :
    (plan.partners builds row).isEmpty = (builds.filter (plan.sqlMatches row)).isEmpty := by
  rw [Bool.eq_iff_iff, List.isEmpty_iff, List.isEmpty_iff, partners, reverse_eq_nil_iff,
    filter_eq_nil_iff, filter_eq_nil_iff]
  constructor
  · intro none build listed matched
    exact none build listed (joins_of_matches (shaped.probeKeys row inside) (shaped.buildKeys build listed) matched)
  · intro none build listed joined
    obtain ⟨other, otherListed, matched⟩ := sound ⟨build, listed, joined⟩
    exact none other otherListed matched

variable (pairs : plan.joinType.byPairs = true)

include pairs in
theorem matches_of_mem (inside : build ∈ builds)
    (given : plan.joinedPair row build ∈ probes.flatMap (plan.sqlRows builds)) :
    plan.sqlMatches row build = true ∧ UnambiguousKey plan.buildTypes build.payload := by
  have listed := mem_sqlRows given rfl
  have found : plan.joinedPair row build ∈ (builds.filter (plan.sqlMatches row)).map (sqlPair row) := by
    unfold sqlRows at listed
    cases type : plan.joinType with
    | inner | right =>
      rw [type] at listed
      exact listed
    | left | outer =>
      rw [type] at listed
      rcases mem_append.mp listed with pair | single
      · exact pair
      · split at single
        · have same := congrArg right (List.mem_singleton.mp single)
          cases same
        · cases single
    | _ =>
      rw [type] at pairs
      cases pairs
  obtain ⟨candidate, chosen, same⟩ := List.mem_map.mp found
  have sameBuild : candidate = build := Option.some.inj (congrArg right same)
  subst sameBuild
  exact ⟨(mem_filter.mp chosen).2, (restored_iff (shaped.payloads candidate inside)).mp (congrArg columns same).symm⟩

omit shaped in
include pairs in
theorem mem_emitted (listed : build ∈ builds) (joined : plan.joins builds row build = true) :
    plan.joinedPair row build ∈ plan.emitted builds row := by
  have found : plan.joinedPair row build ∈ (plan.partners builds row).map (plan.joinedPair row) :=
    mem_map_of_mem (mem_reverse.mpr (mem_filter.mpr ⟨listed, joined⟩))
  unfold emitted
  cases type : plan.joinType with
  | inner | right => exact found
  | left | outer => exact mem_append_left _ found
  | _ =>
    rw [type] at pairs
    cases pairs

include pairs in
theorem emitted_perm (inside : row ∈ probes)
    (sound : plan.Exact builds row) : (plan.emitted builds row).Perm (plan.sqlRows builds row) := by
  have perm := pairs_perm shaped inside sound
  unfold emitted sqlRows
  cases type : plan.joinType with
  | inner | right => exact perm
  | left | outer =>
    dsimp only
    rw [partners_isEmpty shaped inside fun given => by
      obtain ⟨build, listed, joined⟩ := given
      exact ⟨build, listed, (sound build listed joined).1⟩]
    exact perm.append (List.Perm.refl _)
  | _ =>
    rw [type] at pairs
    cases pairs

include pairs in
theorem emittedAll_pairs_iff : plan.emittedAll builds probes = (probes.flatMap (plan.sqlRows builds) : List _) ↔
      ∀ row ∈ probes, plan.Exact builds row := by
  rw [emittedAll, coe_eq_coe]
  constructor
  · intro same row inside build listed joined
    exact matches_of_mem shaped pairs listed
      (same.mem_iff.mp (mem_flatMap.mpr ⟨row, inside, mem_emitted pairs listed joined⟩))
  · intro sound
    exact List.Perm.flatMap_left _ fun row inside =>
      emitted_perm shaped pairs inside (sound row inside)

theorem total_unmatched_iff {base : JoinHashTable} (indexed : plan.Indexed builds base)
    (pairs : plan.joinType.byPairs = true) (rightOuter : plan.joinType.isRightOuter = true) :
    plan.total builds base probes = (probes.flatMap (plan.sqlRows builds) ++ plan.sqlUnmatched builds probes : List _) ↔
      (∀ row ∈ probes, ∀ build ∈ builds, plan.joins builds row build = true → plan.sqlMatches row build = true) ∧
      ∀ build ∈ builds, UnambiguousKey plan.buildTypes build.payload := by
  rw [total, unmatchedFrom_start indexed rightOuter, emittedAll, coe_add, coe_eq_coe]
  constructor
  · intro same
    have paired : ∀ row ∈ probes, plan.Exact builds row := by
      intro row inside build listed joined
      have given := same.mem_iff.mp (mem_append_left _ (mem_flatMap.mpr ⟨row, inside, mem_emitted pairs listed joined⟩))
      rcases mem_append.mp given with found | stray
      · exact matches_of_mem shaped pairs listed found
      · obtain ⟨other, _, equal⟩ := mem_map.mp stray
        cases congrArg JoinedRow.left equal
    refine ⟨fun row inside build listed joined => (paired row inside build listed joined).1, fun build listed => ?_⟩
    by_cases any : probes.any (fun row => plan.joins builds row build) = true
    · obtain ⟨row, inside, joined⟩ := any_eq_true.mp any
      exact (paired row inside build listed joined).2
    have left : plan.strayRow build ∈ probes.flatMap (plan.emitted builds) ++
        (builds.filter fun build => !probes.any fun row => plan.joins builds row build).map plan.strayRow :=
      mem_append_right _ (mem_map_of_mem (mem_filter.mpr ⟨listed, by simpa using any⟩))
    rcases mem_append.mp (same.mem_iff.mp left) with found | stray
    · obtain ⟨row, _, there⟩ := mem_flatMap.mp found
      cases sqlRows_left there
    · obtain ⟨other, _, equal⟩ := mem_map.mp stray
      have sameBuild : other = build := Option.some.inj (congrArg right equal)
      subst sameBuild
      exact (restored_iff (shaped.payloads other listed)).mp (congrArg columns equal).symm
  · rintro ⟨sound, clear⟩
    refine (List.Perm.flatMap_left _ fun row inside => emitted_perm shaped pairs inside
      fun build listed joined => ⟨sound row inside build listed joined, clear build listed⟩).append
      (List.Perm.of_eq ?_)
    rw [sqlUnmatched]
    have unmatched : (builds.filter fun build => !probes.any fun row => plan.joins builds row build) =
        builds.filter fun build => !probes.any fun row => plan.sqlMatches row build := by
      apply List.filter_congr
      intro build listed
      rw [not_inj_iff, Bool.eq_iff_iff, any_eq_true, any_eq_true]
      refine exists_congr fun row => and_congr_right fun inside => ?_
      rw [joins_iff_matches shaped inside listed (sound row inside build listed)]
    rw [unmatched]
    apply map_congr_left
    intro build found
    rw [strayRow, gatherKey_storeKey (clear build (mem_filter.mp found).1)]

theorem emittedAll_filter_iff (type : plan.joinType = .semi ∨ plan.joinType = .anti) :
    plan.emittedAll builds probes = (probes.flatMap (plan.sqlRows builds) : List _) ↔
      ∀ row ∈ probes, plan.Genuine builds row := by
  rw [emittedAll, coe_eq_coe]
  constructor
  · intro same row inside joined
    have some' : (plan.partners builds row).isEmpty = false := by
      obtain ⟨build, listed, given⟩ := joined
      rw [isEmpty_eq_false_iff]
      exact ne_nil_of_mem (mem_reverse.mpr (mem_filter.mpr ⟨listed, given⟩))
    by_contra none
    have missing : (builds.filter (plan.sqlMatches row)).isEmpty = true := by
      rw [List.isEmpty_iff, filter_eq_nil_iff]
      exact fun build listed matched => none ⟨build, listed, matched⟩
    rcases type with semi | anti
    · have emitted : alone row [] ∈ plan.emitted builds row := by
        simp [HashJoin.emitted, semi, some']
      have there := mem_sqlRows (same.mem_iff.mp (mem_flatMap.mpr ⟨row, inside, emitted⟩)) rfl
      simp [sqlRows, semi, missing] at there
    have wanted : alone row [] ∈ plan.sqlRows builds row := by
      simp [sqlRows, anti, missing]
    have given := same.mem_iff.mpr (mem_flatMap.mpr ⟨row, inside, wanted⟩)
    obtain ⟨other, _, there⟩ := mem_flatMap.mp given
    simp only [HashJoin.emitted, anti] at there
    split at there
    next empty =>
      have sameRow : row = other := Option.some.inj (congrArg JoinedRow.left (List.mem_singleton.mp there))
      subst sameRow
      rw [some'] at empty
      cases empty
    · cases there
  · intro sound
    refine List.Perm.flatMap_left _ fun row inside => List.Perm.of_eq ?_
    rcases type with same | same <;>
      simp only [HashJoin.emitted, sqlRows, same, partners_isEmpty shaped inside (sound row inside)]

theorem emittedAll_single_iff (single : plan.joinType = .single) :
    Multiset.Rel (plan.SingleRow builds) probes (plan.emittedAll builds probes) ↔
      ∀ row ∈ probes, ∀ build, (builds.filter (plan.joins builds row)).getLast? = some build →
        plan.sqlMatches row build = true ∧ UnambiguousKey plan.buildTypes build.payload := by
  have rows : plan.emittedAll builds probes = Multiset.map (fun row =>
      ((builds.filter (plan.joins builds row)).getLast?.map (plan.joinedPair row)).getD
        (alone row (ScanStructure.nullColumns plan))) (probes : Multiset (ProbeRow Left)) := by
    rw [emittedAll, Multiset.map_coe, ← flatMap_singleton' (map _ probes), flatMap_map]
    congr 2
    funext row
    rw [emitted, single]
    rw [partners, head?_reverse]
  rw [rows, rel_map_right]
  constructor
  · intro related row inside build last
    obtain ⟨other, _, given⟩ := exists_mem_of_rel_of_mem related (mem_coe.mpr inside)
    have carried : other = row := by
      have left : (((builds.filter (plan.joins builds other)).getLast?.map (plan.joinedPair other)).getD
          (alone other (ScanStructure.nullColumns plan))).left = some other := by
        cases (builds.filter (plan.joins builds other)).getLast? <;> rfl
      rcases given with ⟨_, _, _, same⟩ | ⟨_, same⟩ <;>
        exact Option.some.inj (left.symm.trans (congrArg JoinedRow.left same))
    subst carried
    rw [last] at given
    have listed : build ∈ builds := (mem_filter.mp (mem_of_getLast? last)).1
    rcases given with ⟨candidate, _, matched, same⟩ | ⟨_, same⟩
    · have sameBuild : build = candidate := Option.some.inj (congrArg right same)
      subst sameBuild
      exact ⟨matched, (restored_iff (shaped.payloads build listed)).mp (congrArg columns same)⟩
    · cases congrArg right same
  · intro sound
    refine rel_refl_of_refl_on fun row listed => ?_
    have inside := mem_coe.mp listed
    cases last : (builds.filter (plan.joins builds row)).getLast? with
    | none =>
      right
      refine ⟨fun build there => ?_, rfl⟩
      rw [getLast?_eq_none_iff, filter_eq_nil_iff] at last
      by_contra matched
      exact last build there (joins_of_matches (shaped.probeKeys row inside)
        (shaped.buildKeys build there) (by simpa using matched))
    | some build =>
      left
      obtain ⟨matched, clear⟩ := sound row inside build last
      refine ⟨build, (mem_filter.mp (mem_of_getLast? last)).1, matched, ?_⟩
      change plan.joinedPair row build = _
      rw [joinedPair, gatherKey_storeKey clear]
      rfl

end Iff

end HashJoin

end GuinsooDB
