import GuinsooDB.Update.Chain

/-!
The invariant of one vector: its chain is linked, row by row, to the writes of the
transactions that are still open and of those that have committed.
-/

namespace GuinsooDB

open SortedEntries SnapshotLedger UndoChain Option TransactionManager Function
open List (mem_map_of_mem mem_map mem_cons pairwise_map mem_cons_self find? nil_append mem_append mem_singleton)

variable {V : Type}

namespace TransactionManager

def readers (manager : TransactionManager) : List Reader :=
  manager.activeTransactions.map Transaction.reader

def Old (manager : TransactionManager) : Nat → Prop :=
  Ledger.Old manager.readers manager.currentStartTimestamp

variable {manager : TransactionManager} {transaction : Transaction}

theorem mem_readers (member : transaction ∈ manager.activeTransactions) : transaction.reader ∈ manager.readers :=
  mem_map_of_mem member

theorem Valid.not_old (valid : manager.Valid) (member : transaction ∈ manager.activeTransactions) :
    ¬manager.Old transaction.transactionId := by
  intro old
  have early : transaction.transactionId < transaction.startTime := old.2 _ (mem_readers member)
  have identified := valid.active transaction member
  have := identified.startBounded
  have := identified.idAbove
  omega

end TransactionManager

namespace UpdateNodeData

def current (node : UpdateNodeData V) (base : Nat → V) (row : Nat) : V :=
  (node.info.tuples.lookup row).getD (base row)

structure Sound (node : UpdateNodeData V) : Prop where
  baseVersion : node.info.versionNumber = transactionIdStart - 1
  baseSorted : Ascending node.info.tuples
  baseBounded : ∀ entry ∈ node.info.tuples, entry.1 < standardVectorSize
  sorted : ∀ info ∈ node.next, Ascending info.tuples
  covered : ∀ info ∈ node.next, ∀ row ∈ keys info.tuples, row ∈ keys node.info.tuples
  owners : (node.next.map UpdateInfo.transaction).Nodup

variable {node : UpdateNodeData V}

theorem Sound.bounded (sound : node.Sound) :
    ∀ info ∈ node.next, ∀ entry ∈ info.tuples, entry.1 < standardVectorSize := by
  intro info member entry inside
  have inBase := sound.covered info member entry.1 (mem_map_of_mem inside)
  obtain ⟨other, otherMember, same⟩ := mem_map.mp inBase
  have := sound.baseBounded other otherMember
  omega

theorem Sound.fetch (sound : node.Sound) {kind : SegmentKind} {startTime id : Nat}
    (early : startTime < transactionIdStart - 1) (high : transactionIdStart ≤ id)
    (base : Nat → V) (row : Nat) :
    updatesForTransaction (node.info :: node.next) startTime id (mergeFunction kind) base row =
      rewind (Ledger.hidden { startTime, transaction := id }) (node.current base row) (mentions node.next row) := by
  have sorted : ∀ info ∈ node.info :: node.next, Ascending info.tuples := by
    intro info member
    rcases mem_cons.mp member with same | later
    · exact same ▸ sound.baseSorted
    · exact sound.sorted info later
  have bounded : ∀ info ∈ node.info :: node.next, ∀ entry ∈ info.tuples, entry.1 < standardVectorSize := by
    intro info member
    rcases mem_cons.mp member with same | later
    · exact same ▸ sound.baseBounded
    · exact sound.bounded info later
  rw [updatesForTransaction_apply sorted bounded, mentions_cons, current]
  have positive : 0 < transactionIdStart := by decide
  have covered : Ledger.hidden { startTime, transaction := id } node.info.versionNumber = true := by
    simp only [Ledger.hidden, sound.baseVersion, Bool.and_eq_true, decide_eq_true_eq]
    omega
  cases node.info.tuples.lookup row with
  | none => rfl
  | some value =>
    rw [map_some, toList_some, List.singleton_append, rewind, if_pos covered]
    rfl

end UpdateNodeData

/-! Nodes of one transaction -/

variable {entries : List (Nat × V)}

theorem ascending_iff : Ascending entries ↔ (keys entries).Pairwise (· < ·) := pairwise_map.symm

def Labelled (transactionId : Nat) (chain : List (UpdateInfo V)) : Prop :=
  ∀ info ∈ chain, info.versionNumber = transactionId ↔ info.transaction = transactionId

variable {chain : List (UpdateInfo V)} {transactionId : Nat}

theorem mentions_filter (labelled : Labelled transactionId chain) (row : Nat) :
    mentions (chain.filter fun info => info.transaction ≠ transactionId) row =
      (mentions chain row).filter fun node => node.1 ≠ transactionId := by
  induction chain with
  | nil => rfl
  | cons info rest ih =>
    have tail := ih fun other member => labelled other (List.mem_cons_of_mem _ member)
    have same := labelled info mem_cons_self
    rw [mentions_cons, List.filter_append, ← tail]
    by_cases own : info.transaction = transactionId
    · have version := same.mpr own
      rw [List.filter_cons_of_neg (by simp [own])]
      cases info.tuples.lookup row <;> simp [version]
    · have version : info.versionNumber ≠ transactionId := fun equal => own (same.mp equal)
      rw [List.filter_cons_of_pos (by simp [own]), mentions_cons]
      cases info.tuples.lookup row <;> simp [version]

theorem lookup_mentions (labelled : Labelled transactionId chain)
    (owners : (chain.map UpdateInfo.transaction).Nodup) (row : Nat) :
    (mentions chain row).lookup transactionId =
      (chain.find? fun info => info.transaction = transactionId).bind fun info =>
        info.tuples.lookup row := by
  induction chain with
  | nil => rfl
  | cons info rest ih =>
    obtain ⟨fresh, restOwners⟩ := List.nodup_cons.mp owners
    have restLabelled : Labelled transactionId rest :=
      fun other member => labelled other (List.mem_cons_of_mem _ member)
    have tail := ih restLabelled restOwners
    have same := labelled info mem_cons_self
    rw [mentions_cons, List.lookup_append, List.find?_cons, tail]
    by_cases own : info.transaction = transactionId
    · have version := same.mpr own
      have absent : (rest.find? fun other => other.transaction = transactionId) = none := by
        apply List.find?_eq_none.mpr
        intro other member
        simp only [decide_eq_true_eq]
        exact fun equal => fresh (mem_map.mpr ⟨other, member, equal.trans own.symm⟩)
      simp only [own, decide_true, absent, bind_none, or_none, bind_some]
      cases info.tuples.lookup row <;> simp [version]
    · have differs : (transactionId == info.versionNumber) = false := by
        simpa using fun equal => own (same.mp equal.symm)
      simp only [own, decide_false]
      cases info.tuples.lookup row <;> simp [List.lookup_cons, differs]

variable {before after : List (UpdateInfo V)} {own : UpdateInfo V} {row : Nat}

theorem mentions_merge (base : Nat → V) {baseInfo : List (Nat × V)}
    (sorted : Ascending entries) (ownSorted : Ascending own.tuples)
    (baseSorted : Ascending baseInfo) (owned : own.versionNumber = transactionId)
    (afterOther : ∀ info ∈ after, info.versionNumber ≠ transactionId)
    (beforeAbsent : row ∈ keys entries → ∀ info ∈ before, row ∉ keys info.tuples) :
    mentions (before ++ { own with
        tuples := mergeUndoLoop base entries own.tuples baseInfo } :: after) row =
      if row ∈ keys entries then
        (transactionId, ((mentions (before ++ own :: after) row).lookup transactionId).getD
          ((baseInfo.lookup row).getD (base row))) ::
          (mentions (before ++ own :: after) row).filter fun node => node.1 ≠ transactionId
      else mentions (before ++ own :: after) row := by
  rw [mentions_append, mentions_append, mentions_cons, mentions_cons,
    lookup_mergeUndoLoop sorted ownSorted baseSorted, owned]
  by_cases inside : row ∈ keys entries
  · have afterNodes : ∀ node ∈ mentions after row, node.1 ≠ transactionId := by
      intro node mentioned
      obtain ⟨info, member, version, _⟩ := mem_mentions.mp mentioned
      exact version ▸ afterOther info member
    have afterLookup : (mentions after row).lookup transactionId = none := lookup_none_of_ne afterNodes
    have afterFilter : (mentions after row).filter (fun node => node.1 ≠ transactionId) = mentions after row :=
      List.filter_eq_self.mpr fun node mentioned => by simp [afterNodes node mentioned]
    rw [mentions_eq_nil (beforeAbsent inside), nil_append, nil_append,
      List.filter_append, afterFilter, if_pos inside, if_pos inside, List.lookup_append, afterLookup]
    cases own.tuples.lookup row <;> simp
  · simp [inside]

theorem modifyNode_split {versionNumber : Nat} {change : UpdateInfo V → UpdateInfo V}
    (owned : own.versionNumber = versionNumber)
    (others : ∀ info ∈ before, info.versionNumber ≠ versionNumber) :
    modifyNode versionNumber change (before ++ own :: after) = before ++ change own :: after := by
  induction before with
  | nil => rw [nil_append, modifyNode, if_pos owned, nil_append]
  | cons info rest ih =>
    rw [List.cons_append, modifyNode, if_neg (others info mem_cons_self),
      ih fun other member => others other (List.mem_cons_of_mem _ member), List.cons_append]

variable {node : UpdateNodeData V} {base : Nat → V} {transaction : Transaction}

theorem bounded_iff :
    (∀ entry ∈ entries, entry.1 < standardVectorSize) ↔ ∀ row ∈ keys entries, row < standardVectorSize := by
  rw [keys, List.forall_mem_map]

theorem keys_undo : keys ((keys entries).map fun id => (id, base id)) = keys entries := by
  simp [keys]

theorem lookup_undo : ((keys entries).map fun id => (id, base id)).lookup row =
    if row ∈ keys entries then some (base row) else none := by
  split
  next inside => exact List.lookup_graph base inside
  next outside =>
    rw [← @keys_undo _ entries base] at outside
    exact lookup_none_iff.mpr outside

theorem UpdateNodeData.Sound.insertNode (sound : node.Sound)
    (absent : ∀ info ∈ node.next, info.transaction ≠ transactionId) :
    Sound { node with next := { transaction := transactionId, versionNumber := transactionId, tuples := [] } :: node.next } := by
  refine ⟨sound.baseVersion, sound.baseSorted, sound.baseBounded, ?_, ?_, ?_⟩
  · exact List.forall_mem_cons.mpr ⟨List.Pairwise.nil, sound.sorted⟩
  · exact List.forall_mem_cons.mpr ⟨fun row inside => absurd inside List.not_mem_nil, sound.covered⟩
  · refine List.nodup_cons.mpr ⟨fun taken => ?_, sound.owners⟩
    obtain ⟨info, inside, same⟩ := mem_map.mp taken
    exact absent info inside same

section

variable (sorted : Ascending entries) (bounded : ∀ entry ∈ entries, entry.1 < standardVectorSize)
include sorted bounded

theorem sound_createNode : (createNode transaction base entries).Sound := by
  refine ⟨rfl, sorted, bounded, ?_, ?_, by simp [createNode]⟩
  · refine List.forall_mem_singleton.mpr (ascending_iff.mpr ?_)
    rw [keys_undo]
    exact ascending_iff.mp sorted
  · refine List.forall_mem_singleton.mpr fun row inside => ?_
    rwa [keys_undo] at inside

theorem UpdateNodeData.Sound.mergeNode (sound : Sound { node with next := before ++ own :: after }) :
    Sound { info := { node.info with tuples := mergeLoop entries node.info.tuples }
            next := before ++ { own with tuples := mergeUndoLoop base entries own.tuples node.info.tuples } :: after } := by
  have keys := mem_keys_mergeLoop sorted sound.baseSorted
  have inOrder := sound.sorted
  have covered := sound.covered
  refine ⟨sound.baseVersion, mergeLoop_ascending sorted sound.baseSorted, ?_, ?_, ?_, by simpa using sound.owners⟩
  · refine bounded_iff.mpr fun row inside => ?_
    exact ((keys row).mp inside).elim (bounded_iff.mp bounded row) (bounded_iff.mp sound.baseBounded row)
  all_goals simp only [List.forall_mem_append, List.forall_mem_cons, keys] at inOrder covered ⊢
  · exact ⟨inOrder.1, mergeUndoLoop_ascending sorted inOrder.2.1 sound.baseSorted, inOrder.2.2⟩
  · refine ⟨fun info inside row key => .inr (covered.1 info inside row key), fun row key => ?_,
      fun info inside row key => .inr (covered.2.2 info inside row key)⟩
    exact ((mem_keys_mergeUndoLoop sorted inOrder.2.1 sound.baseSorted row).mp key).imp_right (covered.2.1 row)

end

theorem UpdateNodeData.Sound.rollbackNode (sound : node.Sound)
    (labelled : Labelled transactionId node.next) (base : Nat → V) :
    (rollbackNode transactionId node).Sound ∧ (rollbackNode transactionId node).next =
        node.next.filter (fun info => info.transaction ≠ transactionId) ∧
      ∀ row, (rollbackNode transactionId node).current base row =
        ((mentions node.next row).lookup transactionId).getD (node.current base row) := by
  simp only [lookup_mentions labelled sound.owners]
  rw [GuinsooDB.rollbackNode]
  cases found : node.next.find? fun info => info.transaction = transactionId with
  | none =>
    refine ⟨sound, ?_, fun _ => rfl⟩
    exact (List.filter_eq_self.mpr fun info inside => by
      simpa using List.find?_eq_none.mp found info inside).symm
  | some own =>
    have ownMember := List.mem_of_find?_eq_some found
    obtain ⟨sameKeys, restored⟩ := rollbackLoop_spec sound.baseSorted
      (sound.sorted own ownMember) (sound.covered own ownMember)
    refine ⟨⟨sound.baseVersion, ?_, ?_, ?_, ?_, ?_⟩, rfl, ?_⟩
    · rw [ascending_iff, sameKeys]
      exact ascending_iff.mp sound.baseSorted
    · rw [bounded_iff, sameKeys]
      exact bounded_iff.mp sound.baseBounded
    · exact fun info inside => sound.sorted info (List.mem_of_mem_filter inside)
    · intro info inside row rowMember
      rw [sameKeys]
      exact sound.covered info (List.mem_of_mem_filter inside) row rowMember
    · exact sound.owners.sublist (List.filter_sublist.map _)
    · intro row
      rw [current, restored row, bind_some, current]
      cases own.tuples.lookup row <;> rfl

variable {commitId : Nat}

theorem UpdateNodeData.Sound.commitNode (sound : node.Sound) : (commitNode transactionId commitId node).Sound := by
  have relabelled : ∀ info ∈ (GuinsooDB.commitNode transactionId commitId node).next,
      ∃ old ∈ node.next, info.tuples = old.tuples := by
    intro info inside
    obtain ⟨old, oldMember, same⟩ := mem_map.mp inside
    refine ⟨old, oldMember, ?_⟩
    rw [← same]
    split <;> rfl
  refine ⟨sound.baseVersion, sound.baseSorted, sound.baseBounded, ?_, ?_, ?_⟩
  · intro info inside
    obtain ⟨old, oldMember, same⟩ := relabelled info inside
    exact same ▸ sound.sorted old oldMember
  · intro info inside
    obtain ⟨old, oldMember, same⟩ := relabelled info inside
    exact same ▸ sound.covered old oldMember
  · have owners : (GuinsooDB.commitNode transactionId commitId node).next.map
        UpdateInfo.transaction = node.next.map UpdateInfo.transaction := by
      rw [GuinsooDB.commitNode, List.map_map]
      apply List.map_congr_left
      intro info _
      simp only [comp_apply]
      split <;> rfl
    rw [owners]
    exact sound.owners

theorem mentions_commitNode (labelled : Labelled transactionId node.next)
    (row : Nat) : mentions (commitNode transactionId commitId node).next row = (mentions node.next row).map fun entry =>
        (if entry.1 = transactionId then commitId else entry.1, entry.2) := by
  rw [mentions, mentions, commitNode, List.filterMap_map, List.map_filterMap]
  apply List.filterMap_congr
  intro info inside
  have same := labelled info inside
  simp only [comp_apply, Option.map_map]
  by_cases own : info.transaction = transactionId
  · rw [if_pos own]
    simp [comp_def, same.mpr own]
  · have version : info.versionNumber ≠ transactionId := fun equal => own (same.mp equal)
    rw [if_neg own]
    simp [comp_def, version]

/-- A node belongs to an active transaction and carries its id, or to a committed one
and carries its commit id. -/
def Stamped (manager : TransactionManager) (info : UpdateInfo V) : Prop :=
  (∃ transaction ∈ manager.activeTransactions, transaction.transactionId = info.transaction ∧
      info.versionNumber = transaction.transactionId) ∨
    ∃ transaction ∈ manager.recentlyCommittedTransactions,
      transaction.transactionId = info.transaction ∧ info.versionNumber = transaction.commitId

def Ordered (manager : TransactionManager) (chain : List (UpdateInfo V)) : Prop :=
  chain.Pairwise fun newer earlier => ∀ transaction ∈ manager.activeTransactions,
    earlier.transaction = transaction.transactionId → transaction.startTime < newer.versionNumber

structure Tracked (manager : TransactionManager) (base : Nat → V)
    (writes : Nat → List (Nat × V)) (node : UpdateNodeData V) : Prop where
  sound : node.Sound
  stamped : ∀ info ∈ node.next, Stamped manager info
  ordered : Ordered manager node.next
  linked : ∀ row, Linked manager.Old (base row) (node.current base row)
    (mentions node.next row) (writes row)

namespace Tracked

variable {manager : TransactionManager} {transaction : Transaction} {base : Nat → V}
  {writes newWrites : Nat → List (Nat × V)} {node : UpdateNodeData V}

variable (tracked : Tracked manager base writes node)

include tracked in
theorem writes_of_clean (member : transaction ∈ manager.activeTransactions)
    (clean : ∀ info ∈ node.next, info.versionNumber ≠ transaction.transactionId →
      transaction.startTime < info.versionNumber → row ∉ keys info.tuples) :
    ∀ write ∈ writes row, write.1 = transaction.transactionId ∨ write.1 ≤ transaction.startTime := by
  intro write inside
  by_contra later
  have fresh : ¬manager.Old write.1 := by
    intro old
    have : write.1 < transaction.startTime := old.2 _ (mem_readers member)
    omega
  obtain ⟨mention, mentioned, version⟩ := (tracked.linked row).write_node write inside fresh
  obtain ⟨info, infoMember, infoVersion, found⟩ := mem_mentions.mp mentioned
  have present : row ∈ keys info.tuples := lookup_isSome_iff.mp (by simp [found])
  exact clean info infoMember (by omega) (by omega) present

theorem ordered_of_stamps {first second : List (UpdateInfo V)}
    (stamps : first.map (fun info => (info.transaction, info.versionNumber)) =
      second.map fun info => (info.transaction, info.versionNumber))
    (ordered : Ordered manager second) : Ordered manager first := by
  have mapped : (second.map fun info => (info.transaction, info.versionNumber)).Pairwise
      fun newer earlier => ∀ transaction ∈ manager.activeTransactions,
        earlier.1 = transaction.transactionId → transaction.startTime < newer.2 :=
    pairwise_map.mpr ordered
  rw [← stamps] at mapped
  exact pairwise_map.mp mapped

include tracked in
theorem insertNode (valid : manager.Valid)
    (member : transaction ∈ manager.activeTransactions)
    (absent : ∀ info ∈ node.next, info.transaction ≠ transaction.transactionId) :
    Tracked manager base writes { node with
      next := {
        transaction := transaction.transactionId
        versionNumber := transaction.transactionId
        tuples := [] } :: node.next } := by
  refine ⟨tracked.sound.insertNode absent, ?_, ?_, ?_⟩
  · exact List.forall_mem_cons.mpr ⟨.inl ⟨transaction, member, rfl, rfl⟩, tracked.stamped⟩
  · refine List.pairwise_cons.mpr ⟨?_, tracked.ordered⟩
    intro earlier _ active activeMember _
    have := (valid.active active activeMember).startBounded
    have := (valid.active transaction member).idAbove
    show active.startTime < transaction.transactionId
    omega
  · intro row
    have same : mentions ({
        transaction := transaction.transactionId
        versionNumber := transaction.transactionId
        tuples := [] } :: node.next) row = mentions node.next row := by
      rw [mentions_cons]
      rfl
    rw [same]
    exact tracked.linked row

variable {before after : List (UpdateInfo V)} {entries : List (Nat × V)}

section

variable (tracked : Tracked manager base writes node) (valid : manager.Valid) (room : manager.Room)
  (member : transaction ∈ manager.activeTransactions)
include tracked valid room member

theorem labelled : Labelled transaction.transactionId node.next := by
  intro info inside
  have high := (valid.active transaction member).idAbove
  rcases tracked.stamped info inside with ⟨owner, ownerActive, owns, version⟩ | ⟨owner, ownerRecent, owns, version⟩
  · rw [version, ← owns]
  have below := valid.recentBelow owner ownerRecent
  have differs := valid.recent_ne_active ownerRecent member
  rw [version, ← owns]
  constructor
  · intro same
    simp only [TransactionManager.Room] at room
    omega
  · exact fun same => absurd same differs

theorem fetch {kind : SegmentKind} (closed : (writes row).Pairwise fun newer earlier =>
      Ledger.hidden transaction.reader newer.1 = false →
      Ledger.hidden transaction.reader earlier.1 = false) :
    updatesForTransaction (node.info :: node.next) transaction.startTime
        transaction.transactionId (mergeFunction kind) base row =
      firstShown (Ledger.hidden transaction.reader) (base row) (writes row) := by
  have identified := valid.active transaction member
  have early := identified.startBelow
  simp only [TransactionManager.Room] at room
  rw [tracked.sound.fetch (by omega) identified.idAbove]
  refine (tracked.linked row).rewind_eq ?_ closed
  intro version old
  have shown : version < transaction.startTime := old.2 _ (mem_readers member)
  simp only [Ledger.hidden, Bool.and_eq_false_iff, decide_eq_false_iff_not]
  omega

theorem split_spec (split : node.next = before ++ own :: after)
    (owned : own.versionNumber = transaction.transactionId) :
    (∀ info ∈ before, info.versionNumber ≠ transaction.transactionId ∧ transaction.startTime < info.versionNumber) ∧
      ∀ info ∈ after, info.versionNumber ≠ transaction.transactionId := by
  have labelled := tracked.labelled valid room member
  have ordered := tracked.ordered
  have owners := tracked.sound.owners
  rw [split] at labelled ordered owners
  have ownMember : own ∈ before ++ own :: after := by simp
  have owner := (labelled own ownMember).mp owned
  rw [List.map_append, List.map_cons, List.nodup_append, List.nodup_cons] at owners
  obtain ⟨_, ⟨ownFresh, _⟩, apart⟩ := owners
  constructor
  · intro info inside
    have different := apart _ (mem_map_of_mem inside) own.transaction mem_cons_self
    refine ⟨fun version => different ?_, ?_⟩
    · rw [(labelled info (List.mem_append_left _ inside)).mp version, owner]
    · exact (List.pairwise_append.mp ordered).2.2 info inside own mem_cons_self transaction member owner
  · intro info inside version
    have infoMember : info ∈ before ++ own :: after := by simp [inside]
    have same := (labelled info infoMember).mp version
    exact ownFresh (mem_map.mpr ⟨info, inside, same.trans owner.symm⟩)

variable (sorted : Ascending entries) (bounded : ∀ entry ∈ entries, entry.1 < standardVectorSize)
  (rewritten : ∀ row value, entries.lookup row = some value →
    ∃ rest, Peels transaction.transactionId (writes row) rest ∧
      newWrites row = (transaction.transactionId, value) :: rest)
  (kept : ∀ row, entries.lookup row = none → newWrites row = writes row)
include sorted bounded rewritten kept

theorem mergeNode (split : node.next = before ++ own :: after) (owned : own.versionNumber = transaction.transactionId)
    (clean : ∀ info ∈ node.next, info.versionNumber ≠ transaction.transactionId →
      transaction.startTime < info.versionNumber → ∀ row ∈ keys entries, row ∉ keys info.tuples) :
    Tracked manager base newWrites {
      info := { node.info with tuples := mergeLoop entries node.info.tuples }
      next := before ++ { own with
        tuples := mergeUndoLoop base entries own.tuples node.info.tuples } :: after } := by
  have sound := tracked.sound
  have ownSorted := sound.sorted own (by simp [split])
  have stamped := tracked.stamped
  obtain ⟨beforeSpec, afterSpec⟩ := tracked.split_spec valid room member split owned
  have stamps : (before ++ { own with
      tuples := mergeUndoLoop base entries own.tuples node.info.tuples } :: after).map
        (fun info => (info.transaction, info.versionNumber)) =
      node.next.map fun info => (info.transaction, info.versionNumber) := by
    simp [split]
  refine ⟨UpdateNodeData.Sound.mergeNode sorted bounded (split ▸ sound), ?_, ?_, ?_⟩
  · rw [split] at stamped
    simp only [List.forall_mem_append, List.forall_mem_cons] at stamped ⊢
    exact stamped
  · exact ordered_of_stamps stamps tracked.ordered
  · intro row
    have merged := mentions_merge base sorted ownSorted sound.baseSorted owned afterSpec
      fun inside info early => clean info (by simp [split, early]) (beforeSpec info early).1
        (beforeSpec info early).2 row inside
    rw [← split] at merged
    rw [merged, UpdateNodeData.current, lookup_mergeLoop sorted sound.baseSorted]
    cases found : entries.lookup row with
    | none =>
      rw [if_neg (lookup_none_iff.mp found), kept row found]
      exact tracked.linked row
    | some value =>
      obtain ⟨rest, peels, newest⟩ := rewritten row value found
      rw [if_pos (lookup_isSome_iff.mp (by simp [found])), newest]
      exact .node (valid.not_old member) ((tracked.linked row).undo (valid.not_old member) peels)

theorem extend (clean : checkForConflicts node.next transaction (keys entries) = false) :
    Tracked manager base newWrites (extendNode transaction base entries node) := by
  have labelled := tracked.labelled valid room member
  have free := checkForConflicts_eq_false (ascending_iff.mp sorted) tracked.sound.sorted clean
  by_cases present : ∃ info ∈ node.next, info.versionNumber = transaction.transactionId
  · have detected : (node.next.any fun info =>
        decide (info.versionNumber = transaction.transactionId)) = true := by
      simpa using present
    obtain ⟨own, ownMember, owned⟩ := present
    obtain ⟨before, after, split⟩ := List.append_of_mem ownMember
    have others := (tracked.split_spec valid room member split owned).1
    rw [extendNode, if_pos detected, split, modifyNode_split owned fun info inside => (others info inside).1]
    exact tracked.mergeNode valid room member sorted bounded rewritten kept split owned free
  · have detected : (node.next.any fun info =>
        decide (info.versionNumber = transaction.transactionId)) = false := by
      simpa using present
    have absent : ∀ info ∈ node.next, info.transaction ≠ transaction.transactionId :=
      fun info inside owns => present ⟨info, inside, (labelled info inside).mpr owns⟩
    have inserted := tracked.insertNode valid member absent
    rw [extendNode, detected, if_neg (by simp), modifyNode, if_pos rfl]
    refine inserted.mergeNode valid room member sorted bounded rewritten kept (nil_append _).symm rfl ?_
    intro info inside different later row rowMember
    rcases mem_cons.mp inside with same | old
    · subst info
      simp [keys]
    · exact free info old different later row rowMember

end

theorem create (valid : manager.Valid) (member : transaction ∈ manager.activeTransactions)
    (sorted : Ascending entries) (bounded : ∀ entry ∈ entries, entry.1 < standardVectorSize)
    (rewritten : ∀ row value, entries.lookup row = some value → newWrites row = [(transaction.transactionId, value)])
    (kept : ∀ row, entries.lookup row = none → newWrites row = []) :
    Tracked manager base newWrites (createNode transaction base entries) := by
  refine ⟨sound_createNode sorted bounded, ?_, ?_, ?_⟩
  · exact List.forall_mem_singleton.mpr (.inl ⟨transaction, member, rfl, rfl⟩)
  · exact List.pairwise_singleton _ _
  · intro row
    rw [UpdateNodeData.current, createNode, mentions_cons]
    cases found : entries.lookup row with
    | none =>
      rw [lookup_undo, if_neg (lookup_none_iff.mp found), kept row found]
      exact .unwritten _ _
    | some value =>
      rw [lookup_undo, if_pos (lookup_isSome_iff.mp (by simp [found])), rewritten row value found]
      exact .node (valid.not_old member) (.unwritten _ _)

include tracked in
theorem start {next : TransactionManager}
    (valid : manager.Valid) (started : manager.startTransaction = .ok (next, transaction)) :
    Tracked next base writes node := by
  obtain ⟨_, startEq, idEq, nextStart, _, nextActive, _, nextRecent⟩ := startTransaction_eq started
  refine ⟨tracked.sound, ?_, ?_, ?_⟩
  · intro info inside
    rw [Stamped, nextActive, nextRecent]
    rcases tracked.stamped info inside with ⟨owner, ownerActive, owns⟩ | committed
    · exact .inl ⟨owner, List.mem_append_left _ ownerActive, owns⟩
    · exact .inr committed
  · refine (List.Pairwise.and_mem.mp tracked.ordered).imp ?_
    rintro newer earlier ⟨_, earlierMember, before⟩ other inside owns
    rw [nextActive, mem_append, mem_singleton] at inside
    rcases inside with old | same
    · exact before other old owns
    subst other
    rcases tracked.stamped earlier earlierMember with ⟨owner, ownerActive, named, _⟩ | ⟨owner, ownerRecent, named, _⟩
    · have := (valid.active owner ownerActive).idBelow
      omega
    · have := valid.recentIdBelow owner ownerRecent
      omega
  · have same : next.Old = manager.Old := by
      funext version
      simp only [TransactionManager.Old, Ledger.Old, readers, nextActive,
        nextStart, List.map_append, mem_append, List.map_cons, List.map_nil,
        mem_singleton, eq_iff_iff]
      constructor
      · rintro ⟨_, readers⟩
        have own : version < transaction.startTime := readers transaction.reader (.inr rfl)
        exact ⟨by omega, fun reader member => readers reader (.inl member)⟩
      rintro ⟨below, readers⟩
      refine ⟨by omega, ?_⟩
      rintro reader (old | new)
      · exact readers reader old
      · subst reader
        show version < transaction.startTime
        omega
    rw [same]
    exact tracked.linked

section Retire

variable {next : TransactionManager}

theorem remaining_active (active : next.activeTransactions = manager.others transaction) :
    ∀ other ∈ next.activeTransactions, other ∈ manager.activeTransactions := by
  intro other inside
  rw [active] at inside
  exact (mem_others.mp inside).1

theorem old_grows (active : ∀ other ∈ next.activeTransactions, other ∈ manager.activeTransactions)
    (now : manager.currentStartTimestamp ≤ next.currentStartTimestamp) :
    ∀ version, manager.Old version → next.Old version := by
  intro version old
  refine ⟨lt_of_lt_of_le old.1 now, ?_⟩
  intro reader member
  obtain ⟨other, otherMember, same⟩ := mem_map.mp member
  subst reader
  exact old.2 _ (mem_readers (active other otherMember))

variable (tracked : Tracked manager base writes node) (valid : manager.Valid)
include tracked valid

section

variable (room : manager.Room) (member : transaction ∈ manager.activeTransactions)
include room member

section

variable (active : next.activeTransactions = manager.others transaction)
  (now : manager.currentStartTimestamp ≤ next.currentStartTimestamp)
  (closed : ∀ row, (newWrites row).Pairwise fun newer earlier => next.Old newer.1 → next.Old earlier.1)
include active now closed

theorem rollback (recent : next.recentlyCommittedTransactions = manager.recentlyCommittedTransactions)
    (peeled : ∀ row, Peels transaction.transactionId (writes row) (newWrites row)) :
    Tracked next base newWrites (rollbackNode transaction.transactionId node) := by
  have labelled := tracked.labelled valid room member
  have remaining := remaining_active active
  obtain ⟨sound, nextEq, currentEq⟩ := tracked.sound.rollbackNode labelled base
  refine ⟨sound, ?_, ?_, ?_⟩
  · intro info inside
    rw [nextEq] at inside
    obtain ⟨old, notOwn⟩ := List.mem_filter.mp inside
    rcases tracked.stamped info old with ⟨owner, ownerActive, owns, version⟩ | committed
    · refine .inl ⟨owner, ?_, owns, version⟩
      rw [active, mem_others]
      exact ⟨ownerActive, owns ▸ by simpa using notOwn⟩
    · rw [Stamped, recent]
      exact .inr committed
  · rw [nextEq]
    refine (tracked.ordered.sublist List.filter_sublist).imp ?_
    exact fun before other inside => before other (remaining other inside)
  · intro row
    rw [nextEq, mentions_filter labelled, currentEq row]
    exact ((tracked.linked row).undo (valid.not_old member) (peeled row)).mono (old_grows remaining now) (closed row)

theorem commit (committed : Transaction) (same : committed.transactionId = transaction.transactionId)
    (drawn : committed.commitId = manager.currentStartTimestamp)
    (recent : next.recentlyCommittedTransactions = manager.recentlyCommittedTransactions ++ [committed])
    (relabelled : ∀ row, newWrites row = (writes row).map fun write =>
      (if write.1 = transaction.transactionId then committed.commitId else write.1, write.2)) :
    Tracked next base newWrites (commitNode transaction.transactionId committed.commitId node) := by
  have labelled := tracked.labelled valid room member
  have sound := tracked.sound
  have remaining := remaining_active active
  refine ⟨sound.commitNode, ?_, ?_, ?_⟩
  · intro info inside
    obtain ⟨old, oldMember, relabel⟩ := mem_map.mp inside
    by_cases own : old.transaction = transaction.transactionId
    · rw [if_pos own] at relabel
      subst info
      refine .inr ⟨committed, ?_, same.trans own.symm, rfl⟩
      rw [recent]
      simp
    rw [if_neg own] at relabel
    subst info
    rcases tracked.stamped old oldMember with ⟨owner, ownerActive, owns, version⟩ | ⟨owner, ownerRecent, owns, version⟩
    · refine .inl ⟨owner, ?_, owns, version⟩
      rw [active, mem_others]
      exact ⟨ownerActive, owns ▸ own⟩
    · refine .inr ⟨owner, ?_, owns, version⟩
      rw [recent]
      exact List.mem_append_left _ ownerRecent
  · refine pairwise_map.mpr (tracked.ordered.imp ?_)
    intro newer earlier before other inside owns
    have started := (valid.active other (remaining other inside)).startBelow
    have earlierOwner : earlier.transaction = other.transactionId := by
      split at owns <;> exact owns
    split
    · show other.startTime < committed.commitId
      omega
    · exact before other (remaining other inside) earlierOwner
  · intro row
    rw [relabelled row, mentions_commitNode labelled]
    have linked : Linked manager.Old (base row) (node.current base row) ((mentions node.next row).map fun entry =>
          (if entry.1 = transaction.transactionId then committed.commitId else entry.1, entry.2))
        ((writes row).map fun write =>
          (if write.1 = transaction.transactionId then committed.commitId else write.1, write.2)) := by
      refine (tracked.linked row).relabel (fun version =>
        if version = transaction.transactionId then committed.commitId else version) ?_ ?_
      · intro version old
        have differs : version ≠ transaction.transactionId := by
          intro own
          subst version
          exact valid.not_old member old
        exact if_neg differs
      · intro version fresh old
        split at old
        · have := old.1
          omega
        · exact fresh old
    refine linked.mono (old_grows remaining now) ?_
    rw [← relabelled row]
    exact closed row

end

end

theorem cleanup :
    Tracked manager.collect base writes { node with
      next := node.next.filter fun info =>
        !(manager.cleaned.map Transaction.transactionId).contains info.transaction } := by
  have sound := tracked.sound
  have removed : ∀ info ∈ node.next, info.transaction ∈ manager.cleaned.map Transaction.transactionId →
      manager.Old info.versionNumber := by
    intro info inside named
    obtain ⟨old, oldMember, same⟩ := mem_map.mp named
    obtain ⟨oldRecent, earlier⟩ := cleaned_spec oldMember
    rcases tracked.stamped info inside with ⟨owner, ownerActive, owns, _⟩ | ⟨owner, ownerRecent, owns, version⟩
    · exact absurd (same.trans owns.symm) (valid.recent_ne_active oldRecent ownerActive)
    have equal := valid.eq_of_recent ownerRecent oldRecent (owns.trans same.symm)
    rw [version, equal]
    refine ⟨valid.recentBelow old oldRecent, ?_⟩
    intro reader member
    obtain ⟨other, otherMember, readerEq⟩ := mem_map.mp member
    subst reader
    exact earlier other otherMember
  refine ⟨⟨sound.baseVersion, sound.baseSorted, sound.baseBounded, ?_, ?_, ?_⟩, ?_, ?_, ?_⟩
  · exact fun info inside => sound.sorted info (List.mem_of_mem_filter inside)
  · exact fun info inside => sound.covered info (List.mem_of_mem_filter inside)
  · exact sound.owners.sublist (List.filter_sublist.map _)
  · intro info inside
    obtain ⟨old, kept⟩ := List.mem_filter.mp inside
    rcases tracked.stamped info old with stillActive | ⟨owner, ownerRecent, owns, version⟩
    · exact .inl stillActive
    refine .inr ⟨owner, ?_, owns, version⟩
    rw [← manager.recent_split] at ownerRecent
    rcases mem_append.mp ownerRecent with gone | stays
    · rw [Bool.not_eq_true', List.contains_eq_mem, decide_eq_false_iff_not, ← owns] at kept
      exact absurd (mem_map_of_mem gone) kept
    · exact stays
  · exact tracked.ordered.sublist List.filter_sublist
  · intro row
    refine (tracked.linked row).filter ?_
    intro info inside dropped node mentioned
    obtain ⟨_, _, same⟩ := map_eq_some_iff.mp mentioned
    subst node
    refine removed info inside ?_
    simpa using dropped

end Retire

end Tracked

end GuinsooDB
