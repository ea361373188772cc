import Mathlib.Data.List.TakeWhile
import Mathlib.Data.List.Basic

/-!
Key/value arrays kept strictly ascending by key, with the skipping and merging
loops that run over them and the lookup theorems of those loops.
-/

namespace SortedEntries

open List Option

variable {V : Type*}

def Ascending (entries : List (Nat × V)) : Prop :=
  entries.Pairwise fun first second => first.1 < second.1

def takeBelow (bound : Nat) (entries : List (Nat × V)) : List (Nat × V) :=
  entries.takeWhile fun entry => decide (entry.1 < bound)

def dropBelow (bound : Nat) (entries : List (Nat × V)) : List (Nat × V) :=
  entries.dropWhile fun entry => decide (entry.1 < bound)

def keys (entries : List (Nat × V)) : List Nat := entries.map Prod.fst

variable {entry : Nat × V}

theorem ascending_cons {rest : List (Nat × V)} :
    Ascending (entry :: rest) ↔ (∀ other ∈ rest, entry.1 < other.1) ∧ Ascending rest :=
  pairwise_cons

variable {entries : List (Nat × V)}

theorem Ascending.dropBelow (sorted : Ascending entries) (bound : Nat) : Ascending (dropBelow bound entries) :=
  sorted.sublist (dropWhile_sublist _)

theorem Ascending.takeBelow (sorted : Ascending entries) (bound : Nat) : Ascending (takeBelow bound entries) :=
  sorted.sublist (takeWhile_sublist _)

theorem takeBelow_append_dropBelow (bound : Nat) (entries : List (Nat × V)) :
    takeBelow bound entries ++ dropBelow bound entries = entries :=
  takeWhile_append_dropWhile

variable {bound : Nat}

theorem mem_takeBelow_lt (member : entry ∈ takeBelow bound entries) : entry.1 < bound := by
  simpa using mem_takeWhile_imp member

theorem mem_dropBelow_le (sorted : Ascending entries) (member : entry ∈ dropBelow bound entries) : bound ≤ entry.1 := by
  induction entries with
  | nil => simp [dropBelow] at member
  | cons first rest ih =>
    obtain ⟨smallest, tailSorted⟩ := ascending_cons.mp sorted
    by_cases skipped : first.1 < bound
    · have tailMember : entry ∈ dropBelow bound rest := by
        simpa [dropBelow, skipped] using member
      exact ih tailSorted tailMember
    have kept : entry ∈ first :: rest := by
      simpa [dropBelow, skipped] using member
    rcases mem_cons.mp kept with same | later
    · subst entry
      omega
    · have := smallest entry later
      omega

variable {key : Nat}

theorem lookup_none_of_ne (absent : ∀ entry ∈ entries, entry.1 ≠ key) : entries.lookup key = none :=
  lookup_eq_none_iff.mpr fun entry member => by simpa using Ne.symm (absent entry member)

theorem lookup_none_of_le (small : key ≤ bound)
    (above : ∀ entry ∈ entries, bound < entry.1) : entries.lookup key = none := by
  apply lookup_none_of_ne
  intro entry member
  have := above entry member
  omega

theorem lookup_isSome_iff : (entries.lookup key).isSome ↔ key ∈ keys entries := by
  induction entries with
  | nil => simp [keys]
  | cons first rest ih =>
    rw [lookup_cons]
    by_cases same : key = first.1
    · simp [keys, same]
    · have differs : (key == first.1) = false := by simpa using same
      rw [differs, ih]
      simp [keys, same]

theorem lookup_none_iff : entries.lookup key = none ↔ key ∉ keys entries := by
  rw [← lookup_isSome_iff, not_isSome_iff_eq_none]

theorem lookup_takeBelow (sorted : Ascending entries) (bound key : Nat) :
    (takeBelow bound entries).lookup key = if key < bound then entries.lookup key else none := by
  split
  next small =>
    conv_rhs => rw [← takeBelow_append_dropBelow bound entries, lookup_append]
    have absent : (dropBelow bound entries).lookup key = none := by
      apply lookup_none_of_ne
      intro entry member
      have := mem_dropBelow_le sorted member
      omega
    rw [absent, or_none]
  next large =>
    apply lookup_none_of_ne
    intro entry member
    have := mem_takeBelow_lt member
    omega

theorem lookup_dropBelow (sorted : Ascending entries) (bound key : Nat) :
    (dropBelow bound entries).lookup key = if key < bound then none else entries.lookup key := by
  split
  next small =>
    apply lookup_none_of_ne
    intro entry member
    have := mem_dropBelow_le sorted member
    omega
  rename_i large
  conv_rhs => rw [← takeBelow_append_dropBelow bound entries, lookup_append]
  have absent : (takeBelow bound entries).lookup key = none := by
    apply lookup_none_of_ne
    intro entry member
    have := mem_takeBelow_lt member
    omega
  rw [absent, none_or]

def headAt (key : Nat) : List (Nat × V) → Option V
  | [] => none
  | entry :: _ => if entry.1 = key then some entry.2 else none

section

variable (sorted : Ascending entries)
include sorted

theorem headAt_dropBelow (key : Nat) : headAt key (dropBelow key entries) = entries.lookup key := by
  have searched := lookup_dropBelow sorted key key
  rw [if_neg (lt_irrefl key)] at searched
  rw [← searched]
  have tailSorted := sorted.dropBelow key
  cases remaining : dropBelow key entries with
  | nil => rfl
  | cons first rest =>
    rw [remaining] at tailSorted
    rw [headAt, lookup_cons]
    by_cases same : first.1 = key
    · simp [same]
    · have differs : (key == first.1) = false := by simpa using Ne.symm same
      have lower : key ≤ first.1 := mem_dropBelow_le sorted (by simp [remaining])
      rw [if_neg same, differs]
      exact (lookup_none_of_le lower (ascending_cons.mp tailSorted).1).symm

theorem dropBelow_of_mem (member : key ∈ keys entries) :
    ∃ value rest, dropBelow key entries = (key, value) :: rest := by
  have present := lookup_isSome_iff.mpr member
  rw [← headAt_dropBelow sorted key] at present
  cases remaining : dropBelow key entries with
  | nil => simp [remaining, headAt] at present
  | cons first rest =>
    have same : first.1 = key := by
      by_contra differs
      simp [remaining, headAt, differs] at present
    exact ⟨first.2, rest, by rw [← same]⟩

theorem ascending_length_le {lower upper : Nat} (above : ∀ entry ∈ entries, lower ≤ entry.1)
    (below : ∀ entry ∈ entries, entry.1 < upper) : entries.length ≤ upper - lower := by
  induction entries generalizing lower with
  | nil => simp
  | cons first rest ih =>
    obtain ⟨smallest, restSorted⟩ := ascending_cons.mp sorted
    have restLength : rest.length ≤ upper - (first.1 + 1) := ih restSorted smallest
      fun entry member => below entry (mem_cons_of_mem _ member)
    have firstLower := above first mem_cons_self
    have firstUpper := below first mem_cons_self
    rw [length_cons]
    omega

theorem lookup_eq_getElem_from {start : Nat} (above : ∀ entry ∈ entries, start ≤ entry.1)
    (below : ∀ entry ∈ entries, entry.1 < start + entries.length) (offset : Nat) :
    entries.lookup (start + offset) = entries[offset]?.map Prod.snd := by
  induction entries generalizing start offset with
  | nil => simp
  | cons first rest ih =>
    obtain ⟨smallest, restSorted⟩ := ascending_cons.mp sorted
    have restBelow : ∀ entry ∈ rest, entry.1 < start + 1 + rest.length := by
      intro entry member
      have := below entry (mem_cons_of_mem _ member)
      rw [length_cons] at this
      omega
    have restLength := ascending_length_le restSorted smallest restBelow
    have firstLower := above first mem_cons_self
    have firstUpper := below first mem_cons_self
    rw [length_cons] at firstUpper
    have firstKey : first.1 = start := by omega
    rw [lookup_cons, firstKey]
    cases offset with
    | zero => simp
    | succ offset =>
      have differs : (start + (offset + 1) == start) = false := by simp
      have shifted : start + (offset + 1) = start + 1 + offset := by omega
      rw [differs, shifted, getElem?_cons_succ]
      exact ih restSorted (fun entry member => by
        have := smallest entry member
        omega) restBelow offset

theorem lookup_eq_getElem (bounded : ∀ entry ∈ entries, entry.1 < entries.length) (key : Nat) :
    entries.lookup key = entries[key]?.map Prod.snd := by
  have indexed : entries.lookup (0 + key) = entries[key]?.map Prod.snd :=
    lookup_eq_getElem_from sorted (by simp) (by simpa using bounded) key
  rwa [Nat.zero_add] at indexed

end

/-- Merge sorted entries into older ones. A key of both sides is resolved with its new
and its old value, a new key with no old value. -/
def mergeWith {A : Type*} (resolve : Nat → A → Option V → V) :
    List (Nat × A) → List (Nat × V) → List (Nat × V)
  | [], old => old
  | (key, value) :: rest, old =>
    takeBelow key old ++ (key, resolve key value (headAt key (dropBelow key old))) ::
      mergeWith resolve rest (dropBelow (key + 1) old)

section Merge

variable {A : Type*} {resolve : Nat → A → Option V → V} {entries : List (Nat × A)}
  {old : List (Nat × V)}

theorem mergeWith_lower (newBound : ∀ entry ∈ entries, bound ≤ entry.1) (oldBound : ∀ entry ∈ old, bound ≤ entry.1) :
    ∀ entry ∈ mergeWith resolve entries old, bound ≤ entry.1 := by
  induction entries generalizing old with
  | nil => simpa [mergeWith] using oldBound
  | cons first rest ih =>
    intro entry member
    simp only [mergeWith, mem_append, mem_cons] at member
    rcases member with early | same | later
    · exact oldBound entry (takeWhile_subset _ early)
    · subst entry
      exact newBound first (by simp)
    · exact ih (fun other inside => newBound other (by simp [inside]))
        (fun other inside => oldBound other (dropWhile_subset _ inside)) entry later

variable (newSorted : Ascending entries) (oldSorted : Ascending old)
include newSorted oldSorted

theorem mergeWith_ascending : Ascending (mergeWith resolve entries old) := by
  induction entries generalizing old with
  | nil => exact oldSorted
  | cons first rest ih =>
    obtain ⟨smallest, restSorted⟩ := ascending_cons.mp newSorted
    have tailSorted := ih restSorted (oldSorted.dropBelow (first.1 + 1))
    have tailBound : ∀ entry ∈ mergeWith resolve rest (dropBelow (first.1 + 1) old), first.1 + 1 ≤ entry.1 :=
      mergeWith_lower (fun entry inside => smallest entry inside)
        (fun entry inside => mem_dropBelow_le oldSorted inside)
    refine pairwise_append.mpr ⟨oldSorted.takeBelow first.1, ?_, ?_⟩
    · exact ascending_cons.mpr ⟨fun entry member => tailBound entry member, tailSorted⟩
    intro early earlyMember late lateMember
    have earlyBound := mem_takeBelow_lt earlyMember
    rcases mem_cons.mp lateMember with same | later
    · subst late
      exact earlyBound
    · have := tailBound late later
      omega

theorem lookup_mergeWith (key : Nat) : (mergeWith resolve entries old).lookup key = match entries.lookup key with
      | some value => some (resolve key value (old.lookup key))
      | none => old.lookup key := by
  induction entries generalizing old with
  | nil => rfl
  | cons first rest ih =>
    obtain ⟨smallest, restSorted⟩ := ascending_cons.mp newSorted
    have tail := ih restSorted (oldSorted.dropBelow (first.1 + 1))
    rw [lookup_dropBelow oldSorted] at tail
    rw [mergeWith, lookup_append, lookup_takeBelow oldSorted, lookup_cons, lookup_cons]
    rcases lt_trichotomy key first.1 with small | same | large
    · have absent : rest.lookup key = none := lookup_none_of_le (le_of_lt small) smallest
      have differs : (key == first.1) = false := by simp; omega
      have belowNext : key < first.1 + 1 := by omega
      simp only [absent, belowNext, if_true] at tail
      simp only [small, differs, absent, tail, if_true, or_none]
    · subst key
      simp [headAt_dropBelow oldSorted]
    · have differs : (key == first.1) = false := by simp; omega
      have notSmall : ¬key < first.1 := by omega
      have notBelow : ¬key < first.1 + 1 := by omega
      simp only [notBelow, if_false] at tail
      simp only [notSmall, differs, tail, if_false, none_or]

theorem keys_mergeWith (key : Nat) :
    key ∈ keys (mergeWith resolve entries old) ↔ key ∈ keys entries ∨ key ∈ keys old := by
  rw [← lookup_isSome_iff, lookup_mergeWith newSorted oldSorted, ← lookup_isSome_iff, ← lookup_isSome_iff]
  cases entries.lookup key <;> simp

end Merge

end SortedEntries
