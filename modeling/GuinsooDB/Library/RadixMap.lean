import Mathlib.Data.List.Basic
import Mathlib.Logic.Function.Basic

/-!
Maps from words that branch after a shared prefix, as the inner nodes of a radix tree do. A
subtree is a map from what is left of a word.
-/

namespace RadixMap

open Function List

variable {Symbol Value : Type*}

def Apart (first second : List Symbol) : Prop := ¬ first <+: second ∧ ¬ second <+: first

theorem Apart.append_iff (shared first second : List Symbol) :
    Apart (shared ++ first) (shared ++ second) ↔ Apart first second := by
  simp [Apart, prefix_append_right_inj]

variable [DecidableEq Symbol]

def strip : List Symbol → List Symbol → Option (List Symbol)
  | [], word => some word
  | _ :: _, [] => none
  | symbol :: shared, first :: word => if symbol = first then strip shared word else none

theorem strip_eq_some {shared word rest : List Symbol} : strip shared word = some rest ↔ word = shared ++ rest := by
  induction shared generalizing word with
  | nil => simp [strip]
  | cons symbol shared ih =>
    cases word with
    | nil => simp [strip]
    | cons first word =>
      by_cases same : symbol = first
      · simp [strip, same, ih]
      · simp [strip, same, Ne.symm same]

abbrev nothing (empty : Value) : List Symbol → Value := fun _ => empty

def branch (empty : Value) (shared : List Symbol) (parts : Symbol → List Symbol → Value)
    (word : List Symbol) : Value :=
  match strip shared word with
  | some (symbol :: rest) => parts symbol rest
  | _ => empty

variable {empty : Value} {shared : List Symbol} {parts : Symbol → List Symbol → Value} {word : List Symbol}

@[simp] theorem branch_append (symbol : Symbol) (rest : List Symbol) :
    branch empty shared parts (shared ++ symbol :: rest) = parts symbol rest := by
  rw [branch, (strip_eq_some).mpr rfl]

theorem branch_elsewhere (elsewhere : ∀ symbol rest, word ≠ shared ++ symbol :: rest) :
    branch empty shared parts word = empty := by
  rw [branch]
  split
  next symbol rest found =>
    exact absurd ((strip_eq_some).mp found) (elsewhere symbol rest)
  · rfl

theorem eq_branch {map : List Symbol → Value}
    (behind : ∀ symbol rest, map (shared ++ symbol :: rest) = parts symbol rest)
    (elsewhere : ∀ word, (∀ symbol rest, word ≠ shared ++ symbol :: rest) → map word = empty) :
    map = branch empty shared parts := by
  funext word
  by_cases there : ∃ symbol rest, word = shared ++ symbol :: rest
  · obtain ⟨symbol, rest, rfl⟩ := there
    rw [behind, branch_append]
  · have outside : ∀ symbol rest, word ≠ shared ++ symbol :: rest := by
      intro symbol rest same
      exact there ⟨symbol, rest, same⟩
    rw [elsewhere word outside, branch_elsewhere outside]

theorem branch_ne_empty (present : branch empty shared parts word ≠ empty) :
    ∃ symbol rest, word = shared ++ symbol :: rest ∧ parts symbol rest ≠ empty := by
  by_cases there : ∃ symbol rest, word = shared ++ symbol :: rest
  · obtain ⟨symbol, rest, rfl⟩ := there
    rw [branch_append] at present
    exact ⟨symbol, rest, rfl, present⟩
  · refine absurd (branch_elsewhere fun symbol rest same => ?_) present
    exact there ⟨symbol, rest, same⟩

theorem update_branch (symbol : Symbol) (rest : List Symbol) (value : Value) :
    update (branch empty shared parts) (shared ++ symbol :: rest) value =
      branch empty shared (update parts symbol (update (parts symbol) rest value)) := by
  refine eq_branch (fun other word => ?_) fun word outside => ?_
  · by_cases sameSymbol : other = symbol
    · subst other
      by_cases sameWord : word = rest
      · simp [sameWord]
      · simp [sameWord]
    · simp [sameSymbol]
  · rw [update_of_ne (outside symbol rest), branch_elsewhere outside]

theorem branch_split (symbol : Symbol) (left : List Symbol) : branch empty (shared ++ symbol :: left) parts =
      branch empty shared (update (fun _ => nothing empty) symbol (branch empty left parts)) := by
  refine eq_branch (fun other word => ?_) fun word outside => ?_
  · by_cases same : other = symbol
    · subst other
      rw [update_self, branch, branch]
      congr 1
      cases found : strip left word with
      | some rest =>
        rw [(strip_eq_some).mp found, strip_eq_some]
        simp
      | none =>
        cases other : strip (shared ++ symbol :: left) (shared ++ symbol :: word) with
        | none => rfl
        | some rest =>
          have same := (strip_eq_some).mp other
          rw [append_assoc, append_cancel_left_eq, cons_append, cons.injEq] at same
          rw [(strip_eq_some).mpr same.2] at found
          cases found
    · rw [update_of_ne same]
      refine branch_elsewhere fun first rest equal => same ?_
      rw [append_assoc, append_cancel_left_eq, cons_append, cons.injEq] at equal
      exact equal.1
  · refine branch_elsewhere fun first rest equal => outside symbol (left ++ first :: rest) ?_
    simpa using equal

theorem branch_single (symbol : Symbol) (rest : List Symbol) (value : Value) :
    branch empty shared (update (fun _ => nothing empty) symbol (update (nothing empty) rest value)) =
      update (nothing empty) (shared ++ symbol :: rest) value := by
  have updated := @update_branch _ _ _ empty shared (fun _ => nothing empty) symbol rest value
  rw [← eq_branch (fun _ _ => rfl) fun _ _ => rfl] at updated
  exact updated.symm

end RadixMap
