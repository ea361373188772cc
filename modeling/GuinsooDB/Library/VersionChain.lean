import Mathlib.Data.List.Basic

/-!
Chains of versions, newest first, that a reader walks until it meets a version it is
shown. The oldest version is taken without asking.
-/

namespace VersionChain

variable {α β : Type*}

def pick (shown : α → Bool) : List α → Option α
  | [] => none
  | [oldest] => some oldest
  | newest :: next :: older => if shown newest then some newest else pick shown (next :: older)

theorem pick_mem {shown : α → Bool} {chain : List α} {version : α}
    (picked : pick shown chain = some version) : version ∈ chain := by
  induction chain with
  | nil => cases picked
  | cons newest older ih =>
    cases older with
    | nil =>
      cases picked
      exact List.mem_cons_self
    | cons next older =>
      rw [pick] at picked
      split at picked
      · cases picked
        exact List.mem_cons_self
      · exact List.mem_cons_of_mem _ (ih picked)

end VersionChain
