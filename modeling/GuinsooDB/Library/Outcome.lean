import Mathlib.Data.List.Forall2
import Mathlib.Logic.Function.Basic

/-!
Computations that may fail: what holds of the value they return, and when they do return one.
-/

namespace Outcome

open List Function

variable {Error Value Result Item : Type} {fits : Prop}

def Yields (fits : Prop) (post : Value → Prop) : Except Error Value → Prop
  | .ok value => post value
  | .error _ => ¬fits

theorem Yields.bind {first : Except Error Value} {next : Value → Except Error Result}
    {middle : Value → Prop} {post : Result → Prop} (yields : Yields fits middle first)
    (then' : ∀ value, middle value → Yields fits post (next value)) :
    Yields fits post (first >>= next) := by
  cases first with
  | error message => exact yields
  | ok value => exact then' value yields

variable {post : Value → Prop} {outcome : Except Error Value}

theorem Yields.mono {weaker : Value → Prop} (yields : Yields fits post outcome)
    (implies : ∀ value, post value → weaker value) : Yields fits weaker outcome := by
  cases outcome with
  | error message => exact yields
  | ok value => exact implies value yields

theorem Yields.any (impossible : ¬fits) (outcome : Except Error Value) : Yields fits (fun _ => True) outcome := by
  cases outcome with
  | error message => exact impossible
  | ok value => trivial

theorem Yields.value {value : Value} (yields : Yields fits post outcome)
    (returned : outcome = .ok value) : post value := by
  subst returned
  exact yields

theorem Yields.exists (yields : Yields fits post outcome) (fit : fits) : ∃ value, outcome = .ok value := by
  cases outcome with
  | error message => exact absurd fit yields
  | ok value => exact ⟨value, rfl⟩

theorem Yields.foldlM {step : Value → Item → Except Error Value}
    {invariant : List Item → Value → Prop} {list : List Item}
    (steps : ∀ done item rest value, list = done ++ item :: rest → invariant done value →
      Yields fits (invariant (done ++ [item])) (step value item)) {value : Value}
    (initially : invariant [] value) : Yields fits (invariant list) (list.foldlM step value) := by
  suffices later : ∀ rest done value, list = done ++ rest → invariant done value →
      Yields fits (invariant list) (rest.foldlM step value) from later list [] value rfl initially
  intro rest
  induction rest with
  | nil =>
    intro done value split given
    rw [append_nil] at split
    exact split ▸ given
  | cons item rest ih =>
    intro done value split given
    refine (steps done item rest value split given).bind fun next holds => ?_
    exact ih (done ++ [item]) next (by rw [split, append_cons]) holds

theorem Yields.mapM {step : Item → Except Error Value} {related : Item → Value → Prop}
    {list : List Item} (steps : ∀ item ∈ list, Yields fits (related item) (step item)) :
    Yields fits (List.Forall₂ related list) (list.mapM step) := by
  induction list with
  | nil => exact List.Forall₂.nil
  | cons item rest ih =>
    rw [mapM_cons]
    refine (steps item mem_cons_self).bind fun value holds => ?_
    refine (ih fun other listed => steps other (mem_cons_of_mem _ listed)).bind fun values others => ?_
    exact List.Forall₂.cons holds others

theorem Yields.updateEach {step : Nat → Value → Except Error Value} {post : Nat → Value → Prop}
    {values : Nat → Value} {count : Nat}
    (steps : ∀ index < count, Yields fits (post index) (step index (values index))) :
    Yields fits (fun final => ∀ index, (index < count → post index (final index)) ∧
        (count ≤ index → final index = values index))
      ((List.range count).foldlM (fun current index => do
        let value ← step index (current index)
        return update current index value) values) := by
  induction count with
  | zero => exact fun index => ⟨fun below => absurd below (Nat.not_lt_zero index), fun _ => rfl⟩
  | succ count ih =>
    rw [range_succ, foldlM_append]
    refine (ih fun index below => steps index (Nat.lt_succ_of_lt below)).bind fun before given => ?_
    rw [foldlM_cons, (given count).2 (Nat.le_refl count)]
    refine Yields.bind ((steps count (Nat.lt_succ_self count)).bind fun value holds => ?_) fun final same => same
    intro index
    by_cases here : index = count
    · subst index
      rw [update_self]
      exact ⟨fun _ => holds, fun above => absurd above (Nat.not_succ_le_self count)⟩
    · rw [update_of_ne here]
      exact ⟨fun below => (given index).1 (by omega), fun above => (given index).2 (by omega)⟩

end Outcome
