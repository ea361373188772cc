import Mathlib.Data.List.Basic

/-! The logic of TRUE, FALSE and NULL: a value is known by the thresholds that it reaches. -/

namespace ThreeValued

def conj (values : List (Option Bool)) : Option Bool :=
  if some false ∈ values then some false else if none ∈ values then none else some true

def disj (values : List (Option Bool)) : Option Bool :=
  if some true ∈ values then some true else if none ∈ values then none else some false

/-- The value is TRUE, or it is not FALSE. -/
def Reaches (strict : Bool) (value : Option Bool) : Prop :=
  if strict then value = some true else value ≠ some false

variable {strict : Bool} {values : List (Option Bool)}

theorem eq_of_reaches {first second : Option Bool}
    (same : ∀ strict, Reaches strict first ↔ Reaches strict second) : first = second := by
  have sameTrue := same true
  have sameFalse := same false
  simp only [Reaches, if_true, Bool.false_eq_true, if_false] at sameTrue sameFalse
  rcases first with _ | _ | _ <;> rcases second with _ | _ | _ <;> simp_all

@[simp] theorem reaches_conj : Reaches strict (conj values) ↔ ∀ value ∈ values, Reaches strict value := by
  induction values with
  | nil => cases strict <;> simp [Reaches, conj]
  | cons first rest ih =>
    rw [List.forall_mem_cons, ← ih]
    cases strict <;> rcases first with _ | _ | _ <;> simp [Reaches, conj]

@[simp] theorem reaches_disj : Reaches strict (disj values) ↔ ∃ value ∈ values, Reaches strict value := by
  induction values with
  | nil => cases strict <;> simp [Reaches, disj]
  | cons first rest ih =>
    rw [List.exists_mem_cons_iff, ← ih]
    cases strict <;> rcases first with _ | _ | _ <;> simp [Reaches, disj]

end ThreeValued
