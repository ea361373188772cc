import Mathlib.Data.List.Basic

/-! Runs of a deterministic transition function and the induction rule over them. -/

namespace Transition

open List Option

variable {State Action : Type*}

def run (step : State → Action → State) (state : State) (actions : List Action) : State :=
  actions.foldl step state

@[simp] theorem run_cons (step : State → Action → State) (state : State) (action : Action)
    (rest : List Action) : run step state (action :: rest) = run step (step state action) rest := rfl

/-- Every action of the run is allowed in the state in which it is taken. -/
def Meets (step : State → Action → State) (allowed : State → Action → Prop) :
    State → List Action → Prop
  | _, [] => True
  | state, action :: rest => allowed state action ∧ Meets step allowed (step state action) rest

variable {actions : List Action} {allowed : State → Action → Prop} {invariant : State → Prop}
  {state : State}

theorem run_invariant {step : State → Action → State}
    (preserved : ∀ state action, invariant state → allowed state action →
      invariant (step state action)) (initially : invariant state)
    (meets : Meets step allowed state actions) : invariant (run step state actions) := by
  induction actions generalizing state with
  | nil => exact initially
  | cons action rest ih =>
    exact ih (preserved state action initially meets.1) meets.2

/-! Steps that may have no result -/

def runPartial (step : State → Action → Option State) (state : State) (actions : List Action) :
    Option State :=
  actions.foldlM step state

def MeetsPartial (step : State → Action → Option State) (allowed : State → Action → Prop) :
    State → List Action → Prop
  | _, [] => True
  | state, action :: rest =>
    allowed state action ∧ ∀ next, step state action = some next →
      MeetsPartial step allowed next rest

def checkPartial (step : State → Action → Option State) (check : State → Action → Bool) :
    State → List Action → Bool
  | _, [] => true
  | state, action :: rest =>
    check state action && (step state action).all fun next => checkPartial step check next rest

variable {step : State → Action → Option State}

theorem meetsPartial_of_check {check : State → Action → Bool}
    (sound : ∀ state action, check state action = true → allowed state action)
    (checked : checkPartial step check state actions = true) :
    MeetsPartial step allowed state actions := by
  induction actions generalizing state with
  | nil => trivial
  | cons action rest ih =>
    simp only [checkPartial, Bool.and_eq_true] at checked
    refine ⟨sound state action checked.1, ?_⟩
    intro next stepped
    rw [stepped] at checked
    exact ih checked.2

theorem runPartial_refines {Spec : Type*} {spec : Spec → Action → Spec} {related : State → Spec → Prop}
    (refines : ∀ state abstract action, related state abstract → allowed state action →
      ∃ next, step state action = some next ∧ related next (spec abstract action)) {abstract : Spec}
    (initially : related state abstract) (meets : MeetsPartial step allowed state actions) :
    ∃ final, runPartial step state actions = some final ∧ related final (run spec abstract actions) := by
  induction actions generalizing state abstract with
  | nil => exact ⟨state, rfl, initially⟩
  | cons action rest ih =>
    obtain ⟨next, stepped, holds⟩ := refines state abstract action initially meets.1
    obtain ⟨final, ran, kept⟩ := ih holds (meets.2 next stepped)
    exact ⟨final, by rw [runPartial, foldlM_cons, stepped]; exact ran, kept⟩

theorem runPartial_invariant (preserved : ∀ state action, invariant state → allowed state action →
      ∃ next, step state action = some next ∧ invariant next) (initially : invariant state)
    (meets : MeetsPartial step allowed state actions) :
    ∃ final, runPartial step state actions = some final ∧ invariant final :=
  @runPartial_refines _ _ _ _ _ _ Unit (fun _ _ => ()) (fun state _ => invariant state)
    (fun state _ => preserved state) () initially meets

variable {final : State}

theorem runPartial_keeps (preserved : ∀ state action next, invariant state → allowed state action →
      step state action = some next → invariant next) (initially : invariant state)
    (meets : MeetsPartial step allowed state actions)
    (ran : runPartial step state actions = some final) : invariant final := by
  induction actions generalizing state with
  | nil =>
    cases ran
    exact initially
  | cons action rest ih =>
    obtain ⟨next, stepped, later⟩ := bind_eq_some_iff.mp ran
    exact ih (preserved state action next initially meets.1 stepped) (meets.2 next stepped) later

theorem runPartial_preserves (preserved : ∀ state action next, invariant state → step state action = some next →
      invariant next) (initially : invariant state)
    (ran : runPartial step state actions = some final) : invariant final := by
  have always : ∀ state, MeetsPartial step (fun _ _ => True) state actions := by
    clear ran
    induction actions with
    | nil => exact fun _ => trivial
    | cons action rest ih => exact fun state => ⟨trivial, fun next _ => ih next⟩
  exact runPartial_keeps (fun state action next holds _ => preserved state action next holds)
    initially (always state) ran

theorem runPartial_simulation {Other OtherAction : Type*}
    {other : Other → OtherAction → Option Other} {rename : Action → OtherAction}
    {related : State → Other → Prop}
    (simulates : ∀ state twin action, related state twin → allowed state action →
      ∃ next nextTwin, step state action = some next ∧
        other twin (rename action) = some nextTwin ∧ related next nextTwin) {twin : Other}
    (initially : related state twin) (meets : MeetsPartial step allowed state actions) :
    ∃ final finalTwin, runPartial step state actions = some final ∧
      runPartial other twin (actions.map rename) = some finalTwin ∧ related final finalTwin := by
  induction actions generalizing state twin with
  | nil => exact ⟨state, twin, rfl, rfl, initially⟩
  | cons action rest ih =>
    obtain ⟨next, nextTwin, stepped, twinStepped, holds⟩ := simulates state twin action initially meets.1
    obtain ⟨final, finalTwin, ran, twinRan, kept⟩ := ih holds (meets.2 next stepped)
    refine ⟨final, finalTwin, ?_, ?_, kept⟩
    · rw [runPartial, foldlM_cons, stepped]
      exact ran
    · rw [runPartial, map_cons, foldlM_cons, twinStepped]
      exact twinRan

theorem runPartial_view {View : Type*} {view : State → View} {viewStep : View → Action → View}
    (refines : ∀ state action next, step state action = some next →
      view next = viewStep (view state) action) (ran : runPartial step state actions = some final) :
    view final = run viewStep (view state) actions := by
  induction actions generalizing state with
  | nil =>
    cases ran
    rfl
  | cons action rest ih =>
    obtain ⟨next, stepped, later⟩ := bind_eq_some_iff.mp ran
    rw [run_cons, ih later, refines state action next stepped]

end Transition
