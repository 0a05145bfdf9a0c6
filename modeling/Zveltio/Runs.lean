import Mathlib.Logic.Function.Basic
namespace Zveltio.Runs

section
variable {σ : Type u} {α : Type v} {step : σ → α → Option σ} {permitted : σ → α → Prop}

-- A system is a partial step function: none where the action cannot happen.
def run (step : σ → α → Option σ) (before : σ) : List α → Option σ
  | [] => some before
  | action::rest => (step before action).bind fun next => run step next rest

-- A guard looks at the state before the step and at the action, never after.
def Guarded (step : σ → α → Option σ) (permitted : σ → α → Prop) (before : σ) : List α → Prop
  | [] => True
  | action::rest => permitted before action ∧
      ∀ next, step before action = some next → Guarded step permitted next rest

def Preserved (step : σ → α → Option σ) (permitted : σ → α → Prop) (invariant : σ → Prop) : Prop :=
  ∀ before action after, invariant before → permitted before action →
    step before action = some after → invariant after

@[simp] theorem run_nil : run step before [] = some before := rfl

theorem run_cons : run step before (action::rest) = some after ↔
    ∃ next, step before action = some next ∧ run step next rest = some after := by
  simp [run,Option.bind_eq_some_iff]

theorem run_append : run step before (first ++ second) = some after ↔
    ∃ middle, run step before first = some middle ∧ run step middle second = some after := by
  induction first generalizing before with
  | nil => simp
  | cons action rest ih =>
    simp only [List.cons_append,run_cons,ih]
    constructor
    · rintro ⟨next,one,middle,left,right⟩
      exact ⟨middle,⟨next,one,left⟩,right⟩
    · rintro ⟨middle,⟨next,one,left⟩,right⟩
      exact ⟨next,one,middle,left,right⟩

-- The one induction over runs; every invariant of the development goes through it.
theorem run_preserves (preserved : Preserved step permitted invariant) (initial : invariant before)
    (guarded : Guarded step permitted before actions) (path : run step before actions = some after) :
    invariant after := by
  induction actions generalizing before with
  | nil =>
    cases Option.some.inj path
    exact initial
  | cons action rest ih =>
    obtain ⟨next,one,later⟩ := run_cons.mp path
    exact ih (preserved before action next initial guarded.1 one) (guarded.2 next one) later

theorem guarded_cons (allowed : permitted before action) (moved : step before action = some next)
    (later : Guarded step permitted next rest) : Guarded step permitted before (action::rest) := by
  refine ⟨allowed,fun other same => ?_⟩
  cases Option.some.inj (moved.symm.trans same)
  exact later

theorem guarded_of_always (always : ∀ state action, permitted state action) :
    Guarded step permitted before actions := by
  induction actions generalizing before with
  | nil => trivial
  | cons action rest ih => exact ⟨always before action,fun _ _ => ih⟩

theorem guarded_of_each (each : ∀ action ∈ actions, ∀ state, permitted state action) : Guarded step permitted before actions := by
  induction actions generalizing before with
  | nil => trivial
  | cons action rest ih =>
    exact ⟨each action (List.mem_cons_self ..) before,fun _ _ => ih fun other member => each other (List.mem_cons_of_mem _ member)⟩

theorem guarded_imp (weaker : ∀ state action, permitted state action → other state action)
    (guarded : Guarded step permitted before actions) : Guarded step other before actions := by
  induction actions generalizing before with
  | nil => trivial
  | cons action rest ih => exact ⟨weaker before action guarded.1,fun next moved => ih (guarded.2 next moved)⟩

theorem guarded_and {first second : σ → α → Prop} (left : Guarded step first before actions) (right : Guarded step second before actions) :
    Guarded step (fun state action => first state action ∧ second state action) before actions := by
  induction actions generalizing before with
  | nil => trivial
  | cons action rest ih => exact ⟨⟨left.1,right.1⟩,fun next moved => ih (left.2 next moved) (right.2 next moved)⟩

theorem guarded_append : Guarded step permitted before (first ++ second) ↔
    Guarded step permitted before first ∧
      ∀ middle, run step before first = some middle → Guarded step permitted middle second := by
  induction first generalizing before with
  | nil => simp [Guarded]
  | cons action rest ih =>
    simp only [List.cons_append,Guarded,ih,run_cons]
    constructor
    · rintro ⟨now,later⟩
      refine ⟨⟨now,fun next one => (later next one).1⟩,?_⟩
      rintro middle ⟨next,one,left⟩
      exact (later next one).2 middle left
    · rintro ⟨⟨now,later⟩,tail⟩
      exact ⟨now,fun next one => ⟨later next one,fun middle left => tail middle ⟨next,one,left⟩⟩⟩

theorem guarded_of_kept {holds : σ → Prop} (kept : σ → Prop) (keeps : ∀ before action after, kept before → step before action = some after → kept after)
    (shown : ∀ before action after, kept before → step before action = some after → holds after → permitted before action)
    (initial : kept before) (path : run step before actions = some after)
    (reached : ∀ first rest, actions = first ++ rest → ∀ state, run step before first = some state → holds state) :
    Guarded step permitted before actions := by
  induction actions generalizing before with
  | nil => trivial
  | cons action rest ih =>
    obtain ⟨next,one,later⟩ := run_cons.mp path
    have now := reached [action] rest rfl next (run_cons.mpr ⟨next,one,rfl⟩)
    refine guarded_cons (shown before action next initial one now) one (ih (keeps before action next initial one) later ?_)
    rintro first last rfl state there
    exact reached (action::first) last rfl state (run_cons.mpr ⟨next,one,there⟩)

theorem guarded_of_reached {holds : σ → Prop}
    (shown : ∀ before action after, step before action = some after → holds after → permitted before action)
    (path : run step before actions = some after)
    (reached : ∀ first rest, actions = first ++ rest → ∀ state, run step before first = some state → holds state) :
    Guarded step permitted before actions :=
  guarded_of_kept (fun _ => True) (fun _ _ _ _ _ => trivial) (fun before action after _ moved good => shown before action after moved good) trivial path reached

-- Two actions that come to the same in either order.
def Commute (step : σ → α → Option σ) (one other : α) : Prop :=
  ∀ state, (step state one).bind (step · other) = (step state other).bind (step · one)

theorem run_cons_bind : run step before (action::rest) = (step before action).bind fun next => run step next rest := rfl

theorem run_append_bind : run step before (first ++ second) = (run step before first).bind fun middle => run step middle second := by
  induction first generalizing before with
  | nil => rfl
  | cons action rest ih => simp only [List.cons_append,run_cons_bind,ih,Option.bind_assoc]

theorem run_move (commute : ∀ other ∈ passed, Commute step other action) :
    run step before (passed ++ action::rest) = run step before (action::(passed ++ rest)) := by
  induction passed generalizing before with
  | nil => rfl
  | cons head passed ih =>
    have first := commute head (List.mem_cons_self ..) before
    have later : ∀ next, run step next (passed ++ action::rest) = (step next action).bind fun after => run step after (passed ++ rest) := by
      intro next
      exact ih fun other member => commute other (List.mem_cons_of_mem _ member)
    simp only [List.cons_append,run_cons_bind,later]
    rw [← Option.bind_assoc,first,Option.bind_assoc]

end

-- A total step that answers: the answers are collected in the order of the steps.
section
variable {σ : Type u} {α : Type v} {β : Type w}

def emit (step : σ → α → σ × List β) (before : σ) : List α → σ × List β
  | [] => (before,[])
  | action::rest =>
    let now := step before action
    let later := emit step now.1 rest
    (later.1,now.2 ++ later.2)

end

-- A table of independent states: each action reads and writes the one of its key.
section
variable {κ : Type u} {ρ : Type v} {α : Type w} {β : Type x} [DecidableEq κ]

def keyed (key : α → κ) (step : α → ρ → ρ × β) (state : κ → ρ) (action : α) : (κ → ρ) × List (α × β) :=
  (Function.update state (key action) (step action (state (key action))).1,
    [(action,(step action (state (key action))).2)])

def atKey (key : α → κ) (actions : List α) (here : κ) : List α := actions.filter fun action => key action = here

end

end Zveltio.Runs
