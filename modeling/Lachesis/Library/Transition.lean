import Mathlib

/-!
Runs of a machine whose steps are chosen from outside: `step s a` is the state after the
action `a`, if `a` can happen in `s`. A run may be asked to meet a condition at each step.
-/

namespace Transition

variable {State Action : Type} (step : State → Action → Option State)

/-- A run from a state to another, each step of which meets `cond` beforehand. -/
inductive Run (cond : State → Action → Prop) : State → List Action → State → Prop where
  | nil (s : State) : Run cond s [] s
  | cons {s t u : State} {a : Action} {rest : List Action} (meets : cond s a)
      (first : step s a = some t) (later : Run cond t rest u) : Run cond s (a :: rest) u

variable {step} {cond : State → Action → Prop}

theorem Run.append {s t u : State} {left right : List Action} (first : Run step cond s left t)
    (second : Run step cond t right u) : Run step cond s (left ++ right) u := by
  induction first with
  | nil => exact second
  | cons meets move _ ih => exact .cons meets move (ih second)

theorem Run.snoc {s t u : State} {a : Action} {before : List Action}
    (run : Run step cond s before t) (meets : cond t a) (last : step t a = some u) :
    Run step cond s (before ++ [a]) u :=
  run.append (.cons meets last (.nil u))

theorem Run.restrict {P : Action → Prop} {s t : State} {actions : List Action}
    (run : Run step cond s actions t) (meets : ∀ a ∈ actions, P a) :
    Run step (fun _ a => P a) s actions t := by
  induction run with
  | nil s => exact .nil s
  | cons _ move _ ih =>
    exact .cons (meets _ List.mem_cons_self) move
      (ih fun a later => meets a (List.mem_cons_of_mem _ later))

theorem Run.of_foldlM {s t : State} {actions : List Action}
    (meets : ∀ a ∈ actions, ∀ s, cond s a) (run : actions.foldlM step s = some t) :
    Run step cond s actions t := by
  induction actions generalizing s with
  | nil =>
    cases run
    exact .nil _
  | cons a rest ih =>
    rw [List.foldlM_cons] at run
    obtain ⟨m, first, later⟩ := Option.bind_eq_some_iff.mp run
    exact .cons (meets a List.mem_cons_self s) first
      (ih (fun b member => meets b (List.mem_cons_of_mem a member)) later)

/-- What every step preserves, a run preserves. -/
theorem Run.invariant {Inv : State → Prop}
    (keeps : ∀ s a t, Inv s → cond s a → step s a = some t → Inv t) {s t : State}
    {actions : List Action} (holds : Inv s) (run : Run step cond s actions t) : Inv t := by
  induction run with
  | nil => exact holds
  | cons meets move _ ih => exact ih (keeps _ _ _ holds meets move)

section Emitted

variable (step) {Output : Type} (emit : State → Action → List Output)

/-- What the steps of a run put out, each in the state it starts from. -/
def emitted : State → List Action → List Output
  | _, [] => []
  | s, a :: rest => emit s a ++
      match step s a with
      | some t => emitted t rest
      | none => []

variable {step emit}

/-- An invariant of the state together with all that was put out so far. -/
theorem Run.emits {Inv : State → List Output → Prop}
    (keeps : ∀ s a t out, Inv s out → cond s a → step s a = some t → Inv t (out ++ emit s a))
    {s t : State} {actions : List Action} {out : List Output} (holds : Inv s out)
    (run : Run step cond s actions t) : Inv t (out ++ emitted step emit s actions) := by
  induction run generalizing out with
  | nil => rwa [emitted, List.append_nil]
  | cons meets move _ ih =>
    rw [emitted, move, ← List.append_assoc]
    exact ih (keeps _ _ _ _ holds meets move)

end Emitted

end Transition
