import Lachesis.Library.StackWalk

/-!
Two computations over different states, run in lockstep. `Related` says that both fail
alike or both succeed with related results; it goes through `bind` and through the walks
of `StackWalk`, so a program written once over an interface behaves alike over any two
related implementations of it.
-/

namespace Simulation

variable {Fault A B C E S T : Type}

def Related (R : A → B → Prop) : Except Fault A → Except Fault B → Prop
  | .ok a, .ok b => R a b
  | .error fault, .error fault' => fault = fault'
  | _, _ => False

/-- The same value, in related states. -/
def Same (R : S → T → Prop) (left : A × S) (right : A × T) : Prop :=
  left.1 = right.1 ∧ R left.2 right.2

theorem related_refl {R : A → A → Prop} (same : ∀ a, R a a) (x : Except Fault A) :
    Related R x x := by
  cases x with
  | error fault => rfl
  | ok a => exact same a

variable {x : Except Fault A} {y : Except Fault B} {R : A → B → Prop}

theorem related_bind {Q : C → E → Prop} {f : A → Except Fault C} {g : B → Except Fault E}
    (first : Related R x y) (next : ∀ a b, R a b → Related Q (f a) (g b)) :
    Related Q (x >>= f) (y >>= g) := by
  cases x with
  | error fault =>
    cases y with
    | error fault' => exact first
    | ok b => exact first.elim
  | ok a =>
    cases y with
    | error fault => exact first.elim
    | ok b => exact next a b first

theorem related_ok {b : B} (related : Related R x y) (run : y = .ok b) :
    ∃ a, x = .ok a ∧ R a b := by
  subst run
  cases x with
  | error fault => exact related.elim
  | ok a => exact ⟨a, rfl, related⟩

theorem related_error {fault : Fault} (related : Related R x y) (run : y = .error fault) :
    x = .error fault := by
  subst run
  cases x with
  | error fault' => exact congrArg Except.error related
  | ok a => exact related.elim

theorem related_walk {Node : Type} {R : S → T → Prop}
    {visit : S → Node → Except Fault (Option (List Node) × S)}
    {visit' : T → Node → Except Fault (Option (List Node) × T)}
    (visits : ∀ s t x, R s t → Related (Same R) (visit s x) (visit' t x)) (exhausted : Fault) :
    ∀ (fuel : ℕ) (stack : List Node) (s : S) (t : T), R s t →
      Related R (StackWalk.walk visit exhausted fuel stack s)
        (StackWalk.walk visit' exhausted fuel stack t) := by
  intro fuel
  induction fuel with
  | zero =>
    intro stack s t related
    cases stack with
    | nil => exact related
    | cons x stack => rfl
  | succ fuel ih =>
    intro stack s t related
    cases stack with
    | nil => exact related
    | cons x stack =>
      have step := visits s t x related
      simp only [StackWalk.walk]
      cases left : visit s x with
      | error fault =>
        cases right : visit' t x with
        | error fault' => rw [left, right] at step; exact step
        | ok q => rw [left, right] at step; exact step.elim
      | ok p =>
        cases right : visit' t x with
        | error fault => rw [left, right] at step; exact step.elim
        | ok q =>
          rw [left, right] at step
          obtain ⟨next, s'⟩ := p
          obtain ⟨next', t'⟩ := q
          obtain ⟨rfl, after⟩ : next = next' ∧ R s' t' := step
          cases next with
          | none => exact ih stack s' t' after
          | some kids => exact ih (kids.reverse ++ stack) s' t' after

end Simulation
