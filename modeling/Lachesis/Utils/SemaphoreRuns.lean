import Lachesis.Library.Transition
import Lachesis.Utils.DataSemaphore

/-!
Callers of a `DataSemaphore`, one step per critical section. `Acquire` holds the lock except while it
waits for a broadcast, so every iteration of its loop is a step of its own: it is granted, or gives up,
or waits. What counts as in use is the exact sum of what was granted and not given back.
-/

namespace Lachesis.Datasemaphore

open Dag Transition

def total : List Metric → Metric
  | [] => ⟨0, 0⟩
  | m :: rest => ⟨m.num + (total rest).num, m.size + (total rest).size⟩

structure Usage where
  sem : DataSemaphore
  /-- granted and not given back yet -/
  granted : List Metric
  /-- the calls of `Acquire` that wait -/
  waiting : List Metric
  terminated : Bool

inductive Action where
  | tryAcquire (weight : Metric)
  /-- `expired` tells whether the deadline has passed -/
  | acquire (weight : Metric) (expired : Bool)
  | wake (i : Nat) (expired : Bool)
  | release (weight : Metric)
  | terminate

namespace Usage

def new (maxProcessing : Metric) : Usage := ⟨.new maxProcessing, [], [], false⟩

def grant (u : Usage) (weight : Metric) : Option Usage :=
  (u.sem.tryAcquire weight).map fun sem => { u with sem := sem, granted := weight :: u.granted }

def wait (u : Usage) (weight : Metric) (expired : Bool) : Usage :=
  if u.sem.maxProcessing.size < weight.size ∨ u.sem.maxProcessing.num < weight.num ∨ expired then u
  else { u with waiting := u.waiting ++ [weight] }

/-- A metric is given back only if it was granted. -/
def step (u : Usage) : Action → Option Usage
  | .tryAcquire weight => some ((u.grant weight).getD u)
  | .acquire weight expired => some ((u.grant weight).getD (u.wait weight expired))
  | .wake i expired =>
    match u.waiting[i]? with
    | none => none
    | some weight =>
      let u := { u with waiting := u.waiting.eraseIdx i }
      some ((u.grant weight).getD (u.wait weight expired))
  | .release weight =>
    if weight ∈ u.granted then
      some { u with sem := u.sem.release weight, granted := u.granted.erase weight }
    else none
  | .terminate => some { u with sem := u.sem.terminate, terminated := true }

def attempted (u : Usage) : Action → Option Metric
  | .tryAcquire weight => some weight
  | .acquire weight _ => some weight
  | .wake i _ => u.waiting[i]?
  | .release _ => none
  | .terminate => none

def InRange (u : Usage) (a : Action) : Prop :=
  ∀ weight, u.attempted a = some weight → weight.num < 2 ^ 32 ∧ weight.size < 2 ^ 64

def NoWrap (u : Usage) (a : Action) : Prop :=
  ∀ weight, u.attempted a = some weight →
    u.sem.processing.num + weight.num < 2 ^ 32 ∧ u.sem.processing.size + weight.size < 2 ^ 64

end Usage

open Usage

variable {maxProcessing : Metric} {u v : Usage} {weight : Metric}

theorem total_erase {granted : List Metric} (member : weight ∈ granted) :
    (total granted).num = weight.num + (total (granted.erase weight)).num ∧
      (total granted).size = weight.size + (total (granted.erase weight)).size := by
  induction granted with
  | nil => simp at member
  | cons m rest ih =>
    by_cases same : m = weight
    · subst same
      simp [total]
    · have later : weight ∈ rest := by
        rcases List.mem_cons.mp member with here | later
        · exact absurd here.symm same
        · exact later
      have tail := ih later
      rw [List.erase_cons_tail (by simpa using same)]
      simp only [total]
      omega

/-- What is in use is exactly what was granted, and it is within the maximum until `Terminate`. -/
structure Exact (maxProcessing : Metric) (u : Usage) : Prop where
  processing : u.sem.processing = total u.granted
  before : u.terminated = false → u.sem.maxProcessing = maxProcessing ∧
    (total u.granted).num ≤ maxProcessing.num ∧ (total u.granted).size ≤ maxProcessing.size
  after : u.terminated = true → u.sem.maxProcessing = ⟨0, 0⟩

theorem new_exact (maxProcessing : Metric) : Exact maxProcessing (.new maxProcessing) := by
  constructor
  · rfl
  · intro _
    exact ⟨rfl, Nat.zero_le _, Nat.zero_le _⟩
  · intro closed
    cases closed

theorem grant_eq_some (fits : u.sem.processing.num + weight.num < 2 ^ 32 ∧
      u.sem.processing.size + weight.size < 2 ^ 64) (granted : u.grant weight = some v) :
    u.sem.processing.num + weight.num ≤ u.sem.maxProcessing.num ∧
      u.sem.processing.size + weight.size ≤ u.sem.maxProcessing.size ∧
      v = { u with
        sem := { u.sem with
          processing := ⟨u.sem.processing.num + weight.num, u.sem.processing.size + weight.size⟩ }
        granted := weight :: u.granted } := by
  simp only [grant, DataSemaphore.tryAcquire, Nat.mod_eq_of_lt fits.1, Nat.mod_eq_of_lt fits.2,
    Option.map_eq_some_iff] at granted
  obtain ⟨sem, room, rfl⟩ := granted
  split at room
  · cases room
  · grind

theorem grant_exact (exact_ : Exact maxProcessing u)
    (fits : u.sem.processing.num + weight.num < 2 ^ 32 ∧
      u.sem.processing.size + weight.size < 2 ^ 64) (granted : u.grant weight = some v) :
    Exact maxProcessing v := by
  obtain ⟨num, size, rfl⟩ := grant_eq_some fits granted
  have sum := exact_.processing
  constructor
  · simp only [total, sum]
    rw [Nat.add_comm weight.num, Nat.add_comm weight.size]
  · intro isOpen
    obtain ⟨same, _, _⟩ := exact_.before isOpen
    rw [same, sum] at num size
    simp only [total]
    exact ⟨same, by omega, by omega⟩
  · exact exact_.after

theorem release_exact (exact_ : Exact maxProcessing u) (member : weight ∈ u.granted) :
    Exact maxProcessing
      { u with sem := u.sem.release weight, granted := u.granted.erase weight } := by
  obtain ⟨num, size⟩ := total_erase member
  have sum := exact_.processing
  constructor
  · simp only [DataSemaphore.release, sum]
    rw [if_neg (by omega), num, size]
    simp
  · intro isOpen
    obtain ⟨same, low, low'⟩ := exact_.before isOpen
    exact ⟨same, by dsimp only; omega, by dsimp only; omega⟩
  · exact exact_.after

theorem Exact.waiting (exact_ : Exact maxProcessing u) (waiting : List Metric) :
    Exact maxProcessing { u with waiting := waiting } :=
  ⟨exact_.processing, exact_.before, exact_.after⟩

theorem wait_exact (exact_ : Exact maxProcessing u) (weight : Metric) (expired : Bool) :
    Exact maxProcessing (u.wait weight expired) := by
  unfold wait
  split
  · exact exact_
  · exact exact_.waiting _

theorem getD_exact {fallback : Usage} (exact_ : Exact maxProcessing u)
    (fits : u.sem.processing.num + weight.num < 2 ^ 32 ∧
      u.sem.processing.size + weight.size < 2 ^ 64) (otherwise : Exact maxProcessing fallback) :
    Exact maxProcessing ((u.grant weight).getD fallback) := by
  cases granted : u.grant weight with
  | none => exact otherwise
  | some v => exact grant_exact exact_ fits granted

variable {a : Action}

theorem step_exact (exact_ : Exact maxProcessing u) (fits : NoWrap u a) (move : u.step a = some v) :
    Exact maxProcessing v := by
  cases a with
  | tryAcquire weight =>
    cases move
    exact getD_exact exact_ (fits weight rfl) exact_
  | acquire weight expired =>
    cases move
    exact getD_exact exact_ (fits weight rfl) (wait_exact exact_ weight expired)
  | wake i expired =>
    cases found : u.waiting[i]? with
    | none => simp [step, found] at move
    | some weight =>
      simp only [step, found, Option.some.injEq] at move
      subst move
      have woken := exact_.waiting (u.waiting.eraseIdx i)
      exact getD_exact woken (fits weight found) (wait_exact woken weight expired)
  | release weight =>
    by_cases member : weight ∈ u.granted
    · simp only [step, member, ↓reduceIte, Option.some.injEq] at move
      subst move
      exact release_exact exact_ member
    · simp [step, member] at move
  | terminate =>
    cases move
    constructor
    · exact exact_.processing
    · intro isOpen
      cases isOpen
    · intro _
      rfl

theorem grant_none (exact_ : Exact maxProcessing u) (closed : u.terminated = true)
    (fits : u.sem.processing.num + weight.num < 2 ^ 32 ∧
      u.sem.processing.size + weight.size < 2 ^ 64) (nonzero : weight ≠ ⟨0, 0⟩) :
    u.grant weight = none := by
  cases granted : u.grant weight with
  | none => rfl
  | some v =>
    obtain ⟨num, size, _⟩ := grant_eq_some fits granted
    rw [exact_.after closed] at num size
    obtain ⟨n, s⟩ := weight
    have zero : n = 0 ∧ s = 0 := by
      dsimp only at num size
      omega
    exact absurd (by rw [zero.1, zero.2]) nonzero

theorem granted_wait (u : Usage) (weight : Metric) (expired : Bool) :
    (u.wait weight expired).granted = u.granted := by
  unfold wait
  split <;> rfl

theorem step_closed (exact_ : Exact maxProcessing u) (closed : u.terminated = true)
    (fits : NoWrap u a) (move : u.step a = some v) (tries : u.attempted a = some weight)
    (nonzero : weight ≠ ⟨0, 0⟩) : v.granted = u.granted := by
  have refused := grant_none exact_ closed (fits weight tries) nonzero
  cases a with
  | tryAcquire weight =>
    cases tries
    simp only [step, refused, Option.getD_none, Option.some.injEq] at move
    rw [← move]
  | acquire weight expired =>
    cases tries
    simp only [step, refused, Option.getD_none, Option.some.injEq] at move
    rw [← move, granted_wait]
  | wake i expired =>
    have found : u.waiting[i]? = some weight := tries
    -- taking the call off the list of waiting calls leaves the semaphore alone
    have refused' : ({ u with waiting := u.waiting.eraseIdx i } : Usage).grant weight = none := by
      simpa [grant] using refused
    simp only [step, found, refused', Option.getD_none, Option.some.injEq] at move
    rw [← move, granted_wait]
  | release weight => cases tries
  | terminate => cases tries

/-- As long as no sum wraps around, what is in use is the exact sum of what was granted and not given
back, within the maximum until `Terminate`. -/
theorem admits_within_maximum (maxProcessing : Metric) {actions : List Action}
    (run : Run step NoWrap (.new maxProcessing) actions u) :
    u.sem.processing = total u.granted ∧
    (u.terminated = false →
      (total u.granted).num ≤ maxProcessing.num ∧ (total u.granted).size ≤ maxProcessing.size ∧
      u.sem.available.num + u.sem.processing.num = maxProcessing.num ∧
      u.sem.available.size + u.sem.processing.size = maxProcessing.size) ∧
    (u.terminated = true → ∀ a v, NoWrap u a → u.step a = some v →
      ∀ weight, u.attempted a = some weight → weight ≠ ⟨0, 0⟩ → v.granted = u.granted) := by
  have exact_ : Exact maxProcessing u := by
    apply run.invariant _ (new_exact maxProcessing)
    intro s a t holds fits move
    exact step_exact holds fits move
  refine ⟨exact_.processing, ?_, ?_⟩
  · intro isOpen
    obtain ⟨same, num, size⟩ := exact_.before isOpen
    rw [DataSemaphore.available, exact_.processing, same]
    refine ⟨num, size, ?_⟩
    split
    · next zero =>
      subst zero
      dsimp only at num size ⊢
      omega
    · dsimp only
      omega
  · intro closed a v fits move weight tries nonzero
    exact step_closed exact_ closed fits move tries nonzero

/-- Two attempts whose sum wraps around: the second is granted although there is no room, and one that
makes the sum zero is granted even after `Terminate`. -/
theorem wrapped_attempt_granted :
    (∃ u, Run step InRange (.new ⟨10, 10⟩) [.tryAcquire ⟨1, 1⟩, .tryAcquire ⟨2 ^ 32 - 1, 0⟩] u ∧
      u.terminated = false ∧ u.sem.processing = ⟨0, 1⟩ ∧ total u.granted = ⟨2 ^ 32, 1⟩) ∧
    ∃ u v, Run step InRange (.new ⟨10, 10⟩) [.tryAcquire ⟨1, 1⟩, .terminate] u ∧
      u.terminated = true ∧ InRange u (.tryAcquire ⟨2 ^ 32 - 1, 2 ^ 64 - 1⟩) ∧
      u.step (.tryAcquire ⟨2 ^ 32 - 1, 2 ^ 64 - 1⟩) = some v ∧
      v.granted = ⟨2 ^ 32 - 1, 2 ^ 64 - 1⟩ :: u.granted := by
  have range : ∀ n s u, n < 2 ^ 32 → s < 2 ^ 64 → InRange u (.tryAcquire ⟨n, s⟩) := by
    rintro n s u num size _ ⟨⟩
    exact ⟨num, size⟩
  constructor
  · refine ⟨_, .cons (range _ _ _ (by decide) (by decide)) rfl
      (.cons (range _ _ _ (by decide) (by decide)) rfl (.nil _)), rfl, rfl, rfl⟩
  · refine ⟨_, _, .cons (range _ _ _ (by decide) (by decide)) rfl (.cons ?_ rfl (.nil _)), rfl,
      range _ _ _ (by decide) (by decide), rfl, rfl⟩
    rintro _ ⟨⟩

/-- A granted attempt, a waiting one that is granted after a release, and `Terminate`. -/
theorem admits_within_maximum_busy : ∃ u,
    Run step NoWrap (.new ⟨3, 30⟩)
      [.tryAcquire ⟨2, 20⟩, .acquire ⟨2, 5⟩ false, .release ⟨2, 20⟩, .wake 0 false] u ∧
    u.granted = [⟨2, 5⟩] ∧ u.sem.processing = total u.granted ∧ u.sem.available = ⟨1, 25⟩ ∧
    u.sem.available.num + u.sem.processing.num = 3 := by
  obtain ⟨u, run, granted, isOpen, available⟩ : ∃ u, Run step NoWrap (.new ⟨3, 30⟩)
      [.tryAcquire ⟨2, 20⟩, .acquire ⟨2, 5⟩ false, .release ⟨2, 20⟩, .wake 0 false] u ∧
      u.granted = [⟨2, 5⟩] ∧ u.terminated = false ∧ u.sem.available = ⟨1, 25⟩ := by
    refine ⟨_, .cons ?_ rfl (.cons ?_ rfl (.cons ?_ rfl (.cons ?_ rfl (.nil _)))), rfl, rfl, rfl⟩
    · rintro _ ⟨⟩
      decide
    · rintro _ ⟨⟩
      decide
    · rintro _ ⟨⟩
    · rintro _ ⟨⟩
      decide
  obtain ⟨exact_, within, _⟩ := admits_within_maximum ⟨3, 30⟩ run
  exact ⟨u, run, granted, exact_, available, (within isOpen).2.2.1⟩

end Lachesis.Datasemaphore
