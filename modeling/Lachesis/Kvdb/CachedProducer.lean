import Lachesis.Library.Transition

/-!
`cachedproducer`: clients that open one name share a store, which is closed with the last of them.
The cache of one name is modelled with the calls in flight, one protected section or one call of
the underlying producer at a time. Underlying stores are numbered in the order of their opening.
-/

namespace Lachesis.Kvdb.Cached

open Transition

structure State where
  opened : Option Nat
  refCounter : Nat
  /-- How many stores the underlying producer has opened. -/
  made : Nat
  /-- Calls of `OpenDB` that have found nothing and have not opened a store yet. -/
  opening : Nat
  /-- Opened stores that are not registered yet. -/
  registering : List Nat
  holders : List Nat
  /-- Stores whose `Close` is about to be called. -/
  closing : List Nat
  closed : List Nat

inductive Action where
  /-- The first section of `OpenDB`. -/
  | lookup
  /-- The underlying `OpenDB`, and whether it succeeds. -/
  | openDB (ok : Bool)
  /-- The second section of `OpenDB`. -/
  | register (store : Nat)
  /-- The section of `Close`, called by a holder. -/
  | close (store : Nat)
  /-- The underlying `Close`. -/
  | realClose (store : Nat)

def new : State := ⟨none, 0, 0, 0, [], [], [], []⟩

def step (s : State) : Action → Option State
  | .lookup =>
    match s.opened with
    | some store =>
      some { s with refCounter := s.refCounter + 1, holders := store :: s.holders }
    | none => some { s with opening := s.opening + 1 }
  | .openDB ok =>
    if 0 < s.opening then
      if ok then
        some { s with opening := s.opening - 1, made := s.made + 1, registering := s.made :: s.registering }
      else some { s with opening := s.opening - 1 }
    else none
  | .register store =>
    if store ∈ s.registering then
      some { s with registering := s.registering.erase store, opened := some store
                    refCounter := s.refCounter + 1, holders := store :: s.holders }
    else none
  | .close store =>
    if store ∈ s.holders then
      let s := { s with holders := s.holders.erase store }
      if s.refCounter = 0 then some s
      else if s.refCounter = 1 then
        some { s with refCounter := 0, opened := none, closing := store :: s.closing }
      else some { s with refCounter := s.refCounter - 1 }
    else none
  | .realClose store =>
    if store ∈ s.closing then
      some { s with closing := s.closing.erase store, closed := store :: s.closed }
    else none

/-- The clients of one name share a store, which is closed once, after its last holder, and every
store that was opened is on its way to a holder, held, or closed. -/
structure Shared (s : State) : Prop where
  one : ∀ a ∈ s.holders, ∀ b ∈ s.holders, a = b
  once : (s.closing ++ s.closed).Nodup
  last : ∀ a ∈ s.closing ++ s.closed, a ∉ s.holders
  all : ∀ a, a < s.made → a ∈ s.registering ∨ a ∈ s.holders ∨ a ∈ s.closing ∨ a ∈ s.closed

/-- No call misses the cache while another is opening the store. -/
def Alone (s : State) : Action → Prop
  | .lookup => s.opened = none → s.opening = 0 ∧ s.registering = []
  | _ => True

inductive Stage (s : State) : Prop where
  | unopened (opened : s.opened = none) (counter : s.refCounter = 0) (holders : s.holders = [])
      (alone : s.opening + s.registering.length ≤ 1)
  | held (store : Nat) (opened : s.opened = some store) (opening : s.opening = 0)
      (registering : s.registering = []) (counted : 0 < s.refCounter)
      (holders : s.holders = List.replicate s.refCounter store)

def State.places (s : State) : List Nat :=
  s.registering ++ (s.opened.toList ++ (s.closing ++ s.closed))

structure Inv (s : State) : Prop where
  stage : Stage s
  /-- Every store is in one place. -/
  places : s.places.Perm (List.range s.made)

theorem inv_new : Inv new := ⟨.unopened rfl rfl rfl (Nat.zero_le 1), .nil⟩

variable {s t : State} {store : Nat}

theorem Inv.shared (inv : Inv s) : Shared s := by
  have nodup : s.places.Nodup := inv.places.nodup_iff.mpr List.nodup_range
  obtain ⟨_, nodup, _⟩ := List.nodup_append.mp nodup
  obtain ⟨_, once, apart⟩ := List.nodup_append.mp nodup
  have placed : ∀ a, a < s.made →
      a ∈ s.registering ∨ s.opened = some a ∨ a ∈ s.closing ∨ a ∈ s.closed := by
    intro a below
    have inside := inv.places.mem_iff.mpr (List.mem_range.mpr below)
    simpa [State.places] using inside
  cases inv.stage with
  | unopened opened counter holders alone =>
    refine ⟨?_, once, ?_, fun a below => ?_⟩
    · rw [holders]
      nofun
    · rw [holders]
      exact fun _ _ => List.not_mem_nil
    · grind
  | held store opened opening registering counted holders =>
    have own : ∀ a, a ∈ s.holders ↔ a = store := by grind
    refine ⟨fun a inside b inside' => ?_, once, fun a gone inside => ?_, fun a below => ?_⟩
    · rw [(own a).mp inside, (own b).mp inside']
    · grind
    · grind

theorem inv_lookup (inv : Inv s) (alone : Alone s .lookup) (move : step s .lookup = some t) :
    Inv t := by
  cases inv.stage with
  | unopened opened counter holders _ =>
    obtain ⟨opening, registering⟩ := alone opened
    have next : step s .lookup = some { s with opening := s.opening + 1 } := by rw [step, opened]
    cases move.symm.trans next
    refine ⟨.unopened opened counter holders ?_, inv.places⟩
    simp [opening, registering]
  | held store opened opening registering counted holders =>
    have next : step s .lookup = some { s with
        refCounter := s.refCounter + 1, holders := store :: s.holders } := by rw [step, opened]
    cases move.symm.trans next
    refine ⟨.held store opened opening registering (Nat.succ_pos _) ?_, inv.places⟩
    rw [holders]
    rfl

theorem inv_openDB (inv : Inv s) {ok : Bool} (move : step s (.openDB ok) = some t) : Inv t := by
  rw [step] at move
  split at move
  · next some =>
    cases inv.stage with
    | unopened opened counter holders alone =>
      cases ok with
      | false =>
        cases move
        refine ⟨.unopened opened counter holders ?_, inv.places⟩
        dsimp only
        omega
      | true =>
        cases move
        refine ⟨.unopened opened counter holders ?_, ?_⟩
        · dsimp only [List.length_cons]
          omega
        · rw [List.range_succ]
          exact (inv.places.cons s.made).trans (List.perm_append_singleton ..).symm
    | held store opened opening registering counted holders =>
      rw [opening] at some
      cases some
  · cases move

theorem inv_register (inv : Inv s) (move : step s (.register store) = some t) : Inv t := by
  rw [step] at move
  split at move
  · next inside =>
    cases inv.stage with
    | unopened opened counter holders alone =>
      have only : s.registering = [store] := by
        obtain ⟨first, eq⟩ := List.length_eq_one_iff.mp
          (show s.registering.length = 1 by have := List.length_pos_of_mem inside; omega)
        rw [eq] at inside
        rw [eq, List.mem_singleton.mp inside]
      cases move
      refine ⟨.held store rfl ?_ ?_ (Nat.succ_pos _) ?_, ?_⟩
      · dsimp only
        rw [only] at alone
        simpa using alone
      · simp [only]
      · simp [counter, holders]
      · have places := inv.places
        rw [State.places, only, opened] at places
        rw [State.places]
        simpa [only] using places
    | held store' opened opening registering counted holders =>
      rw [registering] at inside
      cases inside
  · cases move

theorem inv_close (inv : Inv s) (move : step s (.close store) = some t) : Inv t := by
  rw [step] at move
  split at move
  · next inside =>
    cases inv.stage with
    | unopened opened counter holders alone =>
      rw [holders] at inside
      cases inside
    | held own opened opening registering counted holders =>
      rw [holders] at inside
      cases List.eq_of_mem_replicate inside
      have erased : s.holders.erase store = List.replicate (s.refCounter - 1) store := by
        rw [holders, List.erase_replicate_self]
      dsimp only at move
      rw [if_neg counted.ne'] at move
      split at move
      · next last =>
        cases move
        refine ⟨.unopened rfl rfl ?_ ?_, ?_⟩
        · dsimp only
          rw [erased, last]
          rfl
        · simp [opening, registering]
        · have places := inv.places
          rw [State.places, opened, registering] at places
          rw [State.places]
          simpa [registering] using places
      · next more =>
        cases move
        exact ⟨.held store opened opening registering (by dsimp only; omega) erased, inv.places⟩
  · cases move

theorem inv_realClose (inv : Inv s) (move : step s (.realClose store) = some t) : Inv t := by
  rw [step] at move
  split at move
  · next inside =>
    cases move
    refine ⟨?_, ?_⟩
    · cases inv.stage with
      | unopened opened counter holders alone => exact .unopened opened counter holders alone
      | held own opened opening registering counted holders =>
        exact .held own opened opening registering counted holders
    · refine .trans (.append_left _ (.append_left _ ?_)) inv.places
      calc s.closing.erase store ++ store :: s.closed
          _ |>.Perm (store :: (s.closing.erase store ++ s.closed)) := List.perm_middle
          _ |>.Perm (s.closing ++ s.closed) := (List.perm_cons_erase inside).symm.append_right _
  · cases move

theorem step_inv {a : Action} (inv : Inv s) (alone : Alone s a) (move : step s a = some t) :
    Inv t := by
  cases a with
  | lookup => exact inv_lookup inv alone move
  | openDB ok => exact inv_openDB inv move
  | register store => exact inv_register inv move
  | close store => exact inv_close inv move
  | realClose store => exact inv_realClose inv move

/-- Shared opens are counted right as long as no two calls open the store at a time; in the end
every store is closed. -/
theorem opens_counted {actions : List Action} {s : State} (run : Run step Alone new actions s) :
    Shared s ∧ (s.registering = [] → s.holders = [] → s.closing = [] →
      s.closed.Perm (List.range s.made)) := by
  have inv : Inv s := run.invariant (fun _ _ _ inv alone move => step_inv inv alone move) inv_new
  refine ⟨inv.shared, fun registering holders closing => ?_⟩
  have places := inv.places
  cases inv.stage with
  | unopened opened =>
    rw [State.places, registering, opened, closing] at places
    exact places
  | held store _ _ _ counted held => simp_all

/-- Two clients share a store, and the second to close it closes it. -/
theorem opens_counted_two : ∃ s, Run step Alone new
    [.lookup, .openDB true, .register 0, .lookup, .close 0, .close 0, .realClose 0] s ∧
    s.closed.Perm (List.range 1) := by
  have run : Run step Alone new
      [.lookup, .openDB true, .register 0, .lookup, .close 0, .close 0, .realClose 0] _ :=
    .cons (fun _ => ⟨rfl, rfl⟩) rfl (.cons trivial rfl (.cons trivial rfl
      (.cons (fun missed => (nomatch missed)) rfl (.cons trivial rfl (.cons trivial rfl
        (.cons trivial rfl (.nil _)))))))
  exact ⟨_, run, (opens_counted run).2 rfl rfl rfl⟩

/-- Two calls miss the cache: two clients hold different stores, and when both have closed, the first
store is not closed. -/
theorem opens_twice : ∃ s t,
    [Action.lookup, .lookup, .openDB true, .openDB true, .register 0, .register 1].foldlM step new =
      some s ∧ s.holders = [1, 0] ∧
    [Action.close 0, .close 1, .realClose 1].foldlM step s = some t ∧
    t.holders = [] ∧ t.closing = [] ∧ t.made = 2 ∧ t.closed = [1] :=
  ⟨_, _, rfl, rfl, rfl, rfl, rfl, rfl, rfl⟩

end Lachesis.Kvdb.Cached
