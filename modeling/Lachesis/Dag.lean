import Mathlib

/-!
Events of `inter/dag`, their identifiers (`hash.Event`) and the event source.
Indices of `inter/idx` are natural numbers: the checks of `eventcheck` keep every
seq, epoch, frame and lamport below 2^31, so no 32-bit addition on them wraps.
-/

namespace Lachesis.Dag

abbrev ValidatorID := Nat

/-- `hash.Event`: 32 bytes. Byte order is the order of the numbers they spell. -/
abbrev EventID := BitVec 256

structure Event where
  epoch : Nat
  seq : Nat
  frame : Nat
  creator : ValidatorID
  parents : List EventID
  lamport : Nat
  id : EventID
  deriving DecidableEq, Inhabited

def Event.selfParent (e : Event) : Option EventID :=
  if e.seq ≤ 1 ∨ e.parents.length = 0 then none else e.parents.head?

def Event.isSelfParent (e : Event) (hash : EventID) : Bool := e.selfParent == some hash

/-- `MutableBaseEvent.SetID`: four bytes of epoch, four of lamport, then `rID`. -/
def Event.setID (e : Event) (rID : BitVec 192) : Event :=
  { e with id := BitVec.ofNat 32 e.epoch ++ BitVec.ofNat 32 e.lamport ++ rID }

def Event.setFrame (e : Event) (frame : Nat) : Event := { e with frame := frame }

structure Metric where
  num : Nat
  size : Nat
  deriving DecidableEq

/-- The events an `EventSource` holds; a store of events is finite at any moment. -/
structure EventSource where
  events : List Event

def EventSource.getEvent (input : EventSource) (id : EventID) : Option Event :=
  input.events.find? fun e => e.id == id

variable {e : Event} {id : EventID} {input : EventSource}

theorem selfParent_mem_parents {p : EventID} (self : e.selfParent = some p) : p ∈ e.parents := by
  unfold Event.selfParent at self
  split at self
  · simp at self
  · exact List.mem_of_mem_head? self

theorem getEvent_id (found : input.getEvent id = some e) : e.id = id := by
  have hit := List.find?_some found
  exact beq_iff_eq.mp hit

theorem getEvent_mem (found : input.getEvent id = some e) : e ∈ input.events :=
  List.mem_of_find?_eq_some found

end Lachesis.Dag
