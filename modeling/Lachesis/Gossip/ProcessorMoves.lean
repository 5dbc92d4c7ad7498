import Lachesis.Gossip.Processor

/-!
What the steps of the processor do to a batch. The calls of `process` and the answers of
`CheckParentless` are observed as one log; every step is one of the few moves of a caller of
`Enqueue` or of the inserter.
-/

namespace Lachesis.Gossip.Dagprocessor

open Dag Datasemaphore Dagordering

variable {World Err : Type}

def Inserter.batch : Inserter Err → Option Nat
  | .idle => none
  | .select b _ _ _ => some b
  | .handle b _ _ _ _ => some b
  | .flush b _ _ _ => some b
  | .drain b _ => some b
  | .stopped => none

/-- The part of the state that says where the events are. -/
structure View (Err : Type) where
  next : Nat
  enqueued : Nat → EnqueueCall Err
  inserterTasks : List Nat
  inserter : Inserter Err
  dispatched : List (Nat × Nat)

def Processor.view (s : Processor World Err) : View Err :=
  ⟨s.next, s.enqueued, s.inserterTasks, s.inserter, s.dispatched⟩

inductive Observed (Err : Type) where
  | arrived (res : CheckRes Err)
  | called (res : CheckRes Err) (toRequest : List EventID)
  | ended (toRequest : List EventID)

namespace View

def events (v : View Err) (b : Nat) : List Event := (v.enqueued b).batch.events

def Enqueuing (v : View Err) (b : Nat) : Prop :=
  (v.enqueued b).caller = .check ∨ (v.enqueued b).caller = .insert

def call (v : View Err) (b : Nat) (call : EnqueueCall Err) : View Err :=
  { v with enqueued := Function.update v.enqueued b call }

@[simp] theorem call_own (v : View Err) (b : Nat) (call' : EnqueueCall Err) :
    (v.call b call').enqueued b = call' := Function.update_self ..

theorem call_other {v : View Err} {b c : Nat} (other : c ≠ b) (call' : EnqueueCall Err) :
    (v.call b call').enqueued c = v.enqueued c := Function.update_of_ne other ..

def unseen (v : View Err) (b : Nat) (seen : List Nat) : List (Nat × Nat) :=
  ((v.events b).zipIdx.filter fun x => x.2 ∉ seen).map fun x => (b, x.2)

inductive Turn (uncut : Prop) (v : View Err) (b : Nat) : EnqueueCall Err → Prop where
  | ask (n : Nat) : Turn uncut v b { v.enqueued b with asked := n }
  | acquire (known : b < v.next) (at_ : (v.enqueued b).caller = .acquire)
      (calm : uncut → v.inserter = .stopped → v.events b = []) :
      Turn uncut v b { v.enqueued b with caller := .check, acquired := true }
  | refuse (known : b < v.next) (at_ : (v.enqueued b).caller = .acquire) :
      Turn uncut v b { v.enqueued b with caller := .returned (some .busy) }
  | check (at_ : (v.enqueued b).caller = .check) :
      Turn uncut v b { v.enqueued b with caller := .insert }
  | quit (at_ : v.Enqueuing b) (calm : uncut → v.events b = []) :
      Turn uncut v b { v.enqueued b with caller := .returned (some .terminated) }

/-- The moves a run consists of, each with its batch and with what is observed of it. -/
inductive Move (uncut : Prop) (v : View Err) : Nat → List (Observed Err) → View Err → Prop where
  | stay (b : Nat) : Move uncut v b [] v
  | turn {b : Nat} {call' : EnqueueCall Err} (turn : Turn uncut v b call') :
      Move uncut v b [] (v.call b call')
  | enqueue (batch : Batch) : Move uncut v v.next []
      { v.call v.next ⟨batch, .acquire, false, 0, [], []⟩ with next := v.next + 1 }
  | handOver {b : Nat} (at_ : (v.enqueued b).caller = .insert) : Move uncut v b []
      { v.call b { v.enqueued b with caller := .returned none } with
        inserterTasks := v.inserterTasks ++ [b] }
  | deliver {b : Nat} (res : CheckRes Err) (event : (v.events b)[res.pos]? = some res.e)
      (fresh : res.pos ∉ (v.enqueued b).answered) : Move uncut v b [.arrived res]
      (v.call b { v.enqueued b with
        answered := (v.enqueued b).answered ++ [res.pos]
        checkedC := (v.enqueued b).checkedC ++ [res] })
  | take {b : Nat} {rest : List Nat} (idle : v.inserter = .idle)
      (tasks : v.inserterTasks = b :: rest) : Move uncut v b []
      { v with
        inserterTasks := rest
        inserter := .select b 0 (if (v.enqueued b).batch.ordered then
          List.replicate (v.events b).length none else []) [] }
  | receive {b processed : Nat} {results : List (Option (CheckRes Err))}
      {toRequest : List EventID} {res : CheckRes Err} {rest : List (CheckRes Err)}
      (at_ : v.inserter = .select b processed results toRequest)
      (queue : (v.enqueued b).checkedC = res :: rest) : Move uncut v b []
      { v.call b { v.enqueued b with checkedC := rest } with
        inserter := if (v.enqueued b).batch.ordered then
          .flush b processed (results.set res.pos (some res)) toRequest
          else .handle b processed results toRequest res }
  | handle {b processed : Nat} {results : List (Option (CheckRes Err))}
      {toRequest : List EventID} {res : CheckRes Err} (more : List EventID)
      (at_ : v.inserter = .handle b processed results toRequest res) :
      Move uncut v b [.called res more]
      { v with
        dispatched := v.dispatched ++ [(b, res.pos)]
        inserter := .select b (processed + 1) results (toRequest ++ more) }
  | flush {b processed : Nat} {results : List (Option (CheckRes Err))}
      {toRequest : List EventID} {res : CheckRes Err} (more : List EventID)
      (at_ : v.inserter = .flush b processed results toRequest)
      (slot : results[processed]? = some (some res)) : Move uncut v b [.called res more]
      { v with
        dispatched := v.dispatched ++ [(b, res.pos)]
        inserter := .flush b (processed + 1) (results.set processed none) (toRequest ++ more) }
  | settle {b processed : Nat} {results : List (Option (CheckRes Err))}
      {toRequest : List EventID} (at_ : v.inserter = .flush b processed results toRequest)
      (gap : ∀ res, results[processed]? ≠ some (some res)) :
      Move uncut v b [] { v with inserter := .select b processed results toRequest }
  | quit {b processed : Nat} {results : List (Option (CheckRes Err))} {toRequest : List EventID}
      (at_ : v.inserter = .select b processed results toRequest) (calm : uncut → processed = 0) :
      Move uncut v b [] { v with inserter := .drain b [] }
  | skip {b : Nat} {seen : List Nat} {res : CheckRes Err} {rest : List (CheckRes Err)}
      (at_ : v.inserter = .drain b seen) (queue : (v.enqueued b).checkedC = res :: rest) :
      Move uncut v b [] (v.call b { v.enqueued b with checkedC := rest })
  | drain {b : Nat} {seen : List Nat} {res : CheckRes Err} {rest : List (CheckRes Err)}
      (at_ : v.inserter = .drain b seen) (queue : (v.enqueued b).checkedC = res :: rest)
      (new : res.pos ∉ seen) : Move uncut v b []
      { v.call b { v.enqueued b with checkedC := rest } with
        dispatched := v.dispatched ++ [(b, res.pos)]
        inserter := .drain b (seen ++ [res.pos]) }
  | drained {b : Nat} {seen : List Nat} (at_ : v.inserter = .drain b seen) : Move uncut v b []
      { v with dispatched := v.dispatched ++ v.unseen b seen, inserter := .idle }
  | exit (b : Nat) (idle : v.inserter = .idle)
      (calm : uncut → ∀ c, v.Enqueuing c ∨ c ∈ v.inserterTasks → v.events c = []) :
      Move uncut v b [] { v with inserter := .stopped }
  | finish {b processed : Nat} {results : List (Option (CheckRes Err))}
      {toRequest : List EventID} (at_ : v.inserter = .select b processed results toRequest)
      (all : (v.events b).length ≤ processed) :
      Move uncut v b [.ended toRequest] { v with inserter := .idle }

end View

namespace Processor

open View

/-- No batch is cut off: the inserter leaves its loop on `quit` only before it has processed
a result, and its goroutine only when no batch is on its way; and no caller gives up between
`Acquire` and the hand-over. An empty batch does not matter. -/
def Uncut (s : Processor World Err) : Action Err → Prop
  | .acquire b => s.inserter = .stopped → s.view.events b = []
  | .enqueueCheckerQuit b => s.view.events b = []
  | .enqueueInserterQuit b => s.view.events b = []
  | .inserterQuit => (∀ b ∈ s.inserterTasks, s.view.events b = []) ∧
      ∀ b, s.view.Enqueuing b → s.view.events b = []
  | .receiveQuit => ∀ b processed results toRequest,
      s.inserter = .select b processed results toRequest → processed = 0
  | _ => True

variable (cfg : Config) (callback : Callback World Err)

def observeCall (s : Processor World Err) (b : Nat) (res : CheckRes Err) :
    List (Nat × Observed Err) :=
  match s.process cfg callback (s.batch b).peer res.e res.err with
  | .ok (toRequest, _) => [(b, .called res toRequest)]
  | .error _ => []

def observe (s : Processor World Err) : Action Err → List (Nat × Observed Err)
  | .deliver b pos err =>
    match (s.batch b).events[pos]? with
    | some e => [(b, .arrived ⟨e, err, pos⟩)]
    | none => []
  | .handle =>
    match s.inserter with
    | .handle b _ _ _ res => s.observeCall cfg callback b res
    | _ => []
  | .flush =>
    match s.inserter with
    | .flush b processed results _ =>
      match results[processed]? with
      | some (some res) => s.observeCall cfg callback b res
      | _ => []
    | _ => []
  | .finish =>
    match s.inserter with
    | .select b _ _ toRequest => [(b, .ended toRequest)]
    | _ => []
  | _ => []

def Moves (s : Processor World Err) (a : Action Err) (t : Processor World Err) : Prop :=
  ∃ b seen, s.observe cfg callback a = seen.map (Prod.mk b) ∧ Move (s.Uncut a) s.view b seen t.view

variable {cfg callback} {s t : Processor World Err}

variable {b : Nat} {a : Action Err}

end Processor

end Lachesis.Gossip.Dagprocessor
