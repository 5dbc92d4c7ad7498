import Lachesis.Dag

/-!
Errors of the election and the faults that stop the process. A fault is an error
handed to `crit` or a Go panic; nothing runs after it. Errors that a function returns
to its caller are values of that function's result instead.
-/

namespace Lachesis

open Dag

inductive ElectionError where
  /-- "forkless caused by 2 fork roots => more than 1/3W are Byzantine (%s != %s, ...)" -/
  | forkRoots (subjectHash observedRoot : EventID) (frame : Nat) (validator : ValidatorID)
  /-- "forkless caused by 2 fork roots => more than 1/3W are Byzantine (election frame ...)" -/
  | twoRoots (frame : Nat) (validator : ValidatorID)
  /-- "every root must vote for every not decided subject. possibly roots are processed ..." -/
  | missingVote
  /-- "root must be forkless caused by at least 2/3W of prev roots. possibly roots are ..." -/
  | noQuorum
  /-- "all the roots are decided as 'no', which is possible only if more than 1/3W are ..." -/
  | allNo
  deriving DecidableEq

inductive Halt where
  /-- panic("Mismatch of roots") -/
  | mismatchOfRoots
  /-- `Orderer.Process` hands an election error to `crit`. -/
  | election (error : ElectionError)
  /-- crit: "failed to read event's branch ID (inconsistent DB)" -/
  | branchIDNotFound (id : EventID)
  /-- An index lies past the end of a slice. -/
  | indexOutOfRange
  /-- A nil vector is dereferenced. -/
  | nilVector (id : EventID)
  /-- crit: "Event A=%s not found" or "Event B=%s not found" -/
  | vectorNotFound (id : EventID)
  /-- crit: "event not found" -/
  | eventNotFound (id : EventID)
  /-- crit: "event has wrong epoch" -/
  | wrongEpoch
  /-- crit: "event wasn't created by an existing validator" -/
  | notValidator
  /-- crit: "genesis not applied" -/
  | noGenesis
  /-- The election and the epoch database are nil before `Bootstrap`. -/
  | notBootstrapped
  /-- The step budget of a loop of the model ran out. -/
  | outOfFuel
  deriving DecidableEq

end Lachesis
