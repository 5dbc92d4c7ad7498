import Lachesis.Halt
import Lachesis.Validators

/-!
The election of `abft/election`. `Externals` stands for the two callbacks an
`Election` is built with; they may keep state of their own (caches), so every call
threads a `World`. Maps of the source are association lists with unique keys.
-/

namespace Lachesis.Abft

open Dag Pos

structure Slot where
  frame : Nat
  validator : ValidatorID
  deriving DecidableEq

structure RootAndSlot where
  id : EventID
  slot : Slot
  deriving DecidableEq

structure VoteID where
  fromRoot : RootAndSlot
  forValidator : ValidatorID
  deriving DecidableEq

structure VoteValue where
  decided : Bool
  yes : Bool
  observedRoot : EventID
  deriving DecidableEq

structure Res where
  frame : Nat
  atropos : EventID
  deriving DecidableEq

structure Externals (World : Type) where
  observe : World → EventID → EventID → Except Halt (Bool × World)
  getFrameRoots : World → Nat → Except Halt (List RootAndSlot × World)

structure Election where
  frameToDecide : Nat
  validators : Validators
  decidedRoots : AList fun _ : ValidatorID => VoteValue
  votes : AList fun _ : VoteID => VoteValue

namespace Election

/-- `Election.Reset` overwrites every field, so `New` is the same value. -/
def reset (validators : Validators) (frameToDecide : Nat) : Election :=
  { frameToDecide := frameToDecide
    validators := validators
    decidedRoots := ∅
    votes := ∅ }

def notDecidedRoots (el : Election) : Except Halt (List ValidatorID) :=
  let notDecided := el.validators.sortedIDs.filter fun v => (el.decidedRoots.lookup v).isNone
  if notDecided.length + el.decidedRoots.keys.length ≠ el.validators.len then
    .error .mismatchOfRoots
  else .ok notDecided

variable {World : Type}

def collectObserved (x : Externals World) (root : EventID) :
    List RootAndSlot → World → Except Halt (List RootAndSlot × World)
  | [], w => .ok ([], w)
  | frameRoot :: rest, w => do
      let (hit, w) ← x.observe w root frameRoot.id
      let (observed, w) ← collectObserved x root rest w
      return (if hit then frameRoot :: observed else observed, w)

def observedRoots (x : Externals World) (w : World) (root : EventID) (frame : Nat) :
    Except Halt (List RootAndSlot × World) := do
  let (frameRoots, w) ← x.getFrameRoots w frame
  collectObserved x root frameRoots w

/-- The last observed root of a validator is the one that stays in the map. -/
def rootsMap (observed : List RootAndSlot) (v : ValidatorID) : Option RootAndSlot :=
  observed.reverse.find? fun r => r.slot.validator == v

def observedRootsMap (x : Externals World) (w : World) (root : EventID) (frame : Nat) :
    Except Halt ((ValidatorID → Option RootAndSlot) × World) := do
  let (observed, w) ← observedRoots x w root frame
  return (rootsMap observed, w)

def chooseAtroposFrom (el : Election) : List ValidatorID → Except ElectionError (Option Res)
  | [] => .error .allNo
  | validator :: rest =>
    match el.decidedRoots.lookup validator with
    | none => .ok none
    | some vote =>
      if vote.yes then .ok (some ⟨el.frameToDecide, vote.observedRoot⟩)
      else chooseAtroposFrom el rest

def chooseAtropos (el : Election) : Except ElectionError (Option Res) :=
  chooseAtroposFrom el el.validators.sortedIDs

structure Tally where
  subjectHash : Option EventID
  yesVotes : WeightCounter
  noVotes : WeightCounter
  allVotes : WeightCounter

def newTally (el : Election) : Tally :=
  { subjectHash := none
    yesVotes := el.validators.newCounter
    noVotes := el.validators.newCounter
    allVotes := el.validators.newCounter }

def tallyVote (el : Election) (subject : ValidatorID) (t : Tally) (observedRoot : RootAndSlot) :
    Except ElectionError Tally :=
  match el.votes.lookup ⟨observedRoot, subject⟩ with
  | none => .error .missingVote
  | some vote =>
    match t.subjectHash with
    | some subjectHash =>
      if vote.yes ∧ subjectHash ≠ vote.observedRoot then
        .error (.forkRoots subjectHash vote.observedRoot el.frameToDecide subject)
      else addVote vote
    | none => addVote vote
where
  addVote (vote : VoteValue) : Except ElectionError Tally :=
    let validator := observedRoot.slot.validator
    let t := if vote.yes then
        { t with subjectHash := some vote.observedRoot
                 yesVotes := (t.yesVotes.count validator).2 }
      else { t with noVotes := (t.noVotes.count validator).2 }
    if (t.allVotes.count validator).1 then
      .ok { t with allVotes := (t.allVotes.count validator).2 }
    else .error (.twoRoots el.frameToDecide subject)

def tallyVotes (el : Election) (subject : ValidatorID) :
    List RootAndSlot → Tally → Except ElectionError Tally
  | [], t => .ok t
  | observedRoot :: rest, t =>
    match tallyVote el subject t observedRoot with
    | .error error => .error error
    | .ok t => tallyVotes el subject rest t

def firstVote (observed : ValidatorID → Option RootAndSlot) (subject : ValidatorID) : VoteValue :=
  match observed subject with
  | some root => { decided := false, yes := true, observedRoot := root.id }
  | none => { decided := false, yes := false, observedRoot := 0 }

def majorityVote (observed : List RootAndSlot) (el : Election) (subject : ValidatorID) :
    Except ElectionError VoteValue :=
  match tallyVotes el subject observed (newTally el) with
  | .error error => .error error
  | .ok t =>
    if t.allVotes.hasQuorum then
      let yes := decide (t.noVotes.sum ≤ t.yesVotes.sum)
      .ok { decided := t.yesVotes.hasQuorum || t.noVotes.hasQuorum
            yes := yes
            observedRoot := if yes then t.subjectHash.getD 0 else 0 }
    else .error .noQuorum

def castVotes (ballot : Election → ValidatorID → Except ElectionError VoteValue)
    (newRoot : RootAndSlot) : List ValidatorID → Election → Election × Option ElectionError
  | [], el => (el, none)
  | subject :: rest, el =>
    match ballot el subject with
    | .error error => (el, some error)
    | .ok vote =>
      let decidedRoots := if vote.decided then el.decidedRoots.insert subject vote
        else el.decidedRoots
      castVotes ballot newRoot rest
        { el with decidedRoots := decidedRoots
                  votes := el.votes.insert ⟨newRoot, subject⟩ vote }

abbrev Outcome := Except ElectionError (Option Res)

def castRound (ballot : Election → ValidatorID → Except ElectionError VoteValue)
    (newRoot : RootAndSlot) (subjects : List ValidatorID) (el : Election) : Outcome × Election :=
  match castVotes ballot newRoot subjects el with
  | (el, some error) => (.error error, el)
  | (el, none) => (chooseAtropos el, el)

def processRoot (x : Externals World) (w : World) (el : Election) (newRoot : RootAndSlot) :
    Except Halt (Outcome × Election × World) :=
  match chooseAtropos el with
  | .error error => .ok (.error error, el, w)
  | .ok (some res) => .ok (.ok (some res), el, w)
  | .ok none =>
    -- too old root, out of interest for current election
    if newRoot.slot.frame ≤ el.frameToDecide then .ok (.ok none, el, w)
    else do
      let subjects ← notDecidedRoots el
      if newRoot.slot.frame - el.frameToDecide = 1 then
        let (observed, w) ← observedRootsMap x w newRoot.id (newRoot.slot.frame - 1)
        let (outcome, el) := castRound (fun _ s => .ok (firstVote observed s)) newRoot subjects el
        return (outcome, el, w)
      else
        let (observed, w) ← observedRoots x w newRoot.id (newRoot.slot.frame - 1)
        let (outcome, el) := castRound (majorityVote observed) newRoot subjects el
        return (outcome, el, w)

end Election

end Lachesis.Abft
