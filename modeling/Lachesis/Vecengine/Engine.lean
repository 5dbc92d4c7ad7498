import Lachesis.Halt
import Lachesis.Validators
import Lachesis.Vecfc.Vector
import Lachesis.Library.StackWalk

/-!
The engine of `vecengine`: it gives every event a global branch and computes its vectors
from those of its parents. As in the source, the engine reaches the stored vectors only
through `Callbacks`, so a store with caches and a plain table run the same code.
-/

namespace Lachesis.Vecengine

open Dag Pos Vecfc

structure BranchesInfo where
  branchIDLastSeq : List Nat
  branchIDCreatorIdxs : List Nat
  branchIDByCreators : List (List Nat)
  deriving DecidableEq

def newInitialBranchesInfo (validators : Validators) : BranchesInfo :=
  { branchIDLastSeq := List.replicate validators.len 0
    branchIDCreatorIdxs := List.range validators.len
    branchIDByCreators := (List.range validators.len).map fun i => [i] }

def maxBranchesPerValidator : Nat := 1024

namespace BranchesInfo

def lastSeq (bi : BranchesInfo) (branchID : Nat) : Nat := bi.branchIDLastSeq[branchID]?.getD 0

def creatorIdx (bi : BranchesInfo) (branchID : Nat) : Nat :=
  bi.branchIDCreatorIdxs[branchID]?.getD 0

def byCreator (bi : BranchesInfo) (validatorIdx : Nat) : List Nat :=
  bi.branchIDByCreators[validatorIdx]?.getD []

def width (bi : BranchesInfo) : Nat := bi.branchIDCreatorIdxs.length

def setLastSeq (bi : BranchesInfo) (branchID seq : Nat) : BranchesInfo :=
  { bi with branchIDLastSeq := bi.branchIDLastSeq.set branchID seq }

def atLeastOneFork (bi : BranchesInfo) (validators : Validators) : Bool :=
  decide (validators.len < bi.width)

end BranchesInfo

/-- "inconsistent BranchIDCreators len (inconsistent DB)" -/
inductive BranchError where
  | inconsistentLen
  deriving DecidableEq

structure Callbacks (Store : Type) where
  getHighestBefore : Store → EventID → Option HighestBeforeSeq × Store
  getLowestAfter : Store → EventID → Option LowestAfterSeq × Store
  setHighestBefore : Store → EventID → HighestBeforeSeq → Store
  setLowestAfter : Store → EventID → LowestAfterSeq → Store
  readEventBranch : Store → EventID → Option Nat
  setEventBranchID : Store → EventID → Nat → Store

section Engine

variable {Store : Type} (c : Callbacks Store) (source : EventSource) (validators : Validators)

def getEventBranchID (s : Store) (id : EventID) : Except Halt Nat :=
  match c.readEventBranch s id with
  | none => .error (.branchIDNotFound id)
  | some branchID => .ok branchID

/-- A new fork is observed (only globally): create a new branch, or reuse the most recent
one of a validator that already has the maximum number. -/
def forkBranch (bi : BranchesInfo) (e : Event) (meIdx : Nat) : Nat × BranchesInfo :=
  if maxBranchesPerValidator ≤ (bi.byCreator meIdx).length then
    let lastBranch := (bi.byCreator meIdx).getLast?.getD 0
    (lastBranch, if bi.lastSeq lastBranch < e.seq then bi.setLastSeq lastBranch e.seq else bi)
  else
    let newBranchID := bi.branchIDLastSeq.length
    (newBranchID,
      { branchIDLastSeq := bi.branchIDLastSeq ++ [e.seq]
        branchIDCreatorIdxs := bi.branchIDCreatorIdxs ++ [meIdx]
        branchIDByCreators :=
          bi.branchIDByCreators.set meIdx (bi.byCreator meIdx ++ [newBranchID]) })

def fillGlobalBranchID (bi : BranchesInfo) (s : Store) (e : Event) (meIdx : Nat) :
    Except Halt (Nat × Option BranchError × BranchesInfo) :=
  -- sanity checks
  if bi.branchIDCreatorIdxs.length ≠ bi.branchIDLastSeq.length ∨
      bi.branchIDCreatorIdxs.length < validators.len then
    .ok (0, some .inconsistentLen, bi)
  else
    match e.selfParent with
    | none =>
      -- is it first event indeed?
      if bi.lastSeq meIdx = 0 then .ok (meIdx, none, bi.setLastSeq meIdx e.seq)
      else
        let (branchID, bi) := forkBranch bi e meIdx
        .ok (branchID, none, bi)
    | some selfParent => do
        let selfParentBranchID ← getEventBranchID c s selfParent
        if bi.lastSeq selfParentBranchID + 1 = e.seq then
          .ok (selfParentBranchID, none, bi.setLastSeq selfParentBranchID e.seq)
        else
          let (branchID, bi) := forkBranch bi e meIdx
          .ok (branchID, none, bi)

/-- Pre-load the parents' vectors. A missing vector stays unnoticed here: the nil check of
the source compares an interface that holds a typed nil pointer. -/
def loadParents : List EventID → Store →
    Except Halt (List (EventID × Option HighestBeforeSeq) × Store)
  | [], s => .ok ([], s)
  | p :: rest, s => do
      let _ ← getEventBranchID c s p
      let (vec, s) := c.getHighestBefore s p
      let (vecs, s) ← loadParents rest s
      return ((p, vec) :: vecs, s)

def collectParents (num : Nat) :
    List (EventID × Option HighestBeforeSeq) → HighestBeforeSeq → Except Halt HighestBeforeSeq
  | [], before => .ok before
  | (p, none) :: _, _ => .error (.nilVector p)
  | (_, some vec) :: rest, before => collectParents num rest (before.collectFrom vec num)

def setForkDetected (bi : BranchesInfo) (before : HighestBeforeSeq) (branchID : Nat) :
    HighestBeforeSeq :=
  (bi.byCreator (bi.creatorIdx branchID)).foldl HighestBeforeSeq.setForkDetected before

/-- If one branch observes a fork, mark all the branches as observing the fork. -/
def spreadForks (bi : BranchesInfo) (before : HighestBeforeSeq) (n : Nat) : HighestBeforeSeq :=
  if (bi.byCreator n).length ≤ 1 then before
  else if (bi.byCreator n).any before.isForkDetected then setForkDetected bi before n
  else before

def overlaps (before : HighestBeforeSeq) (a b : Nat) : Bool :=
  decide (a ≠ b) && !before.isEmpty a && !before.isEmpty b &&
    decide (before.minSeq a ≤ before.seq b) && decide (before.minSeq b ≤ before.seq a)

/-- Detect forks of creator `n` which were not observed by the parents. -/
def detectForks (bi : BranchesInfo) (before : HighestBeforeSeq) (n : Nat) : HighestBeforeSeq :=
  if before.isForkDetected n then before
  else if (bi.byCreator n).any fun a => (bi.byCreator n).any (overlaps before a) then
    setForkDetected bi before n
  else before

def onWalk (meBranchID : Nat) (e : Event) (s : Store) (walk : EventID) :
    Except Halt (Option (List EventID) × Store) :=
  match c.getLowestAfter s walk with
  | (none, _) => .error (.nilVector walk)
  | (some lowestAfter, s) =>
    match lowestAfter.visit meBranchID e with
    | none => .ok (none, s)
    | some lowestAfter =>
      match source.getEvent walk with
      | none => .error (.eventNotFound walk)
      | some event => .ok (some event.parents, c.setLowestAfter s walk lowestAfter)

def dfsFuel (e : Event) : Nat :=
  e.parents.length + (source.events.map fun event => event.parents.length).sum

def dfsSubgraph (meBranchID : Nat) (e : Event) (s : Store) : Except Halt Store :=
  StackWalk.walk (onWalk c source meBranchID e) .outOfFuel (dfsFuel source e) e.parents.reverse s

/-- The event's `HighestBefore`, once its branch and its parents' vectors are known. -/
def highestBefore (bi : BranchesInfo) (before : HighestBeforeSeq) : HighestBeforeSeq :=
  if bi.atLeastOneFork validators then
    let before := (List.range validators.len).foldl (spreadForks bi) before
    (List.range validators.len).foldl (detectForks bi) before
  else before

def fillEventVectors (bi : BranchesInfo) (s : Store) (e : Event) :
    Except Halt (BranchesInfo × Store) := do
  let meIdx := validators.getIdx e.creator
  let before := HighestBeforeSeq.new bi.width
  let after := LowestAfterSeq.new bi.width
  let (meBranchID, _, bi) ← fillGlobalBranchID c validators bi s e meIdx
  let (parentsVecs, s) ← loadParents c e.parents s
  let after := after.initWithEvent meBranchID e
  let before := before.initWithEvent meBranchID e
  let before ← collectParents bi.width parentsVecs before
  let before := highestBefore validators bi before
  let s ← dfsSubgraph c source meBranchID e s
  let s := c.setHighestBefore s e.id before
  let s := c.setLowestAfter s e.id after
  return (bi, c.setEventBranchID s e.id meBranchID)

end Engine

end Lachesis.Vecengine
