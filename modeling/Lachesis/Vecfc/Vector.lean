import Lachesis.Dag

/-!
The vector clocks of `vecfc`: one entry for each branch, read as zero past the end and
padded with zeros by `set`. The merge of two vectors is told entry by entry.
-/

namespace Lachesis.Vecfc

open Dag

structure BranchSeq where
  seq : Nat
  minSeq : Nat
  deriving DecidableEq

namespace BranchSeq

def empty : BranchSeq := ⟨0, 0⟩

/-- A special marker of an observed fork by a creator: `MinSeq` is `math.MaxInt32`. -/
def forkDetectedSeq : BranchSeq := ⟨0, 2 ^ 31 - 1⟩

def isForkDetected (s : BranchSeq) : Bool := decide (s = forkDetectedSeq)

@[simp] theorem isForkDetected_mark : forkDetectedSeq.isForkDetected = true := by decide

@[simp] theorem isForkDetected_empty : empty.isForkDetected = false := by decide

variable {s : BranchSeq}

theorem eq_mark : s.isForkDetected = true ↔ s = forkDetectedSeq := by
  simp [isForkDetected]

theorem unmarked_of_seq (positive : 0 < s.seq) : s.isForkDetected = false := by
  rw [isForkDetected, decide_eq_false_iff_not]
  rintro rfl
  simp [forkDetectedSeq] at positive

end BranchSeq

def setPadded {α : Type} (zero : α) (xs : List α) (i : Nat) (x : α) : List α :=
  (xs ++ List.replicate (i + 1 - xs.length) zero).set i x

theorem getD_setPadded {α : Type} (zero : α) (xs : List α) (i j : Nat) (x : α) :
    (setPadded zero xs i x)[j]?.getD zero = if j = i then x else xs[j]?.getD zero := by
  unfold setPadded
  rw [List.getElem?_set]
  grind

/-- The lowest `Seq` on each branch that observes the source event. -/
structure LowestAfterSeq where
  entries : List Nat
  deriving DecidableEq

namespace LowestAfterSeq

def new (size : Nat) : LowestAfterSeq := ⟨List.replicate size 0⟩

def get (b : LowestAfterSeq) (i : Nat) : Nat := b.entries[i]?.getD 0

def set (b : LowestAfterSeq) (i seq : Nat) : LowestAfterSeq := ⟨setPadded 0 b.entries i seq⟩

def initWithEvent (b : LowestAfterSeq) (i : Nat) (e : Event) : LowestAfterSeq := b.set i e.seq

def visit (b : LowestAfterSeq) (i : Nat) (e : Event) : Option LowestAfterSeq :=
  if b.get i ≠ 0 then none else some (b.set i e.seq)

def byteLen (b : LowestAfterSeq) : Nat := b.entries.length * 4

@[simp] theorem get_new (size i : Nat) : (new size).get i = 0 := by
  simp only [new, get, List.getElem?_replicate]
  split <;> rfl

@[simp] theorem get_set (b : LowestAfterSeq) (i j seq : Nat) :
    (b.set i seq).get j = if j = i then seq else b.get j :=
  getD_setPadded 0 b.entries i j seq

end LowestAfterSeq

/-- The highest `Seq` on each branch that is observed by the source event, with the
lowest one, or the mark of an observed fork. -/
structure HighestBeforeSeq where
  entries : List BranchSeq
  deriving DecidableEq

namespace HighestBeforeSeq

def new (size : Nat) : HighestBeforeSeq := ⟨List.replicate size .empty⟩

def get (b : HighestBeforeSeq) (i : Nat) : BranchSeq := b.entries[i]?.getD .empty

def set (b : HighestBeforeSeq) (i : Nat) (seq : BranchSeq) : HighestBeforeSeq :=
  ⟨setPadded .empty b.entries i seq⟩

def initWithEvent (b : HighestBeforeSeq) (i : Nat) (e : Event) : HighestBeforeSeq :=
  b.set i ⟨e.seq, e.seq⟩

def isEmpty (b : HighestBeforeSeq) (i : Nat) : Bool :=
  !(b.get i).isForkDetected && (b.get i).seq == 0

def isForkDetected (b : HighestBeforeSeq) (i : Nat) : Bool := (b.get i).isForkDetected

def seq (b : HighestBeforeSeq) (i : Nat) : Nat := (b.get i).seq

def minSeq (b : HighestBeforeSeq) (i : Nat) : Nat := (b.get i).minSeq

def setForkDetected (b : HighestBeforeSeq) (i : Nat) : HighestBeforeSeq :=
  b.set i .forkDetectedSeq

def collectBranch (other self : HighestBeforeSeq) (branchID : Nat) : HighestBeforeSeq :=
  let hisSeq := other.get branchID
  if hisSeq.seq = 0 ∧ hisSeq.isForkDetected = false then self
  else
    let mySeq := self.get branchID
    if mySeq.isForkDetected then self
    else if hisSeq.isForkDetected then self.setForkDetected branchID
    else
      let taken : BranchSeq := { mySeq with minSeq := hisSeq.minSeq }
      let (mySeq, self) :=
        if mySeq.seq = 0 ∨ mySeq.minSeq > hisSeq.minSeq then (taken, self.set branchID taken)
        else (mySeq, self)
      if mySeq.seq < hisSeq.seq then self.set branchID { mySeq with seq := hisSeq.seq } else self

def collectFrom (self other : HighestBeforeSeq) (num : Nat) : HighestBeforeSeq :=
  (List.range num).foldl (collectBranch other) self

def gathered (other : HighestBeforeSeq) : List Nat → BranchSeq → BranchSeq
  | [], highest => highest
  | branchID :: rest, highest =>
    let branch := other.get branchID
    if branch.isForkDetected then branch
    else gathered other rest (if branch.seq > highest.seq then branch else highest)

def gatherFrom (self : HighestBeforeSeq) (creator : Nat) (other : HighestBeforeSeq)
    (branches : List Nat) : HighestBeforeSeq :=
  self.set creator (gathered other branches .empty)

def byteLen (b : HighestBeforeSeq) : Nat := b.entries.length * 8

@[simp] theorem get_new (size i : Nat) : (new size).get i = .empty := by
  simp only [new, get, List.getElem?_replicate]
  split <;> rfl

@[simp] theorem get_set (b : HighestBeforeSeq) (i j : Nat) (seq : BranchSeq) :
    (b.set i seq).get j = if j = i then seq else b.get j :=
  getD_setPadded BranchSeq.empty b.entries i j seq

def merge (mySeq hisSeq : BranchSeq) : BranchSeq :=
  if hisSeq.seq = 0 ∧ hisSeq.isForkDetected = false then mySeq
  else if mySeq.isForkDetected then mySeq
  else if hisSeq.isForkDetected then .forkDetectedSeq
  else ⟨max mySeq.seq hisSeq.seq,
    if mySeq.seq = 0 ∨ mySeq.minSeq > hisSeq.minSeq then hisSeq.minSeq else mySeq.minSeq⟩

theorem get_collectBranch (other self : HighestBeforeSeq) (i j : Nat) :
    (collectBranch other self i).get j =
      if j = i then merge (self.get i) (other.get i) else self.get j := by
  unfold collectBranch merge setForkDetected
  by_cases same : j = i
  · subst j
    simp only [↓reduceIte]
    split
    · rfl
    split
    · rfl
    split
    · simp
    split <;> split <;> simp_all <;> omega
  · simp only [same, ↓reduceIte]
    split
    · rfl
    split
    · rfl
    split
    · simp [same]
    split <;> split <;> simp [same]

theorem get_collectFrom (self other : HighestBeforeSeq) (num i : Nat) :
    (self.collectFrom other num).get i =
      if i < num then merge (self.get i) (other.get i) else self.get i := by
  unfold collectFrom
  induction num with
  | zero => simp
  | succ num ih =>
    rw [List.range_succ, List.foldl_append, List.foldl_cons, List.foldl_nil, get_collectBranch]
    by_cases same : i = num
    · subst i
      rw [if_pos rfl, if_pos (by omega), ih, if_neg (by omega)]
    · grind

theorem gathered_marked (other : HighestBeforeSeq) :
    ∀ (branches : List Nat) (highest : BranchSeq), highest.isForkDetected = false →
      ((gathered other branches highest).isForkDetected = true ↔
        ∃ b ∈ branches, (other.get b).isForkDetected = true) := by
  intro branches
  induction branches with
  | nil => intro highest unmarked; simp [gathered, unmarked]
  | cons branchID rest ih =>
    intro highest unmarked
    by_cases marked : (other.get branchID).isForkDetected = true
    · simp [gathered, marked]
    · simp only [gathered, marked, Bool.false_eq_true, ↓reduceIte, List.mem_cons,
        exists_eq_or_imp, false_or]
      apply ih
      split
      · simpa using marked
      · exact unmarked

theorem gathered_seq {other : HighestBeforeSeq} {branches : List Nat} {highest : BranchSeq}
    (unmarked : ∀ b ∈ branches, (other.get b).isForkDetected = false) :
    IsGreatest (insert highest.seq {n | ∃ b ∈ branches, other.seq b = n})
      (gathered other branches highest).seq := by
  induction branches generalizing highest with
  | nil => simp [gathered]
  | cons branchID rest ih =>
    obtain ⟨first, later⟩ := List.forall_mem_cons.mp unmarked
    rw [gathered, if_neg (by simp [first])]
    obtain ⟨reached, above⟩ := @ih
      (if (other.get branchID).seq > highest.seq then other.get branchID else highest) later
    have start : (if (other.get branchID).seq > highest.seq then other.get branchID else highest).seq =
        max highest.seq (other.seq branchID) := by
      rw [seq, apply_ite BranchSeq.seq]
      split_ifs <;> omega
    rw [start] at reached above
    constructor
    · rcases reached with same | ⟨b, member, same⟩
      · grind
      · exact .inr ⟨b, List.mem_cons_of_mem _ member, same⟩
    · rintro n (rfl | ⟨b, member, rfl⟩)
      · exact (le_max_left _ _).trans (above (.inl rfl))
      · rcases List.mem_cons.mp member with rfl | member
        · exact (le_max_right _ _).trans (above (.inl rfl))
        · exact above (.inr ⟨b, member, rfl⟩)

end HighestBeforeSeq

end Lachesis.Vecfc
