import Lachesis.Dag
import Lachesis.Library.WeightedQuorum

/-!
Validators of an epoch and the weight counter of `inter/pos`. A `Validators` value
carries what `newValidators` establishes: the sorted array lists each member once,
with a positive weight, and the total fits the limit checked by `calcCaches`.
-/

namespace Lachesis.Pos

open Dag WeightedQuorum

structure Validator where
  id : ValidatorID
  weight : Nat
  deriving DecidableEq

/-- `validators.Less`: heavier first, then the smaller ID. -/
def Less (left right : Validator) : Prop :=
  if left.weight ≠ right.weight then left.weight > right.weight else left.id < right.id

instance (left right : Validator) : Decidable (Less left right) := by
  unfold Less; infer_instance

def maxTotalWeight : Nat := 2 ^ 31 - 1

structure Validators where
  sortedArray : List Validator
  ordered : sortedArray.Pairwise Less
  distinct : (sortedArray.map Validator.id).Nodup
  positive : ∀ v ∈ sortedArray, 0 < v.weight
  limited : (sortedArray.map Validator.weight).sum ≤ maxTotalWeight
  deriving DecidableEq

namespace Validators

variable (vv : Validators)

def len : Nat := vv.sortedArray.length

def sortedIDs : List ValidatorID := vv.sortedArray.map Validator.id

def totalWeight : Nat := (vv.sortedArray.map Validator.weight).sum

def quorum : Nat := vv.totalWeight * 2 / 3 + 1

def «exists» (id : ValidatorID) : Bool := vv.sortedIDs.contains id

def getIdx (id : ValidatorID) : Nat := if id ∈ vv.sortedIDs then vv.sortedIDs.idxOf id else 0

def getWeightByIdx (i : Nat) : Nat := (vv.sortedArray.map Validator.weight)[i]?.getD 0

def get (id : ValidatorID) : Nat :=
  if id ∈ vv.sortedIDs then vv.getWeightByIdx (vv.getIdx id) else 0

def group : Finset ValidatorID := vv.sortedIDs.toFinset

end Validators

/-- `WeightCounter`: `already` has one flag for each validator index. -/
structure WeightCounter where
  validators : Validators
  already : List Bool
  quorum : Nat
  sum : Nat

def Validators.newCounter (vv : Validators) : WeightCounter :=
  { validators := vv
    already := List.replicate vv.len false
    quorum := vv.quorum
    sum := 0 }

namespace WeightCounter

def countByIdx (s : WeightCounter) (validatorIdx : Nat) : Bool × WeightCounter :=
  if s.already[validatorIdx]?.getD false then (false, s)
  else (true, { s with
    already := s.already.set validatorIdx true
    sum := s.sum + s.validators.getWeightByIdx validatorIdx })

def count (s : WeightCounter) (v : ValidatorID) : Bool × WeightCounter :=
  s.countByIdx (s.validators.getIdx v)

def hasQuorum (s : WeightCounter) : Bool := decide (s.quorum ≤ s.sum)

end WeightCounter

section Lookup
variable {vv : Validators}

variable {v : ValidatorID}

@[simp] theorem mem_group : v ∈ vv.group ↔ v ∈ vv.sortedIDs :=
  List.mem_toFinset

theorem exists_iff : vv.exists v = true ↔ v ∈ vv.sortedIDs := by
  simp [Validators.exists]

theorem getIdx_lt (member : v ∈ vv.sortedIDs) : vv.getIdx v < vv.len := by
  have inside := List.idxOf_lt_length_iff.mpr member
  have length : vv.sortedIDs.length = vv.len := List.length_map _
  rw [Validators.getIdx, if_pos member]
  omega

theorem sortedIDs_getIdx (member : v ∈ vv.sortedIDs) : vv.sortedIDs[vv.getIdx v]? = some v := by
  simp only [Validators.getIdx, member, ↓reduceIte]
  exact List.getElem?_idxOf member

theorem getIdx_injective {w : ValidatorID} (left : v ∈ vv.sortedIDs) (right : w ∈ vv.sortedIDs)
    (same : vv.getIdx v = vv.getIdx w) : v = w := by
  have atLeft := sortedIDs_getIdx left
  have atRight := sortedIDs_getIdx right
  rw [same, atRight] at atLeft
  exact (Option.some.inj atLeft).symm

theorem getIdx_of_getElem {i : Nat} (found : vv.sortedIDs[i]? = some v) : vv.getIdx v = i := by
  have member := List.mem_of_getElem? found
  have nodup : vv.sortedIDs.Nodup := vv.distinct
  obtain ⟨inside, value⟩ := List.getElem?_eq_some_iff.mp found
  simp only [Validators.getIdx, member, ↓reduceIte]
  rw [← value]
  exact nodup.idxOf_getElem i inside

theorem get_pos (member : v ∈ vv.sortedIDs) : 0 < vv.get v := by
  have inside : vv.getIdx v < vv.sortedArray.length := getIdx_lt member
  simp only [Validators.get, member, ↓reduceIte, Validators.getWeightByIdx]
  rw [List.getElem?_eq_getElem (by simpa using inside), List.getElem_map]
  exact vv.positive _ (List.getElem_mem _)

theorem get_eq_weight {u : Validator} (listed : u ∈ vv.sortedArray) : vv.get u.id = u.weight := by
  obtain ⟨i, found⟩ := List.mem_iff_getElem?.mp listed
  have place : vv.getIdx u.id = i := getIdx_of_getElem (by simp [Validators.sortedIDs, found])
  have member : u.id ∈ vv.sortedIDs := List.mem_map_of_mem listed
  rw [Validators.get, if_pos member, place]
  simp [Validators.getWeightByIdx, found]

theorem sum_filter_eq_mass (p : ValidatorID → Prop) [DecidablePred p] :
    ((vv.sortedArray.filter (p ·.id)).map Validator.weight).sum =
      mass vv.get (vv.group.filter p) := by
  have nodup : vv.sortedIDs.Nodup := vv.distinct
  have listed : vv.group.filter p = (vv.sortedIDs.filter p).toFinset := by
    rw [Validators.group, List.toFinset_filter]
    simp
  rw [mass, listed, List.sum_toFinset _ (nodup.filter _), Validators.sortedIDs, List.filter_map,
    List.map_map]
  congr 1
  apply List.map_congr_left
  intro u member
  exact (get_eq_weight (List.mem_of_mem_filter member)).symm

theorem totalWeight_eq_mass : vv.totalWeight = mass vv.get vv.group := by
  have whole := @sum_filter_eq_mass vv (fun _ => True) _
  simpa [Validators.totalWeight] using whole

theorem quorum_isQuorum : IsQuorum vv.get vv.group vv.quorum := by
  unfold IsQuorum
  rw [← totalWeight_eq_mass, Validators.quorum]
  omega

theorem quorum_pos : 0 < vv.quorum := Nat.succ_pos _

end Lookup

/-- The counter has counted exactly the members of `counted`. -/
structure Counted (s : WeightCounter) (vv : Validators) (counted : Finset ValidatorID) :
    Prop where
  validators : s.validators = vv
  quorum : s.quorum = vv.quorum
  members : counted ⊆ vv.group
  length : s.already.length = vv.len
  flags : ∀ v ∈ vv.sortedIDs, s.already[vv.getIdx v]?.getD false = decide (v ∈ counted)
  sum : s.sum = mass vv.get counted

theorem newCounter_counted (vv : Validators) : Counted vv.newCounter vv ∅ where
  validators := rfl
  quorum := rfl
  members := Finset.empty_subset _
  length := by simp [Validators.newCounter]
  flags := by
    intro v _
    by_cases inside : vv.getIdx v < vv.len <;>
      simp [Validators.newCounter, inside]
  sum := rfl

variable {vv : Validators} {v : ValidatorID} {counted : Finset ValidatorID} {s : WeightCounter}

theorem count_seen (holds : Counted s vv counted) (member : v ∈ counted) :
    s.count v = (false, s) := by
  have listed := mem_group.mp (holds.members member)
  have flag := holds.flags v listed
  simp [WeightCounter.count, WeightCounter.countByIdx, holds.validators, flag, member]

theorem count_fresh (holds : Counted s vv counted) (listed : v ∈ vv.sortedIDs) (fresh : v ∉ counted) :
    (s.count v).1 = true ∧ Counted (s.count v).2 vv (insert v counted) := by
  have flag := holds.flags v listed
  simp only [fresh, decide_false] at flag
  have inside : vv.getIdx v < s.already.length := holds.length ▸ getIdx_lt listed
  refine ⟨by simp [WeightCounter.count, WeightCounter.countByIdx, holds.validators, flag], ?_⟩
  simp only [WeightCounter.count, WeightCounter.countByIdx, holds.validators, flag,
    Bool.false_eq_true, ↓reduceIte]
  refine ⟨rfl, holds.quorum, ?_, by simpa using holds.length, ?_, ?_⟩
  · exact Finset.insert_subset (mem_group.mpr listed) holds.members
  · intro w listedW
    by_cases same : w = v
    · subst w
      simp [List.getElem?_set_self inside]
    · have different : vv.getIdx v ≠ vv.getIdx w :=
        fun equal => same (getIdx_injective listedW listed equal.symm)
      have old := holds.flags w listedW
      rw [List.getElem?_set_ne different, old]
      simp [same]
  · have weight : vv.getWeightByIdx (vv.getIdx v) = vv.get v := by
      simp [Validators.get, listed]
    rw [weight, mass_insert _ fresh, holds.sum]

theorem count_counted (holds : Counted s vv counted) (listed : v ∈ vv.sortedIDs) :
    Counted (s.count v).2 vv (insert v counted) := by
  by_cases member : v ∈ counted
  · rw [count_seen holds member, Finset.insert_eq_of_mem member]
    exact holds
  · exact (count_fresh holds listed member).2

theorem hasQuorum_iff (holds : Counted s vv counted) :
    s.hasQuorum = true ↔ vv.quorum ≤ mass vv.get counted := by
  simp [WeightCounter.hasQuorum, holds.quorum, holds.sum]

end Lachesis.Pos
