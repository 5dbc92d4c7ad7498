import Mathlib

/-!
Weighted quorums over a finite group. A quorum is any bound that exceeds two
thirds of the total weight; nothing else about how it is computed is used.
Sets of members are finite sets, weights are natural numbers.
-/

namespace WeightedQuorum

variable {Member : Type} [DecidableEq Member]

def mass (weight : Member → ℕ) (group : Finset Member) : ℕ := ∑ m ∈ group, weight m

omit [DecidableEq Member] in
theorem mass_mono (weight : Member → ℕ) {small large : Finset Member}
    (inside : small ⊆ large) : mass weight small ≤ mass weight large :=
  Finset.sum_le_sum_of_subset inside

theorem mass_insert (weight : Member → ℕ) {group : Finset Member} {m : Member}
    (fresh : m ∉ group) : mass weight (insert m group) = mass weight group + weight m := by
  rw [mass, Finset.sum_insert fresh, mass, Nat.add_comm]

omit [DecidableEq Member] in
@[simp] theorem mass_empty (weight : Member → ℕ) : mass weight ∅ = 0 := rfl

omit [DecidableEq Member] in
theorem mass_split (weight : Member → ℕ) (group : Finset Member) (p : Member → Prop)
    [DecidablePred p] :
    mass weight (group.filter p) + mass weight (group.filter fun m => ¬ p m) =
      mass weight group :=
  Finset.sum_filter_add_sum_filter_not group p weight

/-- Two parts of one group overlap by at least what they weigh beyond it. -/
theorem mass_overlap (weight : Member → ℕ) (group left right : Finset Member)
    (leftIn : left ⊆ group) (rightIn : right ⊆ group) :
    mass weight left + mass weight right ≤
      mass weight group + mass weight (left ∩ right) := by
  have exact : mass weight (left ∪ right) + mass weight (left ∩ right) =
      mass weight left + mass weight right := Finset.sum_union_inter
  have bound : mass weight (left ∪ right) ≤ mass weight group :=
    mass_mono weight (Finset.union_subset leftIn rightIn)
  omega

/-- A quorum of `group`: three times the bound exceeds twice the total weight. -/
def IsQuorum (weight : Member → ℕ) (group : Finset Member) (bound : ℕ) : Prop :=
  2 * mass weight group < 3 * bound

/-- Two quorums share a member outside every light set. -/
theorem quorums_share_member (weight : Member → ℕ) (group left right light : Finset Member)
    (bound : ℕ) (quorum : IsQuorum weight group bound)
    (leftIn : left ⊆ group) (rightIn : right ⊆ group)
    (leftHeavy : bound ≤ mass weight left) (rightHeavy : bound ≤ mass weight right)
    (lightWeight : 3 * mass weight light < mass weight group) :
    ∃ m, m ∈ left ∧ m ∈ right ∧ m ∉ light := by
  by_contra none
  have covered : left ∩ right ⊆ light := by grind
  have overlap := mass_overlap weight group left right leftIn rightIn
  have small := mass_mono weight covered
  unfold IsQuorum at quorum
  omega

/-- If a quorum of `left` has property `p`, then in every other quorum those with
`p` outweigh those without it. -/
theorem quorum_forces_majority (weight : Member → ℕ) (group left right : Finset Member)
    (bound : ℕ) (quorum : IsQuorum weight group bound)
    (leftIn : left ⊆ group) (rightIn : right ⊆ group)
    (leftHeavy : bound ≤ mass weight left) (rightHeavy : bound ≤ mass weight right)
    (agree against : Finset Member)
    (agreeCovers : left ∩ right ⊆ agree) (againstAvoids : Disjoint left against)
    (againstIn : against ⊆ group) :
    mass weight against < mass weight agree := by
  have overlap := mass_overlap weight group left right leftIn rightIn
  have meets := mass_mono weight agreeCovers
  have apart : mass weight left + mass weight against ≤ mass weight group := by
    have union : mass weight (left ∪ against) = mass weight left + mass weight against :=
      Finset.sum_union againstAvoids
    have bounded := mass_mono weight (Finset.union_subset leftIn againstIn)
    omega
  unfold IsQuorum at quorum
  omega

omit [DecidableEq Member] in
/-- Double counting: if every voter of a group supports subjects of weight at least
`bound`, some subject is missing only from voters that weigh no more than a quorum
leaves out. -/
theorem exists_popular_subject (weight : Member → ℕ) (group voters : Finset Member)
    (bound : ℕ) (votersIn : voters ⊆ group) (positive : 0 < mass weight group)
    (reachable : bound ≤ mass weight group)
    (supports : Member → Member → Prop) [∀ v, DecidablePred (supports v)]
    (heavy : ∀ v ∈ voters, bound ≤ mass weight (group.filter (supports v))) :
    ∃ s ∈ group, mass weight (voters.filter fun v => ¬ supports v s) + bound ≤
      mass weight group := by
  by_contra none
  push Not at none
  -- Exchange the two sums: voters over subjects against subjects over voters.
  have exchange : ∑ v ∈ voters, weight v * mass weight (group.filter (supports v)) =
      ∑ s ∈ group, weight s * mass weight (voters.filter fun v => supports v s) := by
    simp only [mass, Finset.mul_sum, Finset.sum_filter]
    rw [Finset.sum_comm]
    apply Finset.sum_congr rfl
    intro s _
    apply Finset.sum_congr rfl
    intro v _
    by_cases hit : supports v s <;> simp [hit, Nat.mul_comm]
  have lower : mass weight voters * bound ≤
      ∑ v ∈ voters, weight v * mass weight (group.filter (supports v)) := by
    rw [mass, Finset.sum_mul]
    exact Finset.sum_le_sum fun v member => Nat.mul_le_mul_left _ (heavy v member)
  have upper : ∑ s ∈ group, weight s * (mass weight (voters.filter fun v => supports v s) +
      (mass weight group + 1)) ≤
      ∑ s ∈ group, weight s * (mass weight voters + bound) := by
    apply Finset.sum_le_sum
    intro s member
    apply Nat.mul_le_mul_left
    have short := none s member
    have split := mass_split weight voters (fun v => supports v s)
    omega
  have chain : mass weight voters * bound + mass weight group * (mass weight group + 1) ≤
      mass weight group * (mass weight voters + bound) := by
    simp only [Nat.mul_add (weight _), Finset.sum_add_distrib] at upper
    simp only [← Finset.sum_mul] at upper
    change _ + (mass weight group * mass weight group + mass weight group * 1) ≤
      mass weight group * mass weight voters + mass weight group * bound at upper
    rw [exchange] at lower
    rw [Nat.mul_add, Nat.mul_add]
    omega
  have votersBound := mass_mono weight votersIn
  nlinarith

end WeightedQuorum
