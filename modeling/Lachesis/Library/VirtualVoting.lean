import Lachesis.Library.WeightedQuorum

/-!
Virtual voting over a layered graph. Every root of a level sees roots of the level
below; roots of the level above `base` say which owners they see at `base`, and later
levels repeat the majority of the votes they see. No vote is ever sent: all of them
are functions of the graph. Roots, owners and the relation `sees` are arbitrary.
-/

namespace VirtualVoting

open WeightedQuorum
open scoped Classical

variable {Root Member : Type}

structure Layers (Root Member : Type) where
  members : Finset Member
  weight : Member → ℕ
  bound : ℕ
  root : Root → Prop
  level : Root → ℕ
  owner : Root → Member
  sees : Root → Root → Prop

namespace Layers

variable (G : Layers Root Member) (base : ℕ)

/-- `a` is a root of the level below `r` that `r` sees. -/
def Prior (r a : Root) : Prop := G.root a ∧ G.level a + 1 = G.level r ∧ G.sees r a

noncomputable def seen (r : Root) : Finset Member :=
  G.members.filter fun m => ∃ a, G.Prior r a ∧ G.owner a = m

noncomputable def backing (p : Root → Prop) (r : Root) : Finset Member :=
  G.members.filter fun m => ∃ a, G.Prior r a ∧ G.owner a = m ∧ p a

/-- What the graph has to satisfy for the votes above `base` to be meaningful. -/
structure Sound : Prop where
  quorum : IsQuorum G.weight G.members G.bound
  owned : ∀ r, G.root r → G.owner r ∈ G.members
  single : ∀ r r' a a', G.root r → G.root r' → G.Prior r a → G.Prior r' a' →
    G.level a = G.level a' → G.owner a = G.owner a' → a = a'
  covered : ∀ r, G.root r → base < G.level r → G.bound ≤ mass G.weight (G.seen r)

/-- The vote for owner `s` after `round` levels. -/
def Yes (s : Member) : ℕ → Root → Prop
  | 0, _ => False
  | 1, r => ∃ a, G.Prior r a ∧ G.owner a = s
  | round + 2, r =>
    mass G.weight (G.backing (fun a => ¬ Yes s (round + 1) a) r) ≤
      mass G.weight (G.backing (Yes s (round + 1)) r)

def Vote (s : Member) (r : Root) : Prop := G.Yes s (G.level r - base) r

def DecidesYes (s : Member) (r : Root) : Prop :=
  base + 2 ≤ G.level r ∧ G.bound ≤ mass G.weight (G.backing (G.Vote base s) r)

def DecidesNo (s : Member) (r : Root) : Prop :=
  base + 2 ≤ G.level r ∧ G.bound ≤ mass G.weight (G.backing (fun a => ¬ G.Vote base s a) r)

variable {G base}

variable {p : Root → Prop} {r r' : Root} {s : Member} {level : ℕ}

theorem backing_congr {q : Root → Prop} (same : ∀ a, G.Prior r a → (p a ↔ q a)) :
    G.backing p r = G.backing q r := by
  unfold backing
  apply Finset.filter_congr
  intro m _
  constructor
  · rintro ⟨a, prior, owner, holds⟩
    exact ⟨a, prior, owner, (same a prior).mp holds⟩
  · rintro ⟨a, prior, owner, holds⟩
    exact ⟨a, prior, owner, (same a prior).mpr holds⟩

theorem vote_first (first : G.level r = base + 1) :
    G.Vote base s r ↔ ∃ a, G.Prior r a ∧ G.owner a = s := by
  have round : G.level r - base = 1 := by omega
  rw [Vote, round, Yes]

theorem vote_next (later : base + 2 ≤ G.level r) : G.Vote base s r ↔
      mass G.weight (G.backing (fun a => ¬ G.Vote base s a) r) ≤
        mass G.weight (G.backing (G.Vote base s) r) := by
  obtain ⟨round, depth⟩ : ∃ round, G.level r - base = round + 2 :=
    ⟨G.level r - base - 2, by omega⟩
  have below : ∀ a, G.Prior r a → (G.Yes s (round + 1) a ↔ G.Vote base s a) := by
    intro a prior
    have step : G.level a - base = round + 1 := by
      have := prior.2.1
      omega
    rw [Vote, step]
  rw [Vote, depth, Yes, backing_congr below,
    backing_congr fun a prior => not_congr (below a prior)]

theorem mem_backing {m : Member} :
    m ∈ G.backing p r ↔ m ∈ G.members ∧ ∃ a, G.Prior r a ∧ G.owner a = m ∧ p a :=
  Finset.mem_filter

theorem seen_eq_backing (r : Root) : G.seen r = G.backing (fun _ => True) r := by
  apply Finset.filter_congr
  intro m _
  simp only [and_true]

theorem backing_subset_members (p : Root → Prop) (r : Root) :
    G.backing p r ⊆ G.members := Finset.filter_subset _ _

theorem seen_subset_members (r : Root) : G.seen r ⊆ G.members := Finset.filter_subset _ _

theorem unanimous_yes_next (above : base < level)
    (all : ∀ a, G.root a → G.level a = level → G.Vote base s a) (next : G.level r = level + 1) :
    G.Vote base s r := by
  rw [vote_next (by omega)]
  have empty : G.backing (fun a => ¬ G.Vote base s a) r = ∅ := by
    apply Finset.filter_eq_empty_iff.mpr
    rintro m _ ⟨a, prior, _, against⟩
    exact against (all a prior.1 (by have := prior.2.1; omega))
  rw [empty, mass_empty]
  exact Nat.zero_le _

theorem unanimous_yes_from (level : ℕ) (above : base < level)
    (all : ∀ a, G.root a → G.level a = level → G.Vote base s a) (isRoot : G.root r)
    (later : level ≤ G.level r) : G.Vote base s r := by
  induction later' : G.level r - level generalizing r level with
  | zero => exact all r isRoot (by omega)
  | succ gap ih =>
    refine ih (level + 1) (by omega) ?_ isRoot (by omega) (by omega)
    intro a _ levelA
    exact unanimous_yes_next above all levelA

variable (sound : G.Sound base)
include sound

theorem bound_pos : 0 < G.bound := by
  have := sound.quorum
  unfold IsQuorum at this
  omega

theorem backing_split (p : Root → Prop) (isRoot : G.root r) :
    mass G.weight (G.backing p r) + mass G.weight (G.backing (fun a => ¬ p a) r) =
      mass G.weight (G.seen r) := by
  have against : G.backing (fun a => ¬ p a) r =
      (G.seen r).filter fun m => m ∉ G.backing p r := by
    ext m
    simp only [backing, seen, Finset.mem_filter]
    constructor
    · rintro ⟨member, a, prior, owner, fails⟩
      refine ⟨⟨member, a, prior, owner⟩, ?_⟩
      rintro ⟨_, a', prior', owner', holds⟩
      have same := sound.single r r a a' isRoot isRoot prior prior'
        (by have := prior.2.1; have := prior'.2.1; omega) (owner.trans owner'.symm)
      exact fails (same ▸ holds)
    · grind
  have support : G.backing p r = (G.seen r).filter fun m => m ∈ G.backing p r := by
    ext m
    simp only [Finset.mem_filter]
    constructor
    · intro inside
      refine ⟨?_, inside⟩
      obtain ⟨member, a, prior, owner, _⟩ := Finset.mem_filter.mp inside
      exact Finset.mem_filter.mpr ⟨member, a, prior, owner⟩
    · exact fun both => both.2
  have split := mass_split G.weight (G.seen r) fun m => m ∈ G.backing p r
  rw [← support, ← against] at split
  exact split

/-- A quorum behind `p` below one root is a strict majority below every root of
the same level. -/
theorem quorum_spreads (p : Root → Prop) (isRoot : G.root r) (isRoot' : G.root r')
    (level : G.level r' = G.level r) (above : base < G.level r)
    (heavy : G.bound ≤ mass G.weight (G.backing p r)) :
    mass G.weight (G.backing (fun a => ¬ p a) r') < mass G.weight (G.backing p r') := by
  have pinned : ∀ a a', G.Prior r a → G.Prior r' a' → G.owner a = G.owner a' → a = a' := by
    intro a a' prior prior' owner
    exact sound.single r r' a a' isRoot isRoot' prior prior'
      (by have := prior.2.1; have := prior'.2.1; omega) owner
  apply quorum_forces_majority G.weight G.members (G.backing p r) (G.seen r') G.bound
    sound.quorum (backing_subset_members p r) (seen_subset_members r') heavy
    (sound.covered r' isRoot' (by omega))
  · intro m both
    obtain ⟨left, right⟩ := Finset.mem_inter.mp both
    obtain ⟨member, a, prior, owner, holds⟩ := Finset.mem_filter.mp left
    obtain ⟨_, a', prior', owner'⟩ := Finset.mem_filter.mp right
    have same := pinned a a' prior prior' (owner.trans owner'.symm)
    exact Finset.mem_filter.mpr ⟨member, a', prior', owner', same ▸ holds⟩
  · rw [Finset.disjoint_left]
    intro m left right
    obtain ⟨_, a, prior, owner, holds⟩ := Finset.mem_filter.mp left
    obtain ⟨_, a', prior', owner', fails⟩ := Finset.mem_filter.mp right
    have same := pinned a a' prior prior' (owner.trans owner'.symm)
    exact fails (same ▸ holds)
  · exact backing_subset_members _ r'

theorem unanimous_no_next (above : base < level)
    (all : ∀ a, G.root a → G.level a = level → ¬ G.Vote base s a) (isRoot : G.root r)
    (next : G.level r = level + 1) : ¬ G.Vote base s r := by
  rw [vote_next (by omega)]
  have empty : G.backing (G.Vote base s) r = ∅ := by
    apply Finset.filter_eq_empty_iff.mpr
    rintro m _ ⟨a, prior, _, holds⟩
    exact all a prior.1 (by have := prior.2.1; omega) holds
  have split := backing_split sound (G.Vote base s) isRoot
  have covered := sound.covered r isRoot (by omega)
  have positive := bound_pos sound
  rw [empty, mass_empty] at split ⊢
  omega

theorem unanimous_no_from (level : ℕ) (above : base < level)
    (all : ∀ a, G.root a → G.level a = level → ¬ G.Vote base s a) (isRoot : G.root r)
    (later : level ≤ G.level r) : ¬ G.Vote base s r := by
  induction later' : G.level r - level generalizing r level with
  | zero => exact all r isRoot (by omega)
  | succ gap ih =>
    refine ih (level + 1) (by omega) ?_ isRoot (by omega) (by omega)
    intro a rootA levelA
    exact unanimous_no_next sound above all rootA levelA

/-- Once a root decides yes, every root from that level on votes yes. -/
theorem decidesYes_forces (isRoot : G.root r) (isRoot' : G.root r')
    (decides : G.DecidesYes base s r) (later : G.level r ≤ G.level r') : G.Vote base s r' := by
  have above := decides.1
  refine unanimous_yes_from _ (by omega) ?_ isRoot' later
  intro a rootA levelA
  rw [vote_next (by omega)]
  exact (quorum_spreads sound _ isRoot rootA levelA (by omega) decides.2).le

theorem decidesNo_forces (isRoot : G.root r) (isRoot' : G.root r') (decides : G.DecidesNo base s r)
    (later : G.level r ≤ G.level r') : ¬ G.Vote base s r' := by
  have above := decides.1
  refine unanimous_no_from sound _ (by omega) ?_ isRoot' later
  intro a rootA levelA
  rw [vote_next (by omega), Nat.not_le]
  have spread := quorum_spreads sound _ isRoot rootA levelA (by omega) decides.2
  simpa only [not_not] using spread

theorem decidesYes_votes (isRoot : G.root r) (decides : G.DecidesYes base s r) : G.Vote base s r :=
  decidesYes_forces sound isRoot isRoot decides le_rfl

theorem decidesNo_votes (isRoot : G.root r) (decides : G.DecidesNo base s r) : ¬ G.Vote base s r :=
  decidesNo_forces sound isRoot isRoot decides le_rfl

theorem decisions_agree (isRoot : G.root r) (isRoot' : G.root r') (yes : G.DecidesYes base s r)
    (no : G.DecidesNo base s r') : False := by
  rcases Nat.le_total (G.level r) (G.level r') with later | later
  · exact decidesNo_votes sound isRoot' no (decidesYes_forces sound isRoot isRoot' yes later)
  · exact decidesNo_forces sound isRoot' isRoot no later (decidesYes_votes sound isRoot yes)

/-- Some owner gets the vote of every root from the second voting level on. -/
theorem exists_unrefused (positive : 0 < mass G.weight G.members) :
    ∃ s ∈ G.members, ∀ r, G.root r → base + 2 ≤ G.level r → G.Vote base s r := by
  let Voter (m : Member) (a : Root) : Prop :=
    ∃ r, G.root r ∧ G.level r = base + 2 ∧ G.Prior r a ∧ G.owner a = m
  have voterUnique : ∀ m a a', Voter m a → Voter m a' → a = a' := by
    rintro m a a' ⟨r, isRoot, level, prior, owner⟩ ⟨r', isRoot', level', prior', owner'⟩
    exact sound.single r r' a a' isRoot isRoot' prior prior'
      (by have := prior.2.1; have := prior'.2.1; omega) (owner.trans owner'.symm)
  by_cases some : ∃ r, G.root r ∧ base + 2 ≤ G.level r
  · obtain ⟨top, topRoot, topLevel⟩ := some
    have reachable : G.bound ≤ mass G.weight G.members :=
      (sound.covered top topRoot (by omega)).trans (mass_mono _ (seen_subset_members top))
    obtain ⟨s, member, missing⟩ := exists_popular_subject G.weight G.members
      (G.members.filter fun m => ∃ a, Voter m a) G.bound (Finset.filter_subset _ _) positive
      reachable (fun m s => ∃ a, Voter m a ∧ G.Vote base s a) (by
        intro m member
        obtain ⟨_, a, voter⟩ := Finset.mem_filter.mp member
        obtain ⟨r, isRoot, level, prior, owner⟩ := voter
        have first : G.level a = base + 1 := by have := prior.2.1; omega
        refine (sound.covered a prior.1 (by omega)).trans (mass_mono _ ?_)
        intro t inside
        obtain ⟨memberT, b, priorB, ownerB⟩ := Finset.mem_filter.mp inside
        exact Finset.mem_filter.mpr ⟨memberT, a, ⟨r, isRoot, level, prior, owner⟩,
          (vote_first first).mpr ⟨b, priorB, ownerB⟩⟩)
    refine ⟨s, member, fun r isRoot later => ?_⟩
    refine unanimous_yes_from (base + 2) (by omega) ?_ isRoot later
    intro a rootA levelA
    rw [vote_next (by omega)]
    have against : G.backing (fun b => ¬ G.Vote base s b) a ⊆
        (G.members.filter fun m => ∃ b, Voter m b).filter
          fun m => ¬ ∃ b, Voter m b ∧ G.Vote base s b := by
      intro m inside
      obtain ⟨memberM, b, prior, owner, refuses⟩ := Finset.mem_filter.mp inside
      have voter : Voter m b := ⟨a, rootA, levelA, prior, owner⟩
      refine Finset.mem_filter.mpr ⟨Finset.mem_filter.mpr ⟨memberM, b, voter⟩, ?_⟩
      rintro ⟨b', voter', vote⟩
      exact refuses (voterUnique m b' b voter' voter ▸ vote)
    have few := mass_mono G.weight against
    have split := backing_split sound (G.Vote base s) rootA
    have covered := sound.covered a rootA (by omega)
    have quorum := sound.quorum
    unfold IsQuorum at quorum
    omega
  · have nonempty : G.members.Nonempty := by
      rw [Finset.nonempty_iff_ne_empty]
      intro empty
      simp [empty] at positive
    obtain ⟨s, member⟩ := nonempty
    exact ⟨s, member, fun r isRoot later => absurd ⟨r, isRoot, later⟩ some⟩

theorem not_all_decidesNo (positive : 0 < mass G.weight G.members) :
    ∃ s ∈ G.members, ∀ r, G.root r → ¬ G.DecidesNo base s r := by
  obtain ⟨s, member, votes⟩ := exists_unrefused sound positive
  refine ⟨s, member, fun r isRoot decides => ?_⟩
  exact decidesNo_votes sound isRoot decides (votes r isRoot decides.1)

omit sound

end Layers

end VirtualVoting
