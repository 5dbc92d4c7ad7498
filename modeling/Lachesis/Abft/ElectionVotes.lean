import Lachesis.Abft.Election
import Lachesis.Library.VirtualVoting

/-!
What one `processRoot` does, told in terms of the votes of the root graph. The votes
an election stores are the virtual votes of the graph, whichever roots the instance
has been fed and in whatever order; a subject that is decided is decided by a fed root.
-/

namespace Lachesis.Abft

open Dag Pos WeightedQuorum VirtualVoting

def layers (vv : Validators) (root : RootAndSlot → Prop)
    (observe : EventID → EventID → Prop) : Layers RootAndSlot ValidatorID where
  members := vv.group
  weight := vv.get
  bound := vv.quorum
  root := root
  level := fun r => r.slot.frame
  owner := fun r => r.slot.validator
  sees := fun r a => observe r.id a.id

section Votes

variable {vv : Validators} {root : RootAndSlot → Prop} {observe : EventID → EventID → Prop}

@[simp] theorem layers_level (r : RootAndSlot) :
    (layers vv root observe).level r = r.slot.frame := rfl

@[simp] theorem layers_owner (r : RootAndSlot) :
    (layers vv root observe).owner r = r.slot.validator := rfl

@[simp] theorem layers_root (r : RootAndSlot) :
    (layers vv root observe).root r ↔ root r := Iff.rfl

def Subject (G : Layers RootAndSlot ValidatorID) (base : Nat) (s : ValidatorID)
    (hash : EventID) : Prop :=
  ∃ r a, G.root r ∧ G.Prior r a ∧ G.level a = base ∧ G.owner a = s ∧ a.id = hash

variable {s : ValidatorID} {observed done : List RootAndSlot} {a r : RootAndSlot}
  {p : RootAndSlot → Prop} {c : WeightCounter} {el : Election}

theorem subject_unique {G : Layers RootAndSlot ValidatorID} {base : Nat} (sound : G.Sound base)
    {left right : EventID} (atLeft : Subject G base s left) (atRight : Subject G base s right) :
    left = right := by
  obtain ⟨r, a, isRoot, prior, level, owner, rfl⟩ := atLeft
  obtain ⟨r', a', isRoot', prior', level', owner', rfl⟩ := atRight
  rw [sound.single r r' a a' isRoot isRoot' prior prior' (level.trans level'.symm)
    (owner.trans owner'.symm)]

structure VoteIs (G : Layers RootAndSlot ValidatorID) (base : Nat) (r : RootAndSlot)
    (s : ValidatorID) (v : VoteValue) : Prop where
  yes : v.yes = true ↔ G.Vote base s r
  hash : v.yes = true → Subject G base s v.observedRoot
  blank : v.yes = false → v.observedRoot = 0
  decided : v.decided = true ↔ G.DecidesYes base s r ∨ G.DecidesNo base s r

variable {base : Nat} (sound : (layers vv root observe).Sound base)

theorem rootsMap_some (found : Election.rootsMap observed s = some a) :
    a ∈ observed ∧ a.slot.validator = s := by
  have member := List.mem_of_find?_eq_some found
  have hit := List.find?_some found
  exact ⟨List.mem_reverse.mp member, beq_iff_eq.mp hit⟩

theorem rootsMap_none (missing : Election.rootsMap observed s = none) :
    ∀ a ∈ observed, a.slot.validator ≠ s := by
  intro a member same
  have none := List.find?_eq_none.mp missing a (List.mem_reverse.mpr member)
  exact none (beq_iff_eq.mpr same)

theorem firstVote_is (isRoot : root r) (first : r.slot.frame = base + 1)
    (prior : ∀ a, a ∈ observed ↔ (layers vv root observe).Prior r a) :
    VoteIs (layers vv root observe) base r s
      (Election.firstVote (Election.rootsMap observed) s) := by
  have early : ¬ base + 2 ≤ (layers vv root observe).level r := by
    rw [layers_level]
    omega
  have undecided : (layers vv root observe).DecidesYes base s r ∨
      (layers vv root observe).DecidesNo base s r ↔ False := by
    constructor
    · rintro (yes | no)
      · exact early yes.1
      · exact early no.1
    · exact False.elim
  have vote := Layers.vote_first (G := layers vv root observe) (s := s) (r := r) first
  unfold Election.firstVote
  cases found : Election.rootsMap observed s with
  | some a =>
    obtain ⟨member, owner⟩ := rootsMap_some found
    have below := (prior a).mp member
    refine ⟨by simpa using vote.mpr ⟨a, below, owner⟩, fun _ => ?_, by simp,
      by simp [undecided]⟩
    refine ⟨r, a, isRoot, below, ?_, owner, rfl⟩
    have step := below.2.1
    simp only [layers_level] at step ⊢
    omega
  | none =>
    refine ⟨?_, by simp, fun _ => rfl, by simp [undecided]⟩
    simp only [Bool.false_eq_true, false_iff, vote]
    rintro ⟨a, below, owner⟩
    exact rootsMap_none found a ((prior a).mpr below) owner

structure TallyOf (vv : Validators) (G : Layers RootAndSlot ValidatorID) (base : Nat)
    (s : ValidatorID) (done : List RootAndSlot) (t : Election.Tally) : Prop where
  yes : ∃ counted, Counted t.yesVotes vv counted ∧
    ∀ m, m ∈ counted ↔ ∃ a ∈ done, G.owner a = m ∧ G.Vote base s a
  no : ∃ counted, Counted t.noVotes vv counted ∧
    ∀ m, m ∈ counted ↔ ∃ a ∈ done, G.owner a = m ∧ ¬ G.Vote base s a
  all : ∃ counted, Counted t.allVotes vv counted ∧
    ∀ m, m ∈ counted ↔ ∃ a ∈ done, G.owner a = m
  hash : ∀ h, t.subjectHash = some h → Subject G base s h
  present : (∃ a ∈ done, G.Vote base s a) → t.subjectHash.isSome

theorem newTally_of (el : Election) (G : Layers RootAndSlot ValidatorID) (s : ValidatorID) :
    TallyOf el.validators G base s [] (Election.newTally el) where
  yes := ⟨∅, newCounter_counted _, by simp⟩
  no := ⟨∅, newCounter_counted _, by simp⟩
  all := ⟨∅, newCounter_counted _, by simp⟩
  hash := by simp [Election.newTally]
  present := by simp

theorem counted_step (listed : a.slot.validator ∈ vv.sortedIDs)
    (before : ∃ counted, Counted c vv counted ∧ ∀ m, m ∈ counted ↔ ∃ b ∈ done, b.slot.validator =
      m ∧ p b)
    (holds : p a) : ∃ counted, Counted (c.count a.slot.validator).2 vv counted ∧
      ∀ m, m ∈ counted ↔ ∃ b ∈ a :: done, b.slot.validator = m ∧ p b := by
  obtain ⟨counted, exact, members⟩ := before
  refine ⟨insert a.slot.validator counted, count_counted exact listed, fun m => ?_⟩
  rw [Finset.mem_insert, members]
  simp only [List.mem_cons, exists_eq_or_imp]
  constructor
  · rintro (rfl | old)
    · exact Or.inl ⟨rfl, holds⟩
    · exact Or.inr old
  · rintro (⟨rfl, _⟩ | old)
    · exact Or.inl rfl
    · exact Or.inr old

theorem counted_skip
    (before : ∃ counted, Counted c vv counted ∧ ∀ m, m ∈ counted ↔ ∃ b ∈ done, b.slot.validator =
      m ∧ p b)
    (fails : ¬ p a) : ∃ counted, Counted c vv counted ∧
      ∀ m, m ∈ counted ↔ ∃ b ∈ a :: done, b.slot.validator = m ∧ p b := by
  obtain ⟨counted, exact, members⟩ := before
  refine ⟨counted, exact, fun m => ?_⟩
  rw [members]
  simp [fails]

include sound

theorem tallyVote_of {t : Election.Tally} {v : VoteValue}
    (before : TallyOf vv (layers vv root observe) base s done t) (isRoot : root a)
    (stored : el.votes.lookup ⟨a, s⟩ = some v) (vote : VoteIs (layers vv root observe) base a s v)
    (fresh : ∀ b ∈ done, b.slot.validator ≠ a.slot.validator) :
    ∃ t', Election.tallyVote el s t a = .ok t' ∧
      TallyOf vv (layers vv root observe) base s (a :: done) t' := by
  have listed : a.slot.validator ∈ vv.sortedIDs := mem_group.mp (sound.owned a isRoot)
  obtain ⟨counted, exact, members⟩ := before.all
  have notCounted : a.slot.validator ∉ counted := by simp_all
  obtain ⟨first, counts⟩ := count_fresh exact listed notCounted
  have all : ∃ counted, Counted (t.allVotes.count a.slot.validator).2 vv counted ∧
      ∀ m, m ∈ counted ↔ ∃ b ∈ a :: done, (layers vv root observe).owner b = m := by
    obtain ⟨c, has, mem⟩ := counted_step (p := fun _ => True) listed
      ⟨counted, exact, by simpa only [layers_owner, and_true] using members⟩ trivial
    exact ⟨c, has, by simpa only [layers_owner, and_true] using mem⟩
  -- The error branch needs two different observed subjects, which soundness excludes.
  have noFork : ∀ h, t.subjectHash = some h → ¬ (v.yes = true ∧ h ≠ v.observedRoot) := by
    rintro h same ⟨yes, different⟩
    exact different (subject_unique sound (before.hash h same) (vote.hash yes))
  have add : Election.tallyVote el s t a = Election.tallyVote.addVote el s t a v := by
    unfold Election.tallyVote
    simp only [stored]
    cases hash : t.subjectHash with
    | none => rfl
    | some h => simp only [noFork h hash, ↓reduceIte]
  rw [add]
  unfold Election.tallyVote.addVote
  by_cases yes : v.yes = true
  · have voted := vote.yes.mp yes
    simp only [yes, ↓reduceIte, first]
    refine ⟨_, rfl, counted_step listed before.yes voted,
      counted_skip before.no (not_not.mpr voted), all, ?_, by simp⟩
    intro h same
    cases same
    exact vote.hash yes
  · have refused : ¬ (layers vv root observe).Vote base s a := fun voted => yes (vote.yes.mpr voted)
    simp only [yes, Bool.false_eq_true, ↓reduceIte, first]
    refine ⟨_, rfl, counted_skip before.yes refused, counted_step listed before.no refused,
      all, before.hash, ?_⟩
    rintro ⟨b, member, voted⟩
    rcases List.mem_cons.mp member with rfl | old
    · exact absurd voted refused
    · exact before.present ⟨b, old, voted⟩

theorem tallyVotes_of (isRoot : root r) : ∀ (rest done : List RootAndSlot) (t : Election.Tally),
      TallyOf vv (layers vv root observe) base s done t → (rest ++ done).Nodup →
      (∀ a ∈ rest ++ done, (layers vv root observe).Prior r a) →
      (∀ a ∈ rest, ∃ v, el.votes.lookup ⟨a, s⟩ = some v ∧
        VoteIs (layers vv root observe) base a s v) →
      ∃ t', Election.tallyVotes el s rest t = .ok t' ∧
        TallyOf vv (layers vv root observe) base s (rest.reverse ++ done) t' := by
  intro rest
  induction rest with
  | nil => intro done t before _ _ _; exact ⟨t, rfl, before⟩
  | cons a rest ih =>
    intro done t before nodup prior votes
    obtain ⟨v, stored, vote⟩ := votes a List.mem_cons_self
    have below := prior a (by simp)
    have fresh : ∀ b ∈ done, b.slot.validator ≠ a.slot.validator := by
      intro b member owner
      have belowB := prior b (by simp [member])
      have same : b = a := sound.single r r b a isRoot isRoot belowB below
        (by have := below.2.1; have := belowB.2.1; omega) owner
      subst b
      simp [List.nodup_append, List.nodup_cons] at nodup
      exact nodup.1.2 member
    obtain ⟨t', step, after⟩ :=
      tallyVote_of sound before below.1 stored vote fresh
    obtain ⟨t'', run, final⟩ := ih (a :: done) t' after
      (List.perm_middle.nodup_iff.mpr nodup)
      (fun b member => prior b (List.perm_middle.mem_iff.mp member))
      (fun b member => votes b (List.mem_cons_of_mem a member))
    refine ⟨t'', by simp [Election.tallyVotes, step, run], ?_⟩
    simpa using final

theorem majorityVote_is (group : el.validators = vv) (isRoot : root r)
    (later : base + 2 ≤ r.slot.frame) (nodup : observed.Nodup)
    (prior : ∀ a, a ∈ observed ↔ (layers vv root observe).Prior r a)
    (votes : ∀ a ∈ observed, ∃ v, el.votes.lookup ⟨a, s⟩ = some v ∧
      VoteIs (layers vv root observe) base a s v) :
    ∃ v, Election.majorityVote observed el s = .ok v ∧
      VoteIs (layers vv root observe) base r s v := by
  subst vv
  obtain ⟨t, run, tally⟩ := tallyVotes_of sound isRoot observed [] _
    (newTally_of el (layers el.validators root observe) s) (by simpa using nodup)
    (fun a member => (prior a).mp (by simpa using member)) votes
  have reach : ∀ {p : RootAndSlot → Prop} {m : ValidatorID},
      (∃ a ∈ observed.reverse ++ [], a.slot.validator = m ∧ p a) ↔
      m ∈ (layers el.validators root observe).backing p r := by
    intro p m
    rw [Layers.mem_backing]
    simp only [List.append_nil, List.mem_reverse]
    constructor
    · rintro ⟨a, member, owner, holds⟩
      have below := (prior a).mp member
      exact ⟨owner ▸ sound.owned a below.1, a, below, owner, holds⟩
    · simp_all
  obtain ⟨yesSet, yesCount, yesMem⟩ := tally.yes
  obtain ⟨noSet, noCount, noMem⟩ := tally.no
  obtain ⟨allSet, allCount, allMem⟩ := tally.all
  have yesEq : yesSet = (layers el.validators root observe).backing
      ((layers el.validators root observe).Vote base s) r := by
    ext m; rw [yesMem]; exact reach
  have noEq : noSet = (layers el.validators root observe).backing
      (fun a => ¬ (layers el.validators root observe).Vote base s a) r := by
    ext m; rw [noMem]; exact reach
  have allEq : allSet = (layers el.validators root observe).seen r := by
    ext m
    rw [allMem, Layers.seen_eq_backing, ← reach]
    simp only [layers_owner, and_true]
  subst yesEq noEq allEq
  have quorum : t.allVotes.hasQuorum = true :=
    (hasQuorum_iff allCount).mpr (sound.covered r isRoot (by rw [layers_level]; omega))
  have vote := Layers.vote_next (G := layers el.validators root observe) (s := s)
    (r := r) later
  have yes : decide (t.noVotes.sum ≤ t.yesVotes.sum) = true ↔
      (layers el.validators root observe).Vote base s r := by
    rw [decide_eq_true_iff, yesCount.sum, noCount.sum, vote]
    rfl
  refine ⟨{ decided := t.yesVotes.hasQuorum || t.noVotes.hasQuorum
            yes := decide (t.noVotes.sum ≤ t.yesVotes.sum)
            observedRoot := if decide (t.noVotes.sum ≤ t.yesVotes.sum)
              then t.subjectHash.getD 0 else 0 },
    by simp only [Election.majorityVote, run, quorum, ↓reduceIte], yes, ?_,
    fun no => if_neg (Bool.eq_false_iff.mp no), ?_⟩
  · intro holds
    have some : ∃ a ∈ observed.reverse ++ [],
        (layers el.validators root observe).Vote base s a := by
      by_contra none
      push Not at none
      have empty : (layers el.validators root observe).backing
          ((layers el.validators root observe).Vote base s) r = ∅ := by
        apply Finset.eq_empty_of_forall_notMem
        intro m member
        obtain ⟨a, inside, _, votes⟩ := reach.mpr member
        exact none a inside votes
      have split := Layers.backing_split sound
        ((layers el.validators root observe).Vote base s) isRoot
      have covered := sound.covered r isRoot (by rw [layers_level]; omega)
      have positive := Layers.bound_pos sound
      have majority := vote.mp (yes.mp holds)
      rw [empty, mass_empty] at split majority
      omega
    obtain ⟨h, hash⟩ := Option.isSome_iff_exists.mp (tally.present some)
    have majority : decide (t.noVotes.sum ≤ t.yesVotes.sum) = true := holds
    simp only [majority, ↓reduceIte, hash, Option.getD_some]
    exact tally.hash h hash
  · rw [Bool.or_eq_true, hasQuorum_iff yesCount, hasQuorum_iff noCount]
    unfold Layers.DecidesYes Layers.DecidesNo
    constructor
    · rintro (heavy | heavy)
      · exact Or.inl ⟨later, heavy⟩
      · exact Or.inr ⟨later, heavy⟩
    · rintro (heavy | heavy)
      · exact Or.inl heavy.2
      · exact Or.inr heavy.2

end Votes

structure Cast (G : Layers RootAndSlot ValidatorID) (base : Nat) (newRoot : RootAndSlot)
    (subjects : List ValidatorID) (el el' : Election) : Prop where
  frame : el'.frameToDecide = el.frameToDecide
  group : el'.validators = el.validators
  others : ∀ r s, r ≠ newRoot → el'.votes.lookup ⟨r, s⟩ = el.votes.lookup ⟨r, s⟩
  outside : ∀ s, s ∉ subjects →
    el'.votes.lookup ⟨newRoot, s⟩ = el.votes.lookup ⟨newRoot, s⟩ ∧
      el'.decidedRoots.lookup s = el.decidedRoots.lookup s
  inside : ∀ s ∈ subjects, ∃ v, el'.votes.lookup ⟨newRoot, s⟩ = some v ∧
    VoteIs G base newRoot s v ∧
    el'.decidedRoots.lookup s = if v.decided then some v else el.decidedRoots.lookup s

variable {G : Layers RootAndSlot ValidatorID}

theorem castVotes_cast (base : Nat)
    {ballot : Election → ValidatorID → Except ElectionError VoteValue} {newRoot : RootAndSlot}
    (el : Election)
    (ballots : ∀ el' s, el'.validators = el.validators →
      (∀ r s, r ≠ newRoot → el'.votes.lookup ⟨r, s⟩ = el.votes.lookup ⟨r, s⟩) →
      s ∈ el.validators.sortedIDs → el.decidedRoots.lookup s = none → ∃ v, ballot el' s = .ok v ∧
      VoteIs G base newRoot s v) :
    ∀ (subjects : List ValidatorID) (now : Election), subjects.Nodup →
      (∀ s ∈ subjects, s ∈ el.validators.sortedIDs ∧ el.decidedRoots.lookup s = none) →
      now.validators = el.validators →
      (∀ r s, r ≠ newRoot → now.votes.lookup ⟨r, s⟩ = el.votes.lookup ⟨r, s⟩) →
      ∃ el', Election.castVotes ballot newRoot subjects now = (el', none) ∧
        Cast G base newRoot subjects now el' := by
  intro subjects
  induction subjects with
  | nil =>
    intro now _ _ _ _
    exact ⟨now, rfl, rfl, rfl, fun _ _ _ => rfl, fun _ _ => ⟨rfl, rfl⟩, by simp⟩
  | cons subject rest ih =>
    intro now nodup open' group others
    obtain ⟨listed, undecided⟩ := open' subject List.mem_cons_self
    obtain ⟨v, ballotOk, vote⟩ := ballots now subject group others listed undecided
    obtain ⟨fresh, tailNodup⟩ := List.nodup_cons.mp nodup
    let next : Election :=
      { now with
        decidedRoots := if v.decided then now.decidedRoots.insert subject v
          else now.decidedRoots
        votes := now.votes.insert ⟨newRoot, subject⟩ v }
    have nextOthers : ∀ r s, r ≠ newRoot →
        next.votes.lookup ⟨r, s⟩ = el.votes.lookup ⟨r, s⟩ := by
      intro r s different
      have key : (⟨r, s⟩ : VoteID) ≠ ⟨newRoot, subject⟩ := by grind
      rw [← others r s different]
      exact AList.lookup_insert_ne key
    obtain ⟨el', run, cast⟩ := ih next tailNodup
      (fun s member => open' s (List.mem_cons_of_mem _ member)) group nextOthers
    have decidedNext : ∀ s, s ≠ subject →
        next.decidedRoots.lookup s = now.decidedRoots.lookup s := by
      intro s different
      by_cases decided : v.decided = true
      · simp [next, decided, AList.lookup_insert_ne different]
      · simp [next, decided]
    have votesNext : ∀ s, s ≠ subject →
        next.votes.lookup ⟨newRoot, s⟩ = now.votes.lookup ⟨newRoot, s⟩ := by
      intro s different
      have key : (⟨newRoot, s⟩ : VoteID) ≠ ⟨newRoot, subject⟩ := by grind
      exact AList.lookup_insert_ne key
    refine ⟨el', by simpa [Election.castVotes, ballotOk] using run, cast.frame, cast.group,
      ?_, ?_, ?_⟩
    · intro r s different
      rw [cast.others r s different, nextOthers r s different, others r s different]
    · intro s missing
      have different : s ≠ subject := fun same => missing (same ▸ List.mem_cons_self)
      obtain ⟨votes, decided⟩ :=
        cast.outside s (fun member => missing (List.mem_cons_of_mem _ member))
      exact ⟨votes.trans (votesNext s different), decided.trans (decidedNext s different)⟩
    · intro s member
      rcases List.mem_cons.mp member with rfl | later
      · obtain ⟨votes, decided⟩ := cast.outside s fresh
        refine ⟨v, votes.trans (AList.lookup_insert _), vote, decided.trans ?_⟩
        by_cases isDecided : v.decided = true
        · simp [next, isDecided]
        · simp [next, isDecided]
      · have different : s ≠ subject := fun same => fresh (same ▸ later)
        obtain ⟨v', votes, is, decided⟩ := cast.inside s later
        exact ⟨v', votes, is, by rw [decided, decidedNext s different]⟩

/-- The election state after the roots of `fed`, in terms of the virtual votes. -/
structure Tracks (vv : Validators) (G : Layers RootAndSlot ValidatorID) (base : Nat)
    (fed : RootAndSlot → Prop) (el : Election) : Prop where
  group : el.validators = vv
  frame : el.frameToDecide = base
  fedRoot : ∀ r, fed r → G.root r
  votesSound : ∀ r s v, el.votes.lookup ⟨r, s⟩ = some v → fed r ∧ VoteIs G base r s v
  votesComplete : ∀ r s, fed r → base < G.level r → s ∈ vv.sortedIDs →
    (el.decidedRoots.lookup s).isSome ∨ (el.votes.lookup ⟨r, s⟩).isSome
  decidedSound : ∀ s v, el.decidedRoots.lookup s = some v →
    s ∈ vv.sortedIDs ∧ v.decided = true ∧ ∃ r, fed r ∧ VoteIs G base r s v
  decidedComplete : ∀ r s, fed r → s ∈ vv.sortedIDs →
    G.DecidesYes base s r ∨ G.DecidesNo base s r → (el.decidedRoots.lookup s).isSome

theorem reset_tracks (vv : Validators) (G : Layers RootAndSlot ValidatorID) (base : Nat) :
    Tracks vv G base (fun _ => False) (Election.reset vv base) where
  group := rfl
  frame := rfl
  fedRoot := fun _ => False.elim
  votesSound := by simp [Election.reset]
  votesComplete := fun _ _ => False.elim
  decidedSound := by simp [Election.reset]
  decidedComplete := fun _ _ => False.elim

theorem notDecidedRoots_tracks {vv : Validators} {base : Nat} {fed : RootAndSlot → Prop}
    {el : Election} (tracks : Tracks vv G base fed el) : Election.notDecidedRoots el =
      .ok (vv.sortedIDs.filter fun v => (el.decidedRoots.lookup v).isNone) := by
  have nodup : vv.sortedIDs.Nodup := vv.distinct
  have decided : (vv.sortedIDs.filter fun v => !(el.decidedRoots.lookup v).isNone).Perm
      el.decidedRoots.keys := by
    rw [List.perm_ext_iff_of_nodup (nodup.filter _) el.decidedRoots.keys_nodup]
    intro v
    rw [List.mem_filter, ← AList.mem_keys, ← AList.lookup_isSome]
    constructor
    · rintro ⟨_, found⟩
      simpa using found
    · intro found
      obtain ⟨vote, same⟩ := Option.isSome_iff_exists.mp found
      exact ⟨(tracks.decidedSound v vote same).1, by simpa using found⟩
  have parts := List.length_eq_length_filter_add (l := vv.sortedIDs)
    fun v => (el.decidedRoots.lookup v).isNone
  have length : vv.sortedIDs.length = vv.len := List.length_map _
  have sizes := decided.length_eq
  simp only [Election.notDecidedRoots, tracks.group]
  rw [if_neg]
  omega

end Lachesis.Abft
