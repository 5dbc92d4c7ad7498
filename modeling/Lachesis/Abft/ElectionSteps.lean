import Lachesis.Abft.ElectionVotes

/-!
One call of `processRoot`, and what `chooseAtropos` answers, for an election that tracks
the virtual votes. The callbacks may keep caches; all that is asked of them is that they
answer according to the graph and keep doing so.
-/

namespace Lachesis.Abft

open Dag Pos WeightedQuorum VirtualVoting

variable {World : Type} {vv : Validators} {root : RootAndSlot → Prop}
  {observe : EventID → EventID → Prop}

/-- The callbacks answer according to the graph, on the roots known by now. -/
structure Serves (x : Externals World) (Good : World → Prop)
    (observe : EventID → EventID → Prop) (known : RootAndSlot → Prop) : Prop where
  roots : ∀ w frame, Good w → ∃ found w', x.getFrameRoots w frame = .ok (found, w') ∧
    Good w' ∧ found.Nodup ∧ ∀ a, a ∈ found ↔ known a ∧ a.slot.frame = frame
  observe : ∀ w r a, Good w → known r → known a →
    ∃ hit w', x.observe w r.id a.id = .ok (hit, w') ∧ Good w' ∧
      (hit = true ↔ observe r.id a.id)

variable {x : Externals World} {Good : World → Prop} {known : RootAndSlot → Prop}

variable {r newRoot : RootAndSlot} {w : World} {el : Election} {base : Nat}
  {fed : RootAndSlot → Prop} {G : Layers RootAndSlot ValidatorID} {a : EventID}

theorem collectObserved_serves (serves : Serves x Good observe known) (knownRoot : known r) :
    ∀ (frameRoots : List RootAndSlot) (w : World), Good w → (∀ a ∈ frameRoots, known a) →
      ∃ observed w', Election.collectObserved x r.id frameRoots w = .ok (observed, w') ∧
        Good w' ∧ observed.Sublist frameRoots ∧
        ∀ a, a ∈ observed ↔ a ∈ frameRoots ∧ observe r.id a.id := by
  intro frameRoots
  induction frameRoots with
  | nil => intro w good _; exact ⟨[], w, rfl, good, List.Sublist.refl _, by simp⟩
  | cons frameRoot rest ih =>
    intro w good all
    obtain ⟨hit, w', asked, good', answer⟩ :=
      serves.observe w r frameRoot good knownRoot (all frameRoot List.mem_cons_self)
    obtain ⟨observed, w'', run, good'', sub, members⟩ :=
      ih w' good' (fun a member => all a (List.mem_cons_of_mem _ member))
    refine ⟨if hit then frameRoot :: observed else observed, w'', ?_, good'', ?_, ?_⟩
    · simp [Election.collectObserved, asked, run, bind, Except.bind, pure, Except.pure]
    · split
      · exact sub.cons_cons _
      · exact sub.cons _
    · grind

theorem observedRoots_serves (serves : Serves x Good observe known)
    (knownRoots : ∀ a, known a → root a) (knownRoot : known r)
    (closed : ∀ a, (layers vv root observe).Prior r a → known a) (good : Good w)
    (positive : 0 < r.slot.frame) :
    ∃ observed w', Election.observedRoots x w r.id (r.slot.frame - 1) = .ok (observed, w') ∧
      Good w' ∧ observed.Nodup ∧
      ∀ a, a ∈ observed ↔ (layers vv root observe).Prior r a := by
  obtain ⟨found, w', asked, good', nodup, members⟩ := serves.roots w (r.slot.frame - 1) good
  obtain ⟨observed, w'', run, good'', sub, answer⟩ :=
    collectObserved_serves serves knownRoot found w' good' fun a member => ((members a).mp member).1
  refine ⟨observed, w'', by simp [Election.observedRoots, asked, run, bind, Except.bind],
    good'', nodup.sublist sub, fun a => ?_⟩
  rw [answer, members]
  constructor
  · rintro ⟨⟨isKnown, frame⟩, sees⟩
    refine ⟨knownRoots a isKnown, ?_, sees⟩
    simp only [layers_level]
    omega
  · intro prior
    refine ⟨⟨closed a prior, ?_⟩, prior.2.2⟩
    have level := prior.2.1
    simp only [layers_level] at level
    omega

theorem castRound_tracks (tracks : Tracks vv (layers vv root observe) base fed el)
    (isRoot : root newRoot) (ballot : Election → ValidatorID → Except ElectionError VoteValue)
    (ballots : ∀ el' s, el'.validators = el.validators →
      (∀ r s, r ≠ newRoot → el'.votes.lookup ⟨r, s⟩ = el.votes.lookup ⟨r, s⟩) →
      s ∈ el.validators.sortedIDs → el.decidedRoots.lookup s = none → ∃ v, ballot el' s = .ok v ∧
      VoteIs (layers vv root observe) base newRoot s v) :
    ∃ el', Election.castRound ballot newRoot
        (vv.sortedIDs.filter fun v => (el.decidedRoots.lookup v).isNone) el =
        (Election.chooseAtropos el', el') ∧
      Tracks vv (layers vv root observe) base (fun r => fed r ∨ r = newRoot) el' := by
  have nodup : vv.sortedIDs.Nodup := vv.distinct
  have subjects : ∀ s ∈ vv.sortedIDs.filter fun v => (el.decidedRoots.lookup v).isNone,
      s ∈ el.validators.sortedIDs ∧ el.decidedRoots.lookup s = none := by
    intro s member
    obtain ⟨listed, undecided⟩ := List.mem_filter.mp member
    exact ⟨tracks.group ▸ listed, by simpa using undecided⟩
  obtain ⟨el', run, cast⟩ := castVotes_cast base el ballots _ el (nodup.filter _)
    subjects rfl fun _ _ _ => rfl
  have member : ∀ s, s ∈ vv.sortedIDs → el.decidedRoots.lookup s = none →
      s ∈ vv.sortedIDs.filter fun v => (el.decidedRoots.lookup v).isNone := by
    intro s listed undecided
    exact List.mem_filter.mpr ⟨listed, by simp [undecided]⟩
  have keeps : ∀ s v, el.decidedRoots.lookup s = some v →
      el'.decidedRoots.lookup s = some v := by
    intro s v decided
    rw [← decided]
    refine (cast.outside s ?_).2
    intro inside
    simp [(subjects s inside).2] at decided
  have keepsSome : ∀ s, (el.decidedRoots.lookup s).isSome →
      (el'.decidedRoots.lookup s).isSome := by
    intro s decided
    obtain ⟨v, same⟩ := Option.isSome_iff_exists.mp decided
    simp [keeps s v same]
  refine ⟨el', by simp [Election.castRound, run], cast.group.trans tracks.group,
    cast.frame.trans tracks.frame, ?_, ?_, ?_, ?_, ?_⟩
  · rintro r (old | rfl)
    · exact tracks.fedRoot r old
    · exact isRoot
  · intro r s v stored
    by_cases same : r = newRoot
    · subst r
      by_cases inside : s ∈ vv.sortedIDs.filter fun v => (el.decidedRoots.lookup v).isNone
      · obtain ⟨v', stored', vote, _⟩ := cast.inside s inside
        rw [stored'] at stored
        cases stored
        exact ⟨Or.inr rfl, vote⟩
      · rw [(cast.outside s inside).1] at stored
        obtain ⟨_, vote⟩ := tracks.votesSound newRoot s v stored
        exact ⟨Or.inr rfl, vote⟩
    · rw [cast.others r s same] at stored
      obtain ⟨old, vote⟩ := tracks.votesSound r s v stored
      exact ⟨Or.inl old, vote⟩
  · rintro r s isFed above listed
    by_cases same : r = newRoot
    · subst r
      cases undecided : el.decidedRoots.lookup s with
      | some v => exact Or.inl (keepsSome s (by simp [undecided]))
      | none =>
        obtain ⟨v, stored, _⟩ := cast.inside s (member s listed undecided)
        exact Or.inr (by simp [stored])
    · have old : fed r := isFed.resolve_right same
      rcases tracks.votesComplete r s old above listed with decided | stored
      · exact Or.inl (keepsSome s decided)
      · exact Or.inr (by rwa [cast.others r s same])
  · intro s v decided
    by_cases inside : s ∈ vv.sortedIDs.filter fun v => (el.decidedRoots.lookup v).isNone
    · obtain ⟨v', _, vote, result⟩ := cast.inside s inside
      rw [decided, (subjects s inside).2] at result
      by_cases isDecided : v'.decided = true
      · grind
      · simp [isDecided] at result
    · rw [(cast.outside s inside).2] at decided
      obtain ⟨listed, isDecided, r, isFed, vote⟩ := tracks.decidedSound s v decided
      exact ⟨listed, isDecided, r, Or.inl isFed, vote⟩
  · rintro r s isFed listed decides
    by_cases same : r = newRoot
    · subst r
      cases undecided : el.decidedRoots.lookup s with
      | some v => exact keepsSome s (by simp [undecided])
      | none =>
        obtain ⟨v, _, vote, result⟩ := cast.inside s (member s listed undecided)
        rw [result, if_pos (vote.decided.mpr decides)]
        rfl
    · exact keepsSome s (tracks.decidedComplete r s (isFed.resolve_right same) listed decides)

/-- One call on an undecided election: the root is fed, and the answer is the choice
among the subjects decided by then. -/
theorem processRoot_tracks (sound : (layers vv root observe).Sound base)
    (serves : Serves x Good observe known) (knownRoots : ∀ a, known a → root a)
    (isKnown : known newRoot) (closed : ∀ a, (layers vv root observe).Prior newRoot a → known a)
    (tracks : Tracks vv (layers vv root observe) base fed el)
    (fedPrior : ∀ a, (layers vv root observe).Prior newRoot a → base < a.slot.frame → fed a)
    (good : Good w) (undecided : Election.chooseAtropos el = .ok none) :
    ∃ el' w', Election.processRoot x w el newRoot =
        .ok (Election.chooseAtropos el', el', w') ∧ Good w' ∧
      Tracks vv (layers vv root observe) base (fun r => fed r ∨ r = newRoot) el' := by
  have isRoot := knownRoots newRoot isKnown
  by_cases old : newRoot.slot.frame ≤ base
  · refine ⟨el, w, ?_, good, ?_⟩
    · simp [Election.processRoot, undecided, tracks.frame, old]
    · refine ⟨tracks.group, tracks.frame, ?_, ?_, ?_, ?_, ?_⟩
      · rintro r (isFed | rfl)
        · exact tracks.fedRoot r isFed
        · exact isRoot
      · intro r s v stored
        obtain ⟨isFed, vote⟩ := tracks.votesSound r s v stored
        exact ⟨Or.inl isFed, vote⟩
      · rintro r s (isFed | rfl) above listed
        · exact tracks.votesComplete r s isFed above listed
        · simp only [layers_level] at above
          omega
      · intro s v decided
        obtain ⟨listed, isDecided, r, isFed, vote⟩ := tracks.decidedSound s v decided
        exact ⟨listed, isDecided, r, Or.inl isFed, vote⟩
      · rintro r s (isFed | rfl) listed decides
        · exact tracks.decidedComplete r s isFed listed decides
        · rcases decides with decides | decides <;>
          · have above := decides.1
            simp only [layers_level] at above
            omega
  · obtain ⟨observed, w', asked, good', nodup, prior⟩ :=
      observedRoots_serves serves knownRoots isKnown closed good (by omega)
    have subjects := notDecidedRoots_tracks tracks
    by_cases first : newRoot.slot.frame - base = 1
    · obtain ⟨el', cast, tracks'⟩ := castRound_tracks tracks isRoot
        (fun _ s => .ok (Election.firstVote (Election.rootsMap observed) s))
        fun _ s _ _ _ _ => ⟨_, rfl, firstVote_is isRoot (by omega) prior⟩
      refine ⟨el', w', ?_, good', tracks'⟩
      simp [Election.processRoot, undecided, tracks.frame, old, subjects, first,
        Election.observedRootsMap, asked, cast, bind, Except.bind, pure, Except.pure]
    · obtain ⟨el', cast, tracks'⟩ := castRound_tracks tracks isRoot
        (Election.majorityVote observed) (by
          intro now s group others listed open'
          apply majorityVote_is sound (group.trans tracks.group) isRoot (by omega) nodup prior
          intro a member
          have below := (prior a).mp member
          have level := below.2.1
          simp only [layers_level] at level
          have different : a ≠ newRoot := by
            rintro rfl
            omega
          rw [others a s different]
          rcases tracks.votesComplete a s (fedPrior a below (by omega))
            (by simp only [layers_level]; omega) (tracks.group ▸ listed) with decided | stored
          · simp [open'] at decided
          · obtain ⟨v, same⟩ := Option.isSome_iff_exists.mp stored
            exact ⟨v, same, (tracks.votesSound a s v same).2⟩)
      refine ⟨el', w', ?_, good', tracks'⟩
      simp [Election.processRoot, undecided, tracks.frame, old, subjects, first,
        asked, cast, bind, Except.bind, pure, Except.pure]

theorem processRoot_decided {res : Res} (decided : Election.chooseAtropos el = .ok (some res)) :
    Election.processRoot x w el newRoot = .ok (.ok (some res), el, w) := by
  simp [Election.processRoot, decided]

/-- The roots of `fed` elect `atropos`: the first subject not decided "no" is decided
"yes", and this is its observed root. -/
def Elected (vv : Validators) (G : Layers RootAndSlot ValidatorID) (base : Nat)
    (fed : RootAndSlot → Prop) (atropos : EventID) : Prop :=
  ∃ before s after, vv.sortedIDs = before ++ s :: after ∧
    (∀ m ∈ before, ∃ r, fed r ∧ G.DecidesNo base m r) ∧
    (∃ r, fed r ∧ G.DecidesYes base s r) ∧ Subject G base s atropos

theorem elected_mono {small large : RootAndSlot → Prop} (grows : ∀ r, small r → large r)
    (elected : Elected vv G base small a) : Elected vv G base large a := by
  obtain ⟨before, s, after, split, noes, ⟨r, isFed, yes⟩, subject⟩ := elected
  refine ⟨before, s, after, split, fun m member => ?_, ⟨r, grows r isFed, yes⟩, subject⟩
  obtain ⟨q, fedQ, no⟩ := noes m member
  exact ⟨q, grows q fedQ, no⟩

theorem elected_unique (sound : G.Sound base) {left right : RootAndSlot → Prop}
    (leftRoots : ∀ r, left r → G.root r) (rightRoots : ∀ r, right r → G.root r) {b : EventID}
    (atLeft : Elected vv G base left a) (atRight : Elected vv G base right b) : a = b := by
  obtain ⟨before, s, after, split, noes, ⟨r, fedR, yes⟩, subject⟩ := atLeft
  obtain ⟨before', s', after', split', noes', ⟨r', fedR', yes'⟩, subject'⟩ := atRight
  have same : s = s' := by
    rw [split] at split'
    rcases List.append_eq_append_iff.mp split' with ⟨gap, rfl, rest⟩ | ⟨gap, rfl, rest⟩
    · cases gap with
      | nil => simp at rest; exact rest.1
      | cons head gap =>
        simp only [List.cons_append, List.cons.injEq] at rest
        obtain ⟨q, fedQ, no⟩ := noes' s (by simp [rest.1])
        exact (Layers.decisions_agree sound (leftRoots r fedR) (rightRoots q fedQ) yes no).elim
    · cases gap with
      | nil => simp at rest; exact rest.1.symm
      | cons head gap =>
        simp only [List.cons_append, List.cons.injEq] at rest
        obtain ⟨q, fedQ, no⟩ := noes s' (by simp [rest.1])
        exact (Layers.decisions_agree sound (rightRoots r' fedR') (leftRoots q fedQ) yes' no).elim
  subst s'
  exact subject_unique sound subject subject'

section Choice

variable {G : Layers RootAndSlot ValidatorID} {base : Nat} {fed : RootAndSlot → Prop}
  {el : Election}

theorem decided_vote (sound : G.Sound base) (tracks : Tracks vv G base fed el)
    {s : ValidatorID} {v : VoteValue} (decided : el.decidedRoots.lookup s = some v) :
    if v.yes then (∃ r, fed r ∧ G.DecidesYes base s r) ∧ Subject G base s v.observedRoot
    else ∃ r, fed r ∧ G.DecidesNo base s r := by
  obtain ⟨_, isDecided, r, isFed, vote⟩ := tracks.decidedSound s v decided
  have isRoot := tracks.fedRoot r isFed
  by_cases yes : v.yes = true
  · simp only [yes, ↓reduceIte]
    refine ⟨⟨r, isFed, ?_⟩, vote.hash yes⟩
    rcases vote.decided.mp isDecided with decides | decides
    · exact decides
    · exact absurd (vote.yes.mp yes) (Layers.decidesNo_votes sound isRoot decides)
  · simp only [yes, Bool.false_eq_true, ↓reduceIte]
    refine ⟨r, isFed, ?_⟩
    rcases vote.decided.mp isDecided with decides | decides
    · exact absurd (vote.yes.mpr (Layers.decidesYes_votes sound isRoot decides)) yes
    · exact decides

/-- `chooseAtropos` never fails, and answers exactly what the fed roots elect. -/
theorem chooseAtropos_tracks (sound : G.Sound base) (members : G.members = vv.group)
    (positive : 0 < mass G.weight G.members) (tracks : Tracks vv G base fed el) :
    (∃ a, Election.chooseAtropos el = .ok (some ⟨base, a⟩) ∧ Elected vv G base fed a) ∨
      (Election.chooseAtropos el = .ok none ∧ ∀ a, ¬ Elected vv G base fed a) := by
  -- Walk the sorted validators with the subjects already known to be decided "no".
  have walk : ∀ rest before, vv.sortedIDs = before ++ rest →
      (∀ m ∈ before, ∃ r, fed r ∧ G.DecidesNo base m r) →
      (∃ a, Election.chooseAtroposFrom el rest = .ok (some ⟨base, a⟩) ∧
          Elected vv G base fed a) ∨
        (Election.chooseAtroposFrom el rest = .ok none ∧ ∀ a, ¬ Elected vv G base fed a) := by
    intro rest
    induction rest with
    | nil =>
      intro before split noes
      obtain ⟨s, member, never⟩ := Layers.not_all_decidesNo sound positive
      rw [members, mem_group, split, List.append_nil] at member
      obtain ⟨r, isFed, no⟩ := noes s member
      exact absurd no (never r (tracks.fedRoot r isFed))
    | cons s rest ih =>
      intro before split noes
      have listed : s ∈ vv.sortedIDs := by simp [split]
      cases decided : el.decidedRoots.lookup s with
      | none =>
        refine Or.inr ⟨by simp [Election.chooseAtroposFrom, decided], ?_⟩
        rintro a ⟨before', s', after', split', noes', ⟨r', isFed', yes'⟩, _⟩
        have undecided : ∀ r, fed r →
            ¬ (G.DecidesYes base s r ∨ G.DecidesNo base s r) := by
          intro r isFed decides
          have := tracks.decidedComplete r s isFed listed decides
          simp [decided] at this
        rw [split] at split'
        rcases List.append_eq_append_iff.mp split' with
          ⟨gap, rfl, tail⟩ | ⟨gap, rfl, tail⟩
        · cases gap with
          | nil =>
            simp only [List.nil_append, List.cons.injEq] at tail
            exact undecided r' isFed' (Or.inl (tail.1 ▸ yes'))
          | cons head gap =>
            simp only [List.cons_append, List.cons.injEq] at tail
            obtain ⟨q, fedQ, no⟩ := noes' s (by simp [tail.1])
            exact undecided q fedQ (Or.inr no)
        · cases gap with
          | nil =>
            simp only [List.nil_append, List.cons.injEq] at tail
            exact undecided r' isFed' (Or.inl (tail.1 ▸ yes'))
          | cons head gap =>
            simp only [List.cons_append, List.cons.injEq] at tail
            obtain ⟨q, fedQ, no⟩ := noes s' (by simp [tail.1])
            exact Layers.decisions_agree sound (tracks.fedRoot r' isFed')
              (tracks.fedRoot q fedQ) yes' no
      | some v =>
        have meaning := decided_vote sound tracks decided
        by_cases yes : v.yes = true
        · simp only [yes, ↓reduceIte] at meaning
          refine Or.inl ⟨v.observedRoot, ?_, before, s, rest, split, noes, meaning⟩
          simp [Election.chooseAtroposFrom, decided, yes, tracks.frame]
        · simp only [yes, Bool.false_eq_true, ↓reduceIte] at meaning
          have next := ih (before ++ [s]) (by simp [split]) (by
            intro m member
            rcases List.mem_append.mp member with old | new
            · exact noes m old
            · rw [List.mem_singleton.mp new]; exact meaning)
          simpa [Election.chooseAtroposFrom, decided, yes] using next
  have start := walk vv.sortedIDs [] rfl (by simp)
  simpa [Election.chooseAtropos, tracks.group] using start

end Choice

end Lachesis.Abft
