import Lachesis.Abft.ElectionSteps

/-!
Whole runs of an election over a graph of roots. A run feeds roots one by one, each
after the roots it observes, while `getFrameRoots` lists the roots known by then.
Two instances may see different parts of the graph, in different orders.
-/

namespace Lachesis.Abft

open Dag Pos WeightedQuorum VirtualVoting

/-- One call of `processRoot`, with the roots the store lists at that moment. -/
structure Feed where
  newRoot : RootAndSlot
  known : List RootAndSlot

def callbacks (observe : EventID → EventID → Bool) (known : List RootAndSlot) :
    Externals Unit where
  observe := fun _ a b => .ok (observe a b, ())
  getFrameRoots := fun _ frame => .ok (known.filter fun r => r.slot.frame = frame, ())

def feedRoots (observe : EventID → EventID → Bool) :
    Election → List Feed → Except Halt (List Election.Outcome × Election)
  | el, [] => .ok ([], el)
  | el, feed :: rest => do
      let (outcome, el, _) ← Election.processRoot (callbacks observe feed.known) () el feed.newRoot
      let (outcomes, el) ← feedRoots observe el rest
      return (outcome :: outcomes, el)

section Runs

variable (vv : Validators) (root : RootAndSlot → Prop) (observe : EventID → EventID → Bool)
  (frameToDecide : Nat)

def Observes (r a : RootAndSlot) : Prop :=
  root a ∧ a.slot.frame + 1 = r.slot.frame ∧ observe r.id a.id = true

structure RootGraph : Prop where
  listed : ∀ r, root r → r.slot.validator ∈ vv.sortedIDs
  quorum : ∀ r, root r → frameToDecide < r.slot.frame → ∃ voters : Finset ValidatorID,
    vv.quorum ≤ mass vv.get voters ∧
      ∀ v ∈ voters, ∃ a, Observes root observe r a ∧ a.slot.validator = v
  single : ∀ r r' a a', root r → root r' → Observes root observe r a →
    Observes root observe r' a' → a.slot = a'.slot → a = a'

/-- The calls come in an order in which observed roots come first. -/
def ObservedFirst : List RootAndSlot → List Feed → Prop
  | _, [] => True
  | done, feed :: rest =>
    root feed.newRoot ∧ (∀ a, Observes root observe feed.newRoot a → a ∈ done) ∧
    feed.known.Nodup ∧ (∀ a ∈ feed.known, root a) ∧
    (∀ a ∈ feed.newRoot :: done, a ∈ feed.known) ∧
    ObservedFirst (feed.newRoot :: done) rest

end Runs

/-- Over a listed graph the order of a run can be checked by evaluation. -/
instance decidableObservedFirst (roots : List RootAndSlot)
    (observe : EventID → EventID → Bool) : ∀ (done : List RootAndSlot) (feeds : List Feed),
      Decidable (ObservedFirst (· ∈ roots) observe done feeds)
  | _, [] => .isTrue trivial
  | done, feed :: rest =>
    have := decidableObservedFirst roots observe (feed.newRoot :: done) rest
    decidable_of_iff (feed.newRoot ∈ roots ∧
        (∀ a ∈ roots, a.slot.frame + 1 = feed.newRoot.slot.frame ∧
          observe feed.newRoot.id a.id = true → a ∈ done) ∧
        feed.known.Nodup ∧ (∀ a ∈ feed.known, a ∈ roots) ∧
        (∀ a ∈ feed.newRoot :: done, a ∈ feed.known) ∧
        ObservedFirst (· ∈ roots) observe (feed.newRoot :: done) rest)
      (by simp only [ObservedFirst, Observes, and_imp])

variable {vv : Validators} {root : RootAndSlot → Prop} {observe : EventID → EventID → Bool}
  {frameToDecide : Nat}

theorem slot_eq {left right : Slot} (frame : left.frame = right.frame)
    (validator : left.validator = right.validator) : left = right := by
  cases left
  cases right
  simp_all

theorem rootGraph_sound (graph : RootGraph vv root observe frameToDecide) :
    (layers vv root fun a b => observe a b = true).Sound frameToDecide where
  quorum := quorum_isQuorum
  owned := fun r isRoot => mem_group.mpr (graph.listed r isRoot)
  single := fun r r' a a' isRoot isRoot' prior prior' level owner =>
    graph.single r r' a a' isRoot isRoot' prior prior' (slot_eq level owner)
  covered := by
    intro r isRoot above
    obtain ⟨voters, enough, seen⟩ := graph.quorum r isRoot above
    refine enough.trans (mass_mono _ fun v member => ?_)
    obtain ⟨a, observed, rfl⟩ := seen v member
    rw [Layers.seen_eq_backing, Layers.mem_backing]
    exact ⟨mem_group.mpr (graph.listed a observed.1), a, observed, rfl, trivial⟩

theorem callbacks_serve (observe : EventID → EventID → Bool) {known : List RootAndSlot}
    (nodup : known.Nodup) :
    Serves (callbacks observe known) (fun _ => True) (fun a b => observe a b = true)
      (· ∈ known) where
  roots := fun _ frame _ => ⟨_, (), rfl, trivial, nodup.filter _, by simp⟩
  observe := fun _ r a _ _ _ => ⟨observe r.id a.id, (), rfl, trivial, Iff.rfl⟩

theorem mass_pos (graph : RootGraph vv root observe frameToDecide) {r : RootAndSlot}
    (isRoot : root r) : 0 < mass vv.get vv.group := by
  have listed := graph.listed r isRoot
  calc 0 < vv.get r.slot.validator := get_pos listed
    _ ≤ mass vv.get vv.group :=
      Finset.single_le_sum (fun _ _ => Nat.zero_le _) (mem_group.mpr listed)

theorem feedRoots_tracks (graph : RootGraph vv root observe frameToDecide) :
    ∀ (feeds : List Feed) (done : List RootAndSlot) (fed : RootAndSlot → Prop) (el : Election),
      ObservedFirst root observe done feeds →
      Tracks vv (layers vv root fun a b => observe a b = true) frameToDecide fed el →
      (Election.chooseAtropos el = .ok none → ∀ a ∈ done, fed a) →
      ∃ outcomes el' fed', feedRoots observe el feeds = .ok (outcomes, el') ∧
        outcomes.length = feeds.length ∧ (∀ a, fed a → fed' a) ∧
        Tracks vv (layers vv root fun a b => observe a b = true) frameToDecide fed' el' ∧
        ∀ outcome ∈ outcomes, outcome = .ok none ∨ ∃ atropos,
          outcome = .ok (some ⟨frameToDecide, atropos⟩) ∧
          Elected vv (layers vv root fun a b => observe a b = true) frameToDecide fed'
            atropos := by
  have sound := rootGraph_sound graph
  intro feeds
  induction feeds with
  | nil =>
    intro done fed el _ tracks _
    exact ⟨[], el, fed, rfl, rfl, fun _ => id, tracks, by simp⟩
  | cons feed rest ih =>
    rintro done fed el ⟨isRoot, below, nodup, knownRoots, present, later⟩ tracks allFed
    have positive := mass_pos graph isRoot
    -- After a decision the instance repeats it; before, the new root is counted in.
    obtain ⟨el', fed', run, grows, tracks', fedDone⟩ : ∃ el' fed',
        Election.processRoot (callbacks observe feed.known) () el feed.newRoot =
          .ok (Election.chooseAtropos el', el', ()) ∧ (∀ a, fed a → fed' a) ∧
        Tracks vv (layers vv root fun a b => observe a b = true) frameToDecide fed' el' ∧
        (Election.chooseAtropos el' = .ok none → ∀ a ∈ feed.newRoot :: done, fed' a) := by
      rcases chooseAtropos_tracks sound rfl positive tracks with
        ⟨a, decided, _⟩ | ⟨undecided, _⟩
      · refine ⟨el, fed, ?_, fun _ => id, tracks, ?_⟩
        · rw [processRoot_decided decided, decided]
        · simp [decided]
      · have serves := callbacks_serve observe nodup
        obtain ⟨el', _, run, _, tracks'⟩ := processRoot_tracks sound serves knownRoots
          (present _ List.mem_cons_self)
          (fun a prior => present a (List.mem_cons_of_mem _ (below a prior))) tracks
          (fun a prior _ => allFed undecided a (below a prior)) trivial undecided
        refine ⟨el', _, run, fun _ => Or.inl, tracks', ?_⟩
        rintro _ a member
        rcases List.mem_cons.mp member with rfl | old
        · exact Or.inr rfl
        · exact Or.inl (allFed undecided a old)
    obtain ⟨outcomes, el'', fed'', runs, length, grows', tracks'', answers⟩ :=
      ih (feed.newRoot :: done) fed' el' later tracks' fedDone
    refine ⟨Election.chooseAtropos el' :: outcomes, el'', fed'', ?_, by simp [length],
      fun a isFed => grows' a (grows a isFed), tracks'', ?_⟩
    · simp [feedRoots, run, runs, bind, Except.bind, pure, Except.pure]
    · intro outcome member
      rcases List.mem_cons.mp member with rfl | old
      · rcases chooseAtropos_tracks sound rfl positive tracks' with
          ⟨a, decided, elected⟩ | ⟨undecided, _⟩
        · exact Or.inr ⟨a, decided, elected_mono grows' elected⟩
        · exact Or.inl undecided
      · exact answers outcome old

/-- A run from a fresh election never fails, and tells what it tracks in the end. -/
theorem fresh_run (graph : RootGraph vv root observe frameToDecide) {feeds : List Feed}
    (order : ObservedFirst root observe [] feeds) :
    ∃ outcomes el fed,
      feedRoots observe (Election.reset vv frameToDecide) feeds = .ok (outcomes, el) ∧
      outcomes.length = feeds.length ∧
      Tracks vv (layers vv root fun a b => observe a b = true) frameToDecide fed el ∧
      ∀ outcome ∈ outcomes, outcome = .ok none ∨ ∃ atropos,
        outcome = .ok (some ⟨frameToDecide, atropos⟩) ∧
        Elected vv (layers vv root fun a b => observe a b = true) frameToDecide fed
          atropos := by
  obtain ⟨outcomes, el, fed, run, length, _, tracks, answers⟩ := feedRoots_tracks graph feeds []
    (fun _ => False) _ order (reset_tracks vv _ frameToDecide) (by simp)
  exact ⟨outcomes, el, fed, run, length, tracks, answers⟩

theorem decided_votes_agree {G : Layers RootAndSlot ValidatorID} (sound : G.Sound frameToDecide)
    {r r' : RootAndSlot} {s : ValidatorID} {v v' : VoteValue} (isRoot : G.root r)
    (isRoot' : G.root r') (vote : VoteIs G frameToDecide r s v)
    (vote' : VoteIs G frameToDecide r' s v') (decided : v.decided = true)
    (decided' : v'.decided = true) :
    v.yes = v'.yes ∧ v.observedRoot = v'.observedRoot := by
  have same : v.yes = true ↔ v'.yes = true := by
    rw [vote.yes, vote'.yes]
    rcases vote.decided.mp decided with yes | no <;>
      rcases vote'.decided.mp decided' with yes' | no'
    · exact iff_of_true (Layers.decidesYes_votes sound isRoot yes)
        (Layers.decidesYes_votes sound isRoot' yes')
    · exact (Layers.decisions_agree sound isRoot isRoot' yes no').elim
    · exact (Layers.decisions_agree sound isRoot' isRoot yes' no).elim
    · exact iff_of_false (Layers.decidesNo_votes sound isRoot no)
        (Layers.decidesNo_votes sound isRoot' no')
  refine ⟨Bool.eq_iff_iff.mpr same, ?_⟩
  cases yes : v.yes with
  | true => exact subject_unique sound (vote.hash yes) (vote'.hash (same.mp yes))
  | false =>
    have yes' : v'.yes = false := by
      rw [← yes]
      exact (Bool.eq_iff_iff.mpr same).symm
    rw [vote.blank yes, vote'.blank yes']

section Mesh

/-- Two validators with three frames of roots, each observing both roots below. -/
def meshValidators : Validators where
  sortedArray := [⟨1, 1⟩, ⟨2, 1⟩]
  ordered := by decide
  distinct := by decide
  positive := by decide
  limited := by decide

def meshRoot (frame validator : Nat) : RootAndSlot :=
  ⟨BitVec.ofNat 256 (16 * frame + validator), ⟨frame, validator⟩⟩

def meshRoots : List RootAndSlot :=
  [meshRoot 1 1, meshRoot 1 2, meshRoot 2 1, meshRoot 2 2, meshRoot 3 1, meshRoot 3 2]

def meshFeeds : List RootAndSlot → List RootAndSlot → List Feed
  | _, [] => []
  | done, r :: rest => ⟨r, r :: done⟩ :: meshFeeds (r :: done) rest

theorem mesh_graph : RootGraph meshValidators (· ∈ meshRoots) (fun _ _ => true) 1 where
  listed := by decide
  quorum := by
    intro r isRoot above
    refine ⟨{1, 2}, by decide, fun v member => ⟨meshRoot (r.slot.frame - 1) v, ?_⟩⟩
    revert r v
    simp only [Observes]
    decide
  single := by
    intro r r' a a' _ _ observed observed' slot
    have distinct : ∀ a ∈ meshRoots, ∀ a' ∈ meshRoots, a.slot = a'.slot → a = a' := by decide
    exact distinct a observed.1 a' observed'.1 slot

theorem mesh_first : ObservedFirst (· ∈ meshRoots) (fun _ _ => true) []
    (meshFeeds [] meshRoots) := by
  decide

def meshPart : List RootAndSlot :=
  [meshRoot 1 2, meshRoot 1 1, meshRoot 2 2, meshRoot 2 1, meshRoot 3 2]

theorem meshPart_first : ObservedFirst (· ∈ meshRoots) (fun _ _ => true) []
    (meshFeeds [] meshPart) := by
  decide

end Mesh

/-- Two instances that return a decision return the same one, and no two roots decide a
subject differently. -/
theorem elections_agree (graph : RootGraph vv root observe frameToDecide)
    {left right : List Feed} (leftOrder : ObservedFirst root observe [] left)
    (rightOrder : ObservedFirst root observe [] right)
    {outcomes outcomes' : List Election.Outcome} {el el' : Election}
    (leftRun : feedRoots observe (Election.reset vv frameToDecide) left = .ok (outcomes, el))
    (rightRun : feedRoots observe (Election.reset vv frameToDecide) right =
      .ok (outcomes', el')) :
    (∀ res res', .ok (some res) ∈ outcomes → .ok (some res') ∈ outcomes' →
      res.frame = res'.frame ∧ res.atropos = res'.atropos) ∧
    (∀ r r' s v v', el.votes.lookup ⟨r, s⟩ = some v → el'.votes.lookup ⟨r', s⟩ = some v' →
      v.decided = true → v'.decided = true →
      v.yes = v'.yes ∧ v.observedRoot = v'.observedRoot) ∧
    (∀ s v v', el.decidedRoots.lookup s = some v → el'.decidedRoots.lookup s = some v' →
      v.yes = v'.yes ∧ v.observedRoot = v'.observedRoot) := by
  have sound := rootGraph_sound graph
  obtain ⟨_, _, fed, run, _, tracks, answers⟩ := fresh_run graph leftOrder
  obtain ⟨_, _, fed', run', _, tracks', answers'⟩ := fresh_run graph rightOrder
  rw [run] at leftRun
  rw [run'] at rightRun
  cases leftRun
  cases rightRun
  refine ⟨?_, ?_, ?_⟩
  · intro res res' member member'
    rcases answers _ member with none | ⟨a, decided, elected⟩
    · cases none
    rcases answers' _ member' with none' | ⟨a', decided', elected'⟩
    · cases none'
    cases decided
    cases decided'
    exact ⟨rfl, elected_unique sound tracks.fedRoot tracks'.fedRoot elected elected'⟩
  · intro r r' s v v' stored stored' decided decided'
    obtain ⟨isFed, vote⟩ := tracks.votesSound r s v stored
    obtain ⟨isFed', vote'⟩ := tracks'.votesSound r' s v' stored'
    exact decided_votes_agree sound (tracks.fedRoot r isFed) (tracks'.fedRoot r' isFed')
      vote vote' decided decided'
  · intro s v v' stored stored'
    obtain ⟨_, decided, r, isFed, vote⟩ := tracks.decidedSound s v stored
    obtain ⟨_, decided', r', isFed', vote'⟩ := tracks'.decidedSound s v' stored'
    exact decided_votes_agree sound (tracks.fedRoot r isFed) (tracks'.fedRoot r' isFed')
      vote vote' decided decided'

theorem elections_agree_mesh : ∃ outcomes el outcomes' el',
    feedRoots (fun _ _ => true) (Election.reset meshValidators 1) (meshFeeds [] meshRoots) =
      .ok (outcomes, el) ∧
    feedRoots (fun _ _ => true) (Election.reset meshValidators 1) (meshFeeds [] meshPart) =
      .ok (outcomes', el') ∧
    .ok (some ⟨1, 17⟩) ∈ outcomes ∧ .ok (some ⟨1, 17⟩) ∈ outcomes' ∧
    ∀ res res', .ok (some res) ∈ outcomes → .ok (some res') ∈ outcomes' →
      res.frame = res'.frame ∧ res.atropos = res'.atropos :=
  ⟨_, _, _, _, rfl, rfl, by decide, by decide,
    (elections_agree mesh_graph mesh_first meshPart_first rfl rfl).1⟩

/-- In every run every call returns without an error and without a panic. -/
theorem election_never_fails (graph : RootGraph vv root observe frameToDecide)
    {feeds : List Feed} (order : ObservedFirst root observe [] feeds) :
    ∃ outcomes el,
      feedRoots observe (Election.reset vv frameToDecide) feeds = .ok (outcomes, el) ∧
      outcomes.length = feeds.length ∧
      ∀ outcome ∈ outcomes, ∃ decision, outcome = .ok decision := by
  obtain ⟨outcomes, el, _, run, length, _, answers⟩ := fresh_run graph order
  refine ⟨outcomes, el, run, length, fun outcome member => ?_⟩
  rcases answers outcome member with none | ⟨a, decided, _⟩
  · exact ⟨_, none⟩
  · exact ⟨_, decided⟩

theorem election_never_fails_mesh : ∃ outcomes el,
    feedRoots (fun _ _ => true) (Election.reset meshValidators 1) (meshFeeds [] meshRoots) =
      .ok (outcomes, el) ∧
    outcomes.length = 6 ∧ ∀ outcome ∈ outcomes, ∃ decision, outcome = .ok decision :=
  election_never_fails mesh_graph mesh_first

end Lachesis.Abft
