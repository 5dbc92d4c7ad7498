import Lachesis.Abft.Orderer
import Lachesis.Library.Triples

/-!
What the orderer leaves alone while it only looks for a decision: the main tables, the
target of the election, and whatever of the world the index does not touch. The index is asked about
roots that were read from the store, and one of these is what gets decided.
-/

namespace Lachesis.Abft

open Dag Pos Triples

namespace Election

variable {World : Type} {x : Externals World} {Inv : World → Prop} {asks : EventID → Prop}
  (observe : ∀ w a b, Inv w → asks a → asks b → Ensures (x.observe w a b) fun r => Inv r.2)
  (getFrameRoots : ∀ w frame, Inv w →
    Ensures (x.getFrameRoots w frame) fun r => Inv r.2 ∧ ∀ root ∈ r.1, asks root.id)

include observe in
theorem collectObserved_keeps {root : EventID} (asked : asks root) :
    ∀ (frameRoots : List RootAndSlot) (w : World), Inv w → (∀ r ∈ frameRoots, asks r.id) →
    Ensures (collectObserved x root frameRoots w) fun r => Inv r.2 ∧ ∀ root ∈ r.1, asks root.id := by
  intro frameRoots
  induction frameRoots with
  | nil =>
    intro w holds _
    exact ensures_ok ⟨holds, by simp⟩
  | cons frameRoot rest ih =>
    intro w holds known
    obtain ⟨first, later⟩ := List.forall_mem_cons.mp known
    refine ensures_bind (observe w root frameRoot.id holds asked first) ?_
    rintro ⟨hit, w⟩ holds
    refine ensures_bind (ih w holds later) ?_
    rintro ⟨observed, w⟩ ⟨holds, later⟩
    refine ensures_ok ⟨holds, ?_⟩
    dsimp only
    split
    · exact List.forall_mem_cons.mpr ⟨first, later⟩
    · exact later

include observe getFrameRoots in
theorem observedRoots_keeps {root : EventID} (asked : asks root) (frame : Nat) {w : World}
    (holds : Inv w) :
    Ensures (observedRoots x w root frame) fun r => Inv r.2 ∧ ∀ root ∈ r.1, asks root.id := by
  refine ensures_bind (getFrameRoots w frame holds) ?_
  rintro ⟨frameRoots, w⟩ ⟨holds, known⟩
  exact collectObserved_keeps observe asked frameRoots w holds known

theorem castVotes_keeps (ballot : Election → ValidatorID → Except ElectionError VoteValue)
    (newRoot : RootAndSlot) : ∀ (subjects : List ValidatorID) (el : Election),
    (castVotes ballot newRoot subjects el).1.frameToDecide = el.frameToDecide ∧
      (castVotes ballot newRoot subjects el).1.validators = el.validators := by
  intro subjects
  induction subjects with
  | nil => exact fun el => ⟨rfl, rfl⟩
  | cons subject rest ih =>
    intro el
    unfold castVotes
    split
    · exact ⟨rfl, rfl⟩
    · exact ih _

variable {res : Res} {el : Election} {subject : ValidatorID} {observed : List RootAndSlot}
  {ballot : Election → ValidatorID → Except ElectionError VoteValue}

theorem chooseAtroposFrom_frame : ∀ {ids : List ValidatorID},
    chooseAtroposFrom el ids = .ok (some res) → res.frame = el.frameToDecide := by
  intro ids
  induction ids with
  | nil => intro run; cases run
  | cons v rest ih =>
    intro run
    unfold chooseAtroposFrom at run
    split at run
    · cases run
    · split at run
      · cases run
        rfl
      · exact ih run

/-- What a root never changes, whatever the callbacks answer. -/
def Keeps (el : Election) (r : Outcome × Election) : Prop :=
  r.2.frameToDecide = el.frameToDecide ∧ r.2.validators = el.validators ∧
    ∀ res, r.1 = .ok (some res) → res.frame = el.frameToDecide

theorem castRound_keeps (ballot : Election → ValidatorID → Except ElectionError VoteValue)
    (newRoot : RootAndSlot) (subjects : List ValidatorID) (el : Election) :
    Keeps el (castRound ballot newRoot subjects el) := by
  obtain ⟨frame, validators⟩ := castVotes_keeps ballot newRoot subjects el
  unfold castRound
  split
  · next el' error cast =>
    rw [cast] at frame validators
    exact ⟨frame, validators, fun res run => by cases run⟩
  · next el' cast =>
    rw [cast] at frame validators
    exact ⟨frame, validators, fun res run => (chooseAtroposFrom_frame run).trans frame⟩

def Names (asks : EventID → Prop) (vote : VoteValue) : Prop :=
  vote.yes = true → asks vote.observedRoot

structure Named (asks : EventID → Prop) (el : Election) : Prop where
  votes : ∀ key vote, el.votes.lookup key = some vote → Names asks vote
  decided : ∀ v vote, el.decidedRoots.lookup v = some vote → Names asks vote

theorem named_reset (vv : Validators) (frameToDecide : Nat) : Named asks (.reset vv frameToDecide) :=
  ⟨fun _ _ found => (nomatch found), fun _ _ found => (nomatch found)⟩

structure Unnamed (el : Election) (t : Tally) : Prop where
  against : t.subjectHash = none → t.yesVotes.sum = 0 ∧ t.noVotes = t.allVotes
  quorum : t.allVotes.quorum = el.validators.quorum

theorem count_quorum (c : WeightCounter) (v : ValidatorID) : (c.count v).2.quorum = c.quorum := by
  unfold WeightCounter.count WeightCounter.countByIdx
  split <;> rfl

theorem tallyVote_names (named : Named asks el) {t t' : Tally} {root : RootAndSlot}
    (run : tallyVote el subject t root = .ok t')
    (known : ∀ hash, t.subjectHash = some hash → asks hash) (unnamed : Unnamed el t) :
    (∀ hash, t'.subjectHash = some hash → asks hash) ∧ Unnamed el t' := by
  have add : ∀ vote, Names asks vote → tallyVote.addVote el subject t root vote = .ok t' →
      (∀ hash, t'.subjectHash = some hash → asks hash) ∧ Unnamed el t' := by
    intro vote names run
    unfold tallyVote.addVote at run
    by_cases yes : vote.yes = true
    · simp only [yes, ↓reduceIte] at run
      split at run
      · cases run
        refine ⟨?_, fun miss => (nomatch miss), (count_quorum _ _).trans unnamed.quorum⟩
        rintro hash ⟨⟩
        exact names yes
      · cases run
    · simp only [yes, Bool.false_eq_true, ↓reduceIte] at run
      split at run
      · cases run
        refine ⟨known, fun miss => ?_, (count_quorum _ _).trans unnamed.quorum⟩
        obtain ⟨zero, same⟩ := unnamed.against miss
        exact ⟨zero, congrArg (fun c => (WeightCounter.count c root.slot.validator).2) same⟩
      · cases run
  unfold tallyVote at run
  split at run
  · cases run
  · next vote found =>
    split at run
    · split at run
      · cases run
      · exact add vote (named.votes _ _ found) run
    · exact add vote (named.votes _ _ found) run

theorem tallyVotes_names (named : Named asks el) :
    ∀ (observed : List RootAndSlot) {t t' : Tally}, tallyVotes el subject observed t = .ok t' →
    (∀ hash, t.subjectHash = some hash → asks hash) → Unnamed el t →
    (∀ hash, t'.subjectHash = some hash → asks hash) ∧ Unnamed el t' := by
  intro observed
  induction observed with
  | nil =>
    intro t t' run known unnamed
    cases run
    exact ⟨known, unnamed⟩
  | cons root rest ih =>
    intro t t' run known unnamed
    unfold tallyVotes at run
    split at run
    · cases run
    · next t'' first =>
      obtain ⟨known, unnamed⟩ := tallyVote_names named first known unnamed
      exact ih run known unnamed

theorem majorityVote_names (named : Named asks el) {vote : VoteValue}
    (run : majorityVote observed el subject = .ok vote) : Names asks vote := by
  unfold majorityVote at run
  split at run
  · cases run
  · next t tallied =>
    obtain ⟨known, unnamed⟩ := tallyVotes_names named observed tallied
      (fun hash found => (nomatch found)) ⟨fun _ => ⟨rfl, rfl⟩, rfl⟩
    split at run
    · next quorum =>
      cases run
      intro yes
      dsimp only at yes ⊢
      rw [if_pos yes]
      cases hash : t.subjectHash with
      | some hash' => exact known hash' hash
      | none =>
        obtain ⟨zero, same⟩ := unnamed.against hash
        have heavy : t.allVotes.quorum ≤ t.allVotes.sum := of_decide_eq_true quorum
        have light := of_decide_eq_true yes
        rw [unnamed.quorum] at heavy
        rw [zero, same] at light
        have : 0 < el.validators.quorum := quorum_pos
        omega
    · cases run

theorem firstVote_names (known : ∀ r ∈ observed, asks r.id) (subject : ValidatorID) :
    Names asks (firstVote (rootsMap observed) subject) := by
  intro yes
  unfold firstVote at yes ⊢
  split
  · next root found =>
    exact known root (List.mem_reverse.mp (List.mem_of_find?_eq_some found))
  · next miss => simp [miss] at yes

theorem castVotes_names
    (ballots : ∀ el subject vote, Named asks el → ballot el subject = .ok vote → Names asks vote)
    (newRoot : RootAndSlot) : ∀ (subjects : List ValidatorID) {el : Election}, Named asks el →
    Named asks (castVotes ballot newRoot subjects el).1 := by
  intro subjects
  induction subjects with
  | nil => exact fun named => named
  | cons subject rest ih =>
    intro el named
    unfold castVotes
    split
    · exact named
    · next vote cast =>
      have names := ballots el subject vote named cast
      refine ih ⟨fun key vote' found => ?_, fun v vote' found => ?_⟩
      · dsimp only at found
        by_cases same : key = ⟨newRoot, subject⟩
        · rw [same, AList.lookup_insert] at found
          exact Option.some.inj found ▸ names
        · rw [AList.lookup_insert_ne same] at found
          exact named.votes key vote' found
      · dsimp only at found
        split at found
        · by_cases same : v = subject
          · rw [same, AList.lookup_insert] at found
            exact Option.some.inj found ▸ names
          · rw [AList.lookup_insert_ne same] at found
            exact named.decided v vote' found
        · exact named.decided v vote' found

theorem chooseAtroposFrom_names (named : Named asks el) :
    ∀ {ids : List ValidatorID}, chooseAtroposFrom el ids = .ok (some res) → asks res.atropos := by
  intro ids
  induction ids with
  | nil => intro run; cases run
  | cons v rest ih =>
    intro run
    unfold chooseAtroposFrom at run
    split at run
    · cases run
    · next vote found =>
      split at run
      · next yes =>
        cases run
        exact named.decided v vote found yes
      · exact ih run

def Decides (asks : EventID → Prop) (r : Outcome × Election) : Prop :=
  Named asks r.2 ∧ ∀ res, r.1 = .ok (some res) → asks res.atropos

theorem castRound_names
    (ballots : ∀ el subject vote, Named asks el → ballot el subject = .ok vote → Names asks vote)
    (newRoot : RootAndSlot) (subjects : List ValidatorID) (named : Named asks el) :
    Decides asks (castRound ballot newRoot subjects el) := by
  have cast := castVotes_names ballots newRoot subjects named
  unfold castRound
  split
  · next el' error votes =>
    rw [votes] at cast
    exact ⟨cast, fun res run => by cases run⟩
  · next el' votes =>
    rw [votes] at cast
    exact ⟨cast, fun res run => chooseAtroposFrom_names cast run⟩

include observe getFrameRoots in
theorem processRoot_keeps {el : Election} (newRoot : RootAndSlot) {w : World} (holds : Inv w)
    (named : Named asks el) (asked : asks newRoot.id) :
    Ensures (processRoot x w el newRoot) fun r =>
      Keeps el (r.1, r.2.1) ∧ Decides asks (r.1, r.2.1) ∧ Inv r.2.2 := by
  unfold processRoot
  split
  · exact ensures_ok ⟨⟨rfl, rfl, fun res run => by cases run⟩,
      ⟨named, fun res run => by cases run⟩, holds⟩
  · next res chosen =>
    refine ensures_ok ⟨⟨rfl, rfl, fun res' run => ?_⟩, ⟨named, fun res' run => ?_⟩, holds⟩
    · cases run
      exact chooseAtroposFrom_frame chosen
    · cases run
      exact chooseAtroposFrom_names named chosen
  · split
    · exact ensures_ok ⟨⟨rfl, rfl, fun res run => by cases run⟩,
        ⟨named, fun res run => by cases run⟩, holds⟩
    · have subjects : Ensures el.notDecidedRoots fun _ => True := fun _ _ => trivial
      have observed := observedRoots_keeps observe getFrameRoots asked
        (newRoot.slot.frame - 1) holds
      refine ensures_bind subjects fun subjects _ => ?_
      split
      · have observed : Ensures (observedRootsMap x w newRoot.id (newRoot.slot.frame - 1))
            fun r => Inv r.2 ∧ ∀ s, Names asks (firstVote r.1 s) :=
          ensures_bind observed fun r holds => ensures_ok ⟨holds.1, firstVote_names holds.2⟩
        refine ensures_bind observed ?_
        rintro ⟨observed, w⟩ ⟨holds, names⟩
        refine ensures_ok ⟨castRound_keeps _ newRoot subjects el,
          castRound_names (fun el s vote _ cast => ?_) newRoot subjects named, holds⟩
        cases cast
        exact names s
      · refine ensures_bind observed ?_
        rintro ⟨observed, w⟩ ⟨holds, _⟩
        exact ensures_ok ⟨castRound_keeps _ newRoot subjects el,
          castRound_names (fun el s vote named cast => majorityVote_names named cast) newRoot subjects
            named, holds⟩

end Election

namespace Store

def SameMain (s s' : Store) : Prop :=
  s'.epochState = s.epochState ∧ s'.lastDecidedState = s.lastDecidedState

theorem getLastDecidedFrame_ensures (s : Store) :
    Ensures s.getLastDecidedFrame fun frame => s.lastDecidedState = some ⟨frame⟩ := by
  unfold getLastDecidedFrame getLastDecidedState
  split
  · exact ensures_error
  · next found => exact ensures_ok found

theorem getFrameRoots_cache (s : Store) (frame : Nat) :
    Ensures (s.getFrameRoots frame) fun r => ∃ cache, r.2 = { s with frameRoots := cache } := by
  unfold getFrameRoots
  split
  · exact ensures_ok ⟨_, rfl⟩
  · exact ensures_bind (ensures_any _) fun db _ => ensures_ok ⟨_, rfl⟩

theorem getFrameRoots_main (s : Store) (frame : Nat) :
    Ensures (s.getFrameRoots frame) fun r => SameMain s r.2 := by
  refine ensures_mono (s.getFrameRoots_cache frame) ?_
  rintro ⟨roots, _⟩ ⟨cache, rfl⟩
  exact ⟨rfl, rfl⟩

theorem setEpochTable_main (s : Store) (db : EpochDB) : SameMain s (s.setEpochTable db) := by
  unfold setEpochTable
  split <;> exact ⟨rfl, rfl⟩

theorem addRoots_main (s : Store) (selfParentFrame : Nat) (root : Event) :
    Ensures (s.addRoots selfParentFrame root) (SameMain s) := by
  refine ensures_foldlM (fun s' frame same => ?_) _ s ⟨rfl, rfl⟩
  refine ensures_bind (ensures_any _) fun db _ => ?_
  have written := s'.setEpochTable_main
    { db with roots := putRoot db.roots ⟨root.id, ⟨frame, root.creator⟩⟩ }
  dsimp only
  split
  all_goals exact ensures_ok ⟨written.1.trans same.1, written.2.trans same.2⟩

theorem setEpochTable_confirmed {s : Store} {db db' : EpochDB} (table : s.epochTable = .ok db)
    (same : db'.confirmedEvent = db.confirmedEvent) (epoch : Nat) :
    ((s.setEpochTable db').epochDBs epoch).confirmedEvent = (s.epochDBs epoch).confirmedEvent := by
  unfold epochTable at table
  unfold setEpochTable
  split at table
  · cases table
  · grind

theorem addRoots_confirmed (s : Store) (selfParentFrame : Nat) (root : Event) (epoch : Nat) :
    Ensures (s.addRoots selfParentFrame root) fun s' =>
      (s'.epochDBs epoch).confirmedEvent = (s.epochDBs epoch).confirmedEvent := by
  refine ensures_foldlM (fun s' frame same => ?_) _ s rfl
  have table : Ensures s'.epochTable fun db => s'.epochTable = .ok db := fun db run => run
  refine ensures_bind table fun db table => ?_
  have written := @setEpochTable_confirmed s' db
    { db with roots := putRoot db.roots ⟨root.id, ⟨frame, root.creator⟩⟩ } table rfl epoch
  dsimp only
  split
  all_goals exact ensures_ok (written.trans same)

end Store

namespace Orderer

variable {World View : Type} {watch : World → View}

def target (p : Orderer World) : Option (Nat × Validators) :=
  p.election.map fun el => (el.frameToDecide, el.validators)

structure Quiet (watch : World → View) (p p' : Orderer World) : Prop where
  epochState : p'.store.epochState = p.store.epochState
  lastDecidedState : p'.store.lastDecidedState = p.store.lastDecidedState
  watched : watch p'.world = watch p.world
  callback : p'.callback = p.callback
  target : p'.target = p.target

theorem Quiet.refl (watch : World → View) (p : Orderer World) : Quiet watch p p :=
  ⟨rfl, rfl, rfl, rfl, rfl⟩

theorem Quiet.trans {p q r : Orderer World} (first : Quiet watch p q)
    (second : Quiet watch q r) : Quiet watch p r where
  epochState := second.epochState.trans first.epochState
  lastDecidedState := second.lastDecidedState.trans first.lastDecidedState
  watched := second.watched.trans first.watched
  callback := second.callback.trans first.callback
  target := second.target.trans first.target

variable {dagIndex : World → EventID → EventID → Except Halt (Bool × World)} {input : EventSource}
  (keeps : ∀ w a b, Ensures (dagIndex w a b) fun r => watch r.2 = watch w)

def Polled (watch : World → View) (p : Orderer World)
    (r : Election.Outcome × Orderer World) : Prop :=
  Quiet watch p r.2 ∧ ∀ res, r.1 = .ok (some res) → ∃ t, p.target = some t ∧ res.frame = t.1

theorem Polled.from_quiet {p q : Orderer World}
    {r : Election.Outcome × Orderer World} (quiet : Quiet watch p q)
    (polled : Polled watch q r) : Polled watch p r := by
  refine ⟨quiet.trans polled.1, fun res run => ?_⟩
  rw [← quiet.target]
  exact polled.2 res run

include keeps in
theorem processRoot_polled (p : Orderer World) (root : RootAndSlot) :
    Ensures (p.processRoot dagIndex root) (Polled watch p) := by
  unfold processRoot
  split
  · exact ensures_error
  · next el election =>
    let Inv (w : Store × World) : Prop := w.1.epochState = p.store.epochState ∧
      w.1.lastDecidedState = p.store.lastDecidedState ∧ watch w.2 = watch p.world
    have observe : ∀ w a b, Inv w → True → True →
        Ensures ((externals dagIndex).observe w a b) fun r => Inv r.2 := by
      rintro ⟨store, world⟩ a b ⟨epochState, lastDecidedState, log⟩ _ _
      refine ensures_bind (keeps world a b) fun r same => ensures_ok ?_
      exact ⟨epochState, lastDecidedState, same.trans log⟩
    have getFrameRoots : ∀ w frame, Inv w → Ensures ((externals dagIndex).getFrameRoots w frame)
        fun r => Inv r.2 ∧ ∀ root ∈ r.1, True := by
      rintro ⟨store, world⟩ frame ⟨epochState, lastDecidedState, log⟩
      refine ensures_bind (store.getFrameRoots_main frame) fun r same => ensures_ok ⟨?_, by simp⟩
      exact ⟨same.1.trans epochState, same.2.trans lastDecidedState, log⟩
    have named : Election.Named (fun _ => True) el := ⟨fun _ _ _ _ => trivial, fun _ _ _ _ => trivial⟩
    have kept := Election.processRoot_keeps observe getFrameRoots root
      (show Inv (p.store, p.world) from ⟨rfl, rfl, rfl⟩) named trivial
    refine ensures_bind kept ?_
    rintro ⟨outcome, el', store, world⟩ ⟨⟨frame, validators, decided⟩, _, es, ld, log⟩
    refine ensures_ok ⟨⟨es, ld, log, rfl, ?_⟩, fun res run => ?_⟩
    · simp only [Orderer.target, election, Option.map_some]
      rw [frame, validators]
    · exact ⟨(el.frameToDecide, el.validators), by rw [Orderer.target, election]; rfl,
        decided res run⟩

include keeps in
theorem countCaused_watched (id : EventID) : ∀ (roots : List RootAndSlot) (counter : WeightCounter)
    (world : World),
    Ensures (countCaused dagIndex id roots counter world) fun r =>
      watch r.2 = watch world := by
  intro roots
  induction roots with
  | nil =>
    intro counter world
    exact ensures_ok rfl
  | cons it rest ih =>
    intro counter world
    refine ensures_bind (keeps world id it.id) ?_
    rintro ⟨hit, world'⟩ same
    dsimp only at same ⊢
    generalize (if hit = true then (counter.count it.slot.validator).2 else counter) = counter
    split
    · exact ensures_ok same
    · exact ensures_mono (ih counter world') fun r kept => kept.trans same

include keeps in
theorem forklessCausedByQuorumOn_quiet (p : Orderer World) (e : Event)
    (frame : Nat) :
    Ensures (p.forklessCausedByQuorumOn dagIndex e frame) fun r => Quiet watch p r.2 := by
  refine ensures_bind (ensures_any _) fun validators _ => ?_
  refine ensures_bind (p.store.getFrameRoots_main frame) ?_
  rintro ⟨roots, store⟩ same
  refine ensures_bind (countCaused_watched keeps e.id roots validators.newCounter p.world) ?_
  rintro ⟨counter, world⟩ log
  exact ensures_ok ⟨same.1, same.2, log, rfl, rfl⟩

include keeps in
theorem climb_quiet (e : Event) : ∀ (limit frame : Nat) (p : Orderer World),
    Ensures (climb dagIndex e limit frame p) fun r => Quiet watch p r.2 := by
  intro limit
  induction limit with
  | zero =>
    intro frame p
    exact ensures_ok (.refl watch p)
  | succ limit ih =>
    intro frame p
    refine ensures_bind (forklessCausedByQuorumOn_quiet keeps p e frame) ?_
    rintro ⟨met, p'⟩ quiet
    dsimp only
    split
    · exact ensures_mono (ih (frame + 1) p') fun r later => quiet.trans later
    · exact ensures_ok quiet

include keeps in
theorem calcFrameIdx_quiet (p : Orderer World) (e : Event) (checkOnly : Bool) :
    Ensures (p.calcFrameIdx dagIndex input e checkOnly) fun r => Quiet watch p r.2.2 := by
  refine ensures_bind (ensures_any _) fun selfParentFrame _ => ?_
  refine ensures_bind (climb_quiet keeps e _ selfParentFrame p) ?_
  rintro ⟨frame, p'⟩ quiet
  exact ensures_ok quiet

include keeps in
theorem build_quiet (p : Orderer World) (e : Event) :
    Ensures (p.build dagIndex input e) fun r => Quiet watch p r.2 := by
  refine ensures_bind (ensures_any _) fun epoch _ => ?_
  split
  · exact ensures_error
  · refine ensures_bind (ensures_any _) fun validators _ => ?_
    split
    · exact ensures_error
    · refine ensures_bind (calcFrameIdx_quiet keeps p e false) ?_
      rintro ⟨selfParentFrame, frame, p'⟩ quiet
      exact ensures_ok quiet

include keeps in
theorem checkAndSaveEvent_quiet (p : Orderer World) (e : Event) :
    Ensures (p.checkAndSaveEvent dagIndex input e) fun r => Quiet watch p r.2 := by
  refine ensures_bind (calcFrameIdx_quiet keeps p e true) ?_
  rintro ⟨selfParentFrame, frame, p'⟩ quiet
  dsimp only at quiet ⊢
  split
  · exact ensures_ok quiet
  · split
    · refine ensures_bind (p'.store.addRoots_main selfParentFrame e) fun store same => ?_
      exact ensures_ok (quiet.trans ⟨same.1, same.2, rfl, rfl, rfl⟩)
    · exact ensures_ok quiet

include keeps in
theorem processRoots_polled : ∀ (roots : List RootAndSlot) (p : Orderer World),
    Ensures (processRoots dagIndex roots p) (Polled watch p) := by
  intro roots
  induction roots with
  | nil =>
    intro p
    exact ensures_ok ⟨.refl watch p, fun res run => by cases run⟩
  | cons it rest ih =>
    intro p
    refine ensures_bind (processRoot_polled keeps p it) ?_
    rintro ⟨outcome, p'⟩ polled
    dsimp only
    split
    · exact ensures_mono (ih p') fun r later => later.from_quiet polled.1
    · exact ensures_ok polled
    · exact ensures_ok ⟨polled.1, fun res run => by cases run⟩

include keeps in
theorem processFrames_polled : ∀ (fuel frame : Nat) (p : Orderer World),
    Ensures (processFrames dagIndex fuel frame p) (Polled watch p) := by
  intro fuel
  induction fuel with
  | zero =>
    intro frame p
    exact ensures_error
  | succ fuel ih =>
    intro frame p
    refine ensures_bind (p.store.getFrameRoots_main frame) ?_
    rintro ⟨frameRoots, store⟩ same
    have read : Quiet watch p { p with store := store } := ⟨same.1, same.2, rfl, rfl, rfl⟩
    refine ensures_bind (processRoots_polled keeps frameRoots { p with store := store }) ?_
    rintro ⟨outcome, p'⟩ polled
    replace polled := polled.from_quiet read
    dsimp only
    split
    · split
      · exact ensures_ok ⟨polled.1, fun res run => by cases run⟩
      · exact ensures_mono (ih (frame + 1) p') fun r later => later.from_quiet polled.1
    · exact ensures_ok polled
    · exact ensures_ok ⟨polled.1, fun res run => by cases run⟩

include keeps in
theorem processKnownRoots_polled (p : Orderer World) :
    Ensures (p.processKnownRoots dagIndex) (Polled watch p) := by
  refine ensures_bind (ensures_any _) fun lastDecidedFrame _ => ?_
  exact ensures_bind (ensures_any _) fun db _ => processFrames_polled keeps _ _ p

end Orderer

end Lachesis.Abft
