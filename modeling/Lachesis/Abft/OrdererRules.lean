import Lachesis.Abft.Polling

/-!
A rule for the loops of the orderer. What reading the index and the roots keeps, and what a decision
keeps or, where it seals the epoch, establishes, holds when the election has been handled.
-/

namespace Lachesis.Abft.Orderer

open Dag Pos Triples

/-- What the election may do to the store and the world: `K` holds as long as the epoch is not
sealed, and the orderer is as `S` says after that. -/
structure Rule {World : Type} (dagIndex : World → EventID → EventID → Except Halt (Bool × World))
    (c : OrdererCallbacks World) (asks : EventID → Prop) (K : Store → World → Prop)
    (S : Orderer World → Prop) : Prop where
  observes : ∀ store w a b, K store w → asks a → asks b →
    Ensures (dagIndex w a b) fun r => K store r.2
  looks : ∀ store w f, K store w →
    Ensures (store.getFrameRoots f) fun r => K r.2 w ∧ ∀ root ∈ r.1, asks root.id
  decides : ∀ (p : Orderer World) (lastDecidedFrame : Nat), p.callback = c → K p.store p.world →
    p.store.lastDecidedState = some ⟨lastDecidedFrame⟩ → ∀ atropos, asks atropos →
    Ensures (p.onFrameDecided (lastDecidedFrame + 1) atropos) fun r =>
      if r.1 then S r.2 else r.2.callback = c ∧ K r.2.store r.2.world

section Loops

variable {World : Type} {dagIndex : World → EventID → EventID → Except Halt (Bool × World)}
  {c : OrdererCallbacks World} {asks : EventID → Prop} {K : Store → World → Prop}
  {S : Orderer World → Prop}

def Follows (s : Store) (frame : Nat) : Prop :=
  ∀ lastDecidedFrame, s.lastDecidedState = some ⟨lastDecidedFrame⟩ → frame = lastDecidedFrame + 1

/-- The election decides the frame after the last decided one, and its votes name roots. -/
structure Running (asks : EventID → Prop) (s : Store) (election : Option Election) : Prop where
  follows : ∀ el, election = some el → Follows s el.frameToDecide
  named : ∀ el, election = some el → el.Named asks

variable {frame : Nat} {s : Store} {p : Orderer World}

theorem running_reset (asks : EventID → Prop) (vv : Validators)
    (decided : s.lastDecidedState = some ⟨frame⟩) :
    Running asks s (some (.reset vv (frame + 1))) := by
  constructor <;> rintro el ⟨⟩
  · intro lastDecidedFrame is
    cases decided.symm.trans is
    rfl
  · exact Election.named_reset vv (frame + 1)

theorem Running.main {s' : Store} {election : Option Election} (running : Running asks s election)
    (same : s'.lastDecidedState = s.lastDecidedState) : Running asks s' election := by
  refine ⟨fun el is lastDecidedFrame decided => ?_, running.named⟩
  exact running.follows el is lastDecidedFrame (same.symm.trans decided)

structure Under (c : OrdererCallbacks World) (asks : EventID → Prop) (K : Store → World → Prop)
    (p : Orderer World) : Prop where
  callback : p.callback = c
  holds : K p.store p.world
  running : Running asks p.store p.election

theorem onFrameDecided_running (p : Orderer World) (frame : Nat) (atropos : EventID) :
    Ensures (p.onFrameDecided frame atropos) fun r =>
      p.store.lastDecidedState ≠ none ∧ Running asks r.2.store r.2.election := by
  have applied : Ensures (p.applyAtropos frame atropos) fun r =>
      r.2.store.lastDecidedState = p.store.lastDecidedState := by
    unfold applyAtropos
    split
    · exact ensures_ok rfl
    · refine ensures_bind (ensures_any _) fun _ _ => ensures_bind (ensures_any _) fun db _ => ensures_ok ?_
      exact (p.store.setEpochTable_main _).2
  refine ensures_bind applied ?_
  rintro ⟨newValidators, q⟩ same
  have known : Ensures q.store.getLastDecidedState fun _ => q.store.lastDecidedState ≠ none := by
    unfold Store.getLastDecidedState
    split
    · exact ensures_error
    · next found => exact ensures_ok (by simp [found])
  refine ensures_bind known fun _ some => ?_
  have some : p.store.lastDecidedState ≠ none := same ▸ some
  cases newValidators with
  | some validators => exact ensures_bind (ensures_any _) fun _ _ => ensures_ok ⟨some, running_reset _ _ rfl⟩
  | none => exact ensures_bind (ensures_any _) fun _ _ => ensures_ok ⟨some, running_reset _ _ rfl⟩

theorem onFrameDecided_under (rule : Rule dagIndex c asks K S) (under : Under c asks K p)
    (follows : Follows p.store frame) {atropos : EventID} (asked : asks atropos) :
    Ensures (p.onFrameDecided frame atropos) fun r =>
      r.1 = true ∧ S r.2 ∨ r.1 = false ∧ Under c asks K r.2 := by
  intro r run
  obtain ⟨known, running⟩ := @onFrameDecided_running _ asks p frame atropos r run
  obtain ⟨⟨lastDecidedFrame⟩, decided⟩ := Option.ne_none_iff_exists'.mp known
  obtain rfl := follows lastDecidedFrame decided
  have ends := rule.decides p lastDecidedFrame under.callback under.holds decided atropos asked r run
  dsimp only at ends
  split at ends
  · next is => exact .inl ⟨is, ends⟩
  · next not => exact .inr ⟨Bool.eq_false_of_not_eq_true not, ends.1, ends.2, running⟩

theorem Rule.reads (rule : Rule dagIndex c asks K S) {store : Store} {w : World} (holds : K store w)
    (f : Nat) : Ensures (store.getFrameRoots f) fun r =>
      K r.2 w ∧ (∀ root ∈ r.1, asks root.id) ∧ r.2.lastDecidedState = store.lastDecidedState := by
  intro r run
  obtain ⟨kept, asked⟩ := rule.looks store w f holds r run
  exact ⟨kept, asked, (store.getFrameRoots_main f r run).2⟩

def Decided (c : OrdererCallbacks World) (asks : EventID → Prop) (K : Store → World → Prop)
    (r : Election.Outcome × Orderer World) : Prop :=
  Under c asks K r.2 ∧ ∀ res, r.1 = .ok (some res) → Follows r.2.store res.frame ∧ asks res.atropos

theorem processRoot_under (rule : Rule dagIndex c asks K S) (under : Under c asks K p)
    {root : RootAndSlot} (asked : asks root.id) :
    Ensures (p.processRoot dagIndex root) (Decided c asks K) := by
  unfold processRoot
  split
  · exact ensures_error
  · next el running =>
    let Inv (w : Store × World) : Prop :=
      K w.1 w.2 ∧ w.1.lastDecidedState = p.store.lastDecidedState
    have observe : ∀ w a b, Inv w → asks a → asks b →
        Ensures ((externals dagIndex).observe w a b) fun r => Inv r.2 := by
      rintro ⟨store, w⟩ a b ⟨holds, main⟩ askedA askedB
      refine ensures_bind (rule.observes store w a b holds askedA askedB) fun r kept => ?_
      exact ensures_ok ⟨kept, main⟩
    have look : ∀ w f, Inv w → Ensures ((externals dagIndex).getFrameRoots w f)
        fun r => Inv r.2 ∧ ∀ root ∈ r.1, asks root.id := by
      rintro ⟨store, w⟩ f ⟨holds, main⟩
      refine ensures_bind (rule.reads holds f) ?_
      rintro r ⟨kept, asked, same⟩
      exact ensures_ok ⟨⟨kept, same.trans main⟩, asked⟩
    refine ensures_bind (Election.processRoot_keeps observe look root
      (show Inv (p.store, p.world) from ⟨under.holds, rfl⟩) (under.running.named el running) asked) ?_
    rintro ⟨outcome, el', store, w⟩ ⟨⟨target, _, frame⟩, ⟨named, decided⟩, kept, main⟩
    have follows := (under.running.main main).follows el running
    refine ensures_ok ⟨⟨under.callback, kept, ?_, ?_⟩, fun res run => ⟨?_, decided res run⟩⟩
    · rintro _ ⟨⟩
      exact target.symm ▸ follows
    · rintro _ ⟨⟩
      exact named
    · exact (frame res run).symm ▸ follows

theorem processRoots_under (rule : Rule dagIndex c asks K S) : ∀ (roots : List RootAndSlot)
    {p : Orderer World}, Under c asks K p → (∀ root ∈ roots, asks root.id) →
    Ensures (processRoots dagIndex roots p) (Decided c asks K) := by
  intro roots
  induction roots with
  | nil => exact fun under _ => ensures_ok ⟨under, fun res run => by cases run⟩
  | cons root rest ih =>
    intro p under asked
    obtain ⟨first, later⟩ := List.forall_mem_cons.mp asked
    refine ensures_bind (processRoot_under rule under first) ?_
    rintro ⟨outcome, q⟩ decided
    dsimp only
    split
    · exact ih decided.1 later
    · exact ensures_ok decided
    · exact ensures_ok ⟨decided.1, fun res run => by cases run⟩

theorem processFrames_under (rule : Rule dagIndex c asks K S) : ∀ (fuel frame : Nat)
    {p : Orderer World}, Under c asks K p →
    Ensures (processFrames dagIndex fuel frame p) (Decided c asks K) := by
  intro fuel
  induction fuel with
  | zero => exact fun _ _ _ => ensures_error
  | succ fuel ih =>
    intro frame p under
    refine ensures_bind (rule.reads under.holds frame) ?_
    rintro ⟨roots, store⟩ ⟨kept, asked, same⟩
    have read : Under c asks K { p with store := store } :=
      ⟨under.callback, kept, under.running.main same⟩
    refine ensures_bind (processRoots_under rule roots read asked) ?_
    rintro ⟨outcome, q⟩ decided
    dsimp only
    split
    · split
      · exact ensures_ok ⟨decided.1, fun res run => by cases run⟩
      · exact ih _ decided.1
    · exact ensures_ok decided
    · exact ensures_ok ⟨decided.1, fun res run => by cases run⟩

theorem processKnownRoots_under (rule : Rule dagIndex c asks K S) (under : Under c asks K p) :
    Ensures (p.processKnownRoots dagIndex) (Decided c asks K) := by
  refine ensures_bind (ensures_any _) fun lastDecidedFrame _ => ?_
  exact ensures_bind (ensures_any _) fun db _ => processFrames_under rule _ _ under

theorem decideFrames_under (rule : Rule dagIndex c asks K S) : ∀ (fuel : Nat) {p : Orderer World},
    Under c asks K p → Ensures (decideFrames dagIndex fuel p) fun r =>
      r.1 = .ok true ∧ S r.2 ∨ r.1 ≠ .ok true ∧ Under c asks K r.2 := by
  intro fuel
  induction fuel with
  | zero => exact fun _ => ensures_error
  | succ fuel ih =>
    intro p under
    refine ensures_bind (processKnownRoots_under rule under) ?_
    rintro ⟨outcome, q⟩ ⟨under, asked⟩
    dsimp only at under asked ⊢
    split
    · exact ensures_ok (.inr ⟨by simp, under⟩)
    · exact ensures_ok (.inr ⟨by simp, under⟩)
    · next res =>
      obtain ⟨follows, atropos⟩ := asked res rfl
      refine ensures_bind (onFrameDecided_under rule under follows atropos) ?_
      rintro ⟨isSealed, q'⟩ (⟨rfl, ends⟩ | ⟨rfl, ends⟩)
      · exact ensures_ok (.inl ⟨rfl, ends⟩)
      · exact ih ends

theorem bootstrapElection_under (rule : Rule dagIndex c asks K S) (under : Under c asks K p) :
    Ensures (p.bootstrapElection dagIndex) fun r =>
      r.1 = .ok true ∧ S r.2 ∨ r.1 ≠ .ok true ∧ Under c asks K r.2 := by
  exact ensures_bind (ensures_any _) fun db _ => decideFrames_under rule _ under

theorem handleElection_under (rule : Rule dagIndex c asks K S) (under : Under c asks K p)
    (selfParentFrame : Nat) {root : Event} (asked : asks root.id) :
    Ensures (p.handleElection dagIndex selfParentFrame root) fun r =>
      Under c asks K r.2 ∨ S r.2 := by
  rw [handleElection]
  induction Store.slots selfParentFrame root.frame generalizing p with
  | nil => exact ensures_ok (.inl under)
  | cons frame rest ih =>
    refine ensures_bind (processRoot_under rule under asked) ?_
    rintro ⟨outcome, q⟩ ⟨under, decided⟩
    dsimp only at under decided ⊢
    split
    · exact ensures_ok (.inl under)
    · exact ih under
    · next res =>
      obtain ⟨follows, atropos⟩ := decided res rfl
      refine ensures_bind (onFrameDecided_under rule under follows atropos) ?_
      rintro ⟨isSealed, q'⟩ (⟨rfl, ends⟩ | ⟨rfl, ends⟩)
      · exact ensures_ok (.inr ends)
      · refine ensures_bind (bootstrapElection_under rule ends) ?_
        rintro ⟨outcome, q''⟩ ends
        dsimp only at ends ⊢
        split
        · exact ensures_ok (.inl (ends.resolve_left (by simp)).2)
        · exact ensures_ok (.inr (ends.resolve_right (by simp)).2)
        · exact ih (ends.resolve_left (by simp)).2

end Loops

end Lachesis.Abft.Orderer
