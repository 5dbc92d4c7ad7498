import Lachesis.Abft.Polling
import Lachesis.Abft.RootSlots

/-!
Blocks and `Bootstrap`. The application's callbacks are set only after the orderer has run the
election over the stored roots, so what that election decides is recorded but handed to nobody.
-/

namespace Lachesis.Abft

open Dag Pos Triples Vecfc

variable {App : Type} {input : EventSource}

/-- Every frame decided between `p` and `q` was handed to the application as a block, once and in
order. -/
def Delivered (p q : Orderer (World App)) : Prop :=
  ∃ l l' new, p.store.lastDecidedState = some ⟨l⟩ ∧ q.store.lastDecidedState = some ⟨l'⟩ ∧
    q.world.blocks = p.world.blocks ++ new ∧
    new.map EmittedBlock.frame = List.range' (l + 1) (l' - l)

/-- The election that follows the last decided frame decides nothing over the stored roots. -/
def Undecided (c : OrdererCallbacks (World App)) (p : Orderer (World App)) : Prop :=
  ∀ q res o, p.load c = .ok q → q.processKnownRoots World.forklessCause ≠ .ok (.ok (some res), o)

def told (w : World App) : ConsensusCallbacks App × App × List EmittedBlock :=
  (w.callback, w.app, w.blocks)

theorem forklessCause_told (w : World App) (a b : EventID) :
    Ensures (w.forklessCause a b) fun r => told r.2 = told w := by
  exact ensures_bind (ensures_any _) fun r _ => ensures_ok rfl

structure Deciding (input : EventSource) (w : World App) (l : Nat) (p : Orderer (World App)) :
    Prop where
  apply : p.callback.applyAtropos = some (applyAtropos input)
  absent : w.callback.beginBlock = none
  told : told p.world = told w
  lastDecidedState : p.store.lastDecidedState = some ⟨l⟩
  target : ∃ validators, p.target = some (l + 1, validators)

variable {w : World App} {l : Nat} {p : Orderer (World App)}

variable {q : Orderer (World App)}

theorem Deciding.quiet (deciding : Deciding input w l p) (quiet : Orderer.Quiet Abft.told p q) :
    Deciding input w l q := by
  refine ⟨quiet.callback ▸ deciding.apply, deciding.absent, quiet.watched.trans deciding.told,
    quiet.lastDecidedState.trans deciding.lastDecidedState, ?_⟩
  rw [quiet.target]
  exact deciding.target

theorem onFrameDecided_unheard (deciding : Deciding input w l p) (atropos : EventID) :
    Ensures (p.onFrameDecided (l + 1) atropos) fun r =>
      r.1 = false ∧ Deciding input w (l + 1) r.2 := by
  have applied : Ensures (p.applyAtropos (l + 1) atropos) fun r =>
      r.1 = none ∧ r.2.callback = p.callback ∧ told r.2.world = told p.world := by
    rw [Orderer.applyAtropos, deciding.apply]
    have skipped : Ensures (applyAtropos input p.store p.world (l + 1) atropos) fun r =>
        r.1 = none ∧ told r.2.2 = told p.world := by
      refine ensures_bind (ensures_any _) fun clock _ => ensures_bind (ensures_any _) fun validators _ =>
        ensures_bind (ensures_any _) fun db _ => ?_
      have begins := deciding.told
      simp only [told, Prod.mk.injEq] at begins
      dsimp only
      rw [begins.1, deciding.absent]
      exact ensures_ok ⟨rfl, by rw [told, told, begins.1]⟩
    refine ensures_bind skipped ?_
    rintro ⟨newValidators, confirmedEvent, w'⟩ ⟨none, same⟩
    exact ensures_bind (ensures_any _) fun db _ => ensures_ok ⟨none, rfl, same⟩
  refine ensures_bind applied ?_
  rintro ⟨newValidators, q⟩ ⟨none, callback, same⟩
  obtain rfl : newValidators = .none := none
  refine ensures_bind (ensures_any _) fun _ _ => ensures_bind (ensures_any _) fun validators _ => ensures_ok ⟨rfl, ?_⟩
  exact ⟨callback ▸ deciding.apply, deciding.absent, same.trans deciding.told, rfl, validators, rfl⟩

theorem decideFrames_unheard : ∀ (fuel : Nat) {l : Nat} {p : Orderer (World App)},
    Deciding input w l p →
    Ensures (Orderer.decideFrames World.forklessCause fuel p) fun r =>
      ∃ l', l ≤ l' ∧ Deciding input w l' r.2 ∧
        (l' = l ↔ ∀ res o, p.processKnownRoots World.forklessCause ≠ .ok (.ok (some res), o)) := by
  intro fuel
  induction fuel with
  | zero => exact fun _ => ensures_error
  | succ fuel ih =>
    intro l p deciding
    have known : Ensures (p.processKnownRoots World.forklessCause) fun r =>
        p.processKnownRoots World.forklessCause = .ok r ∧ Orderer.Polled told p r :=
      fun r run => ⟨run, Orderer.processKnownRoots_polled forklessCause_told p r run⟩
    refine ensures_bind known ?_
    rintro ⟨outcome, q⟩ ⟨first, quiet, frame⟩
    have deciding := deciding.quiet quiet
    rw [first]
    dsimp only at frame deciding ⊢
    split
    · exact ensures_ok ⟨l, le_rfl, deciding, iff_of_true rfl fun res o same => by cases same⟩
    · exact ensures_ok ⟨l, le_rfl, deciding, iff_of_true rfl fun res o same => by cases same⟩
    · next res =>
      -- the frame is the one the election is about
      obtain ⟨t, target, at'⟩ := frame res rfl
      obtain ⟨validators, target'⟩ := deciding.target
      rw [show q.target = p.target from quiet.target, target, Option.some.injEq] at target'
      obtain ⟨frame', atropos⟩ := res
      obtain rfl : frame' = l + 1 := at'.trans (congrArg Prod.fst target')
      refine ensures_bind (onFrameDecided_unheard deciding atropos) ?_
      rintro ⟨isSealed, q'⟩ ⟨rfl, deciding⟩
      refine ensures_mono (ih deciding) ?_
      rintro r ⟨l', above, deciding, _⟩
      exact ⟨l', by omega, deciding, iff_of_false (by omega) fun none => none _ q rfl⟩

structure Wired (input : EventSource) (c : OrdererCallbacks (World App)) : Prop where
  apply : c.applyAtropos = some (applyAtropos input)
  loads : ∀ loaded, c.epochDBLoaded = some loaded →
    ∀ store w epoch, told (loaded store w epoch) = told w

variable {c : OrdererCallbacks (World App)}

theorem load_deciding (wired : Wired input c) (absent : p.world.callback.beginBlock = none) :
    Ensures (p.load c) fun q =>
      ∃ l, p.store.lastDecidedState = some ⟨l⟩ ∧ Deciding input p.world l q := by
  refine ensures_bind (ensures_any _) fun epoch _ => ensures_bind (ensures_any _) fun validators _ => ?_
  rw [Store.getLastDecidedFrame, Store.getLastDecidedState]
  dsimp only [Store.openEpochDB]
  split
  · exact ensures_error
  · next state saved =>
    refine ensures_ok ⟨state.lastDecidedFrame, saved, wired.apply, absent, ?_, saved, validators, rfl⟩
    cases given : c.epochDBLoaded with
    | none => rfl
    | some loaded => exact wired.loads loaded given _ _ _

theorem delivered_iff {l l' : Nat} (saved : p.store.lastDecidedState = some ⟨l⟩) (above : l ≤ l')
    (saved' : q.store.lastDecidedState = some ⟨l'⟩) (silent : q.world.blocks = p.world.blocks) :
    Delivered p q ↔ l' = l := by
  constructor
  · rintro ⟨n, n', new, before, after, told, frames⟩
    rw [saved, Option.some.injEq, LastDecidedState.mk.injEq] at before
    rw [saved', Option.some.injEq, LastDecidedState.mk.injEq] at after
    rw [silent, List.self_eq_append_right] at told
    subst before after told
    have length := congrArg List.length frames
    rw [List.length_range'] at length
    simp only [List.map_nil, List.length_nil] at length
    omega
  · rintro rfl
    exact ⟨l', l', [], saved, saved', by simp [silent], by simp⟩

theorem bootstrapWithOrderer_delivers (wired : Wired input c) (new : p.election = none)
    (absent : p.world.callback.beginBlock = none) (callback : ConsensusCallbacks App) :
    Ensures (bootstrapWithOrderer p callback c) fun r => Delivered p r.2 ↔ Undecided c p := by
  have loaded : Ensures (p.load c) fun q => p.load c = .ok q ∧
      ∃ l, p.store.lastDecidedState = some ⟨l⟩ ∧ Deciding input p.world l q :=
    fun q run => ⟨run, load_deciding wired absent q run⟩
  have started : Ensures (p.bootstrap World.forklessCause c) fun r =>
      ∃ l l', p.store.lastDecidedState = some ⟨l⟩ ∧ l ≤ l' ∧ Deciding input p.world l' r.2 ∧
        (l' = l ↔ Undecided c p) := by
    rw [Orderer.bootstrap, new]
    refine ensures_bind loaded ?_
    rintro q ⟨run, l, saved, deciding⟩
    have decided : Ensures (q.bootstrapElection World.forklessCause) fun r =>
        ∃ l', l ≤ l' ∧ Deciding input p.world l' r.2 ∧
          (l' = l ↔ ∀ res o, q.processKnownRoots World.forklessCause ≠ .ok (.ok (some res), o)) :=
      ensures_bind (ensures_any _) fun db _ => decideFrames_unheard _ deciding
    refine ensures_bind decided ?_
    rintro ⟨outcome, q'⟩ ⟨l', above, deciding, none⟩
    have undecided : l' = l ↔ Undecided c p := by
      refine none.trans ⟨fun quiet q'' res o run' => ?_, fun quiet res o => quiet q res o run⟩
      cases run.symm.trans run'
      exact quiet res o
    dsimp only
    split <;> exact ensures_ok ⟨l, l', saved, above, deciding, undecided⟩
  refine ensures_bind started ?_
  rintro ⟨error, q⟩ ⟨l, l', saved, above, deciding, undecided⟩
  have silent := deciding.told
  simp only [told, Prod.mk.injEq] at silent
  dsimp only
  split <;>
    exact ensures_ok ((delivered_iff saved above deciding.lastDecidedState silent.2.2).trans undecided)

/-- `Bootstrap` of a new `Lachesis` or `IndexedLachesis`, over any store: the frames it decides are
delivered exactly if the stored roots decide no frame. -/
theorem bootstrap_delivers_iff (input : EventSource) (callback : ConsensusCallbacks App) :
    (∀ (p : Orderer (World App)) error q, p.election = none → p.world.callback.beginBlock = none →
      lachesisBootstrap input p callback = .ok (error, q) →
      (Delivered p q ↔ Undecided (lachesisCallbacks input) p)) ∧
    ∀ (p p' : IndexedLachesis App) error, p.lachesis.election = none →
      p.lachesis.world.callback.beginBlock = none → p.bootstrap input callback = .ok (error, p') →
      (Delivered p.lachesis p'.lachesis ↔ Undecided (indexedCallbacks input) p.lachesis) := by
  constructor
  · intro p error q new absent run
    have wired : Wired input (lachesisCallbacks input : OrdererCallbacks (World App)) := ⟨rfl, fun _ given => (nomatch given)⟩
    exact bootstrapWithOrderer_delivers wired new absent callback _ run
  · intro p p' error new absent run
    have wired : Wired input (indexedCallbacks input : OrdererCallbacks (World App)) := by
      refine ⟨rfl, ?_⟩
      rintro _ ⟨⟩ store w epoch
      unfold resetIndex
      split <;> rfl
    revert run
    have boots : Ensures (p.bootstrap input callback) fun r =>
        Delivered p.lachesis r.2.lachesis ↔ Undecided (indexedCallbacks input) p.lachesis :=
      ensures_bind (bootstrapWithOrderer_delivers wired new absent callback) fun r kept =>
        ensures_ok kept
    exact boots (error, p')

def soloValidators : Validators where
  sortedArray := [⟨1, 1⟩]
  ordered := by decide
  distinct := by decide
  positive := by decide
  limited := by decide

def soloEvent (seq : Nat) : Event where
  epoch := 1
  seq := seq
  frame := seq
  creator := 1
  parents := if seq = 1 then [] else [BitVec.ofNat 256 (seq - 1)]
  lamport := seq
  id := BitVec.ofNat 256 seq

def soloInput : EventSource := ⟨[soloEvent 1, soloEvent 2, soloEvent 3]⟩

def lateDisk : Disk where
  lastDecidedState := some ⟨0⟩
  epochState := some ⟨1, soloValidators⟩
  epochDBs := Function.update (fun _ => .empty) 1
    { roots := [⟨1, ⟨1, 1⟩⟩, ⟨2, ⟨2, 1⟩⟩, ⟨3, ⟨3, 1⟩⟩]
      vectorIndex :=
        { eventBranch := [(3, 0), (2, 0), (1, 0)]
          branchesInfo := [((), ⟨[3], [0], [[0]]⟩)]
          highestBeforeSeq := [(3, ⟨[⟨3, 1⟩]⟩), (2, ⟨[⟨2, 1⟩]⟩), (1, ⟨[⟨1, 1⟩]⟩)]
          lowestAfterSeq := [(3, ⟨[3]⟩), (2, ⟨[2]⟩), (1, ⟨[1]⟩)] }
      confirmedEvent := [] }

def lateStart : IndexedLachesis Unit :=
  .new soloInput ⟨100, 100⟩ ⟨10, 10, 10⟩ lateDisk soloValidators () []

/-- The first frame is decided, and the application never hears of it. -/
theorem bootstrap_drops_block : ∃ p' : IndexedLachesis Unit,
    lateStart.bootstrap soloInput idleCallbacks = .ok (none, p') ∧
    p'.lachesis.store.lastDecidedState = some ⟨1⟩ ∧ p'.lachesis.world.blocks = [] ∧
    ¬ Delivered lateStart.lachesis p'.lachesis := by
  obtain ⟨p', run, saved, silent⟩ : ∃ p' : IndexedLachesis Unit,
      lateStart.bootstrap soloInput idleCallbacks = .ok (none, p') ∧
      p'.lachesis.store.lastDecidedState = some ⟨1⟩ ∧ p'.lachesis.world.blocks = [] :=
    ⟨_, rfl, rfl, rfl⟩
  refine ⟨p', run, saved, silent, fun delivered => ?_⟩
  exact absurd ((delivered_iff rfl (Nat.zero_le 1) saved silent).mp delivered) (by decide)

theorem bootstrap_delivers_iff_late : ∃ p' : IndexedLachesis Unit,
    lateStart.bootstrap soloInput idleCallbacks = .ok (none, p') ∧
    (Delivered lateStart.lachesis p'.lachesis ↔
      Undecided (indexedCallbacks soloInput) lateStart.lachesis) := by
  obtain ⟨p', run⟩ : ∃ p', lateStart.bootstrap soloInput idleCallbacks = .ok (none, p') := ⟨_, rfl⟩
  exact ⟨p', run, (bootstrap_delivers_iff soloInput idleCallbacks).2 lateStart p' none rfl rfl run⟩

end Lachesis.Abft
