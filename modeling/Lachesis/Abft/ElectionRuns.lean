import Lachesis.Abft.EpochGraph
import Lachesis.Abft.BlockEvents

/-!
The loops of the orderer follow the virtual votes. Where forks are light and branches are within the
cap, they end without an error. In the end all known roots have voted, every frame that they decide has
been told as a block, and the election waits for the next frame.
-/

namespace Lachesis.Abft

open Dag Pos Triples Vecfc Vecengine WeightedQuorum VirtualVoting

structure Orderly {vv : Validators} (D : EventDag vv) (M : List Event) : Prop where
  light : LightForks D.events vv
  capped : Capped M
  received : D.Received M
  framed : Framed D M
  approved : ∀ x ∈ M, Approved D x

section Chosen

variable {vv : Validators} {D : EventDag vv} {L M : List Event}

/-- Each block is that of the Atropos that the roots of the events elect for its frame. -/
def Chosen (D : EventDag vv) (M : List Event) (blocks : List Block) : Prop :=
  ∀ k b, blocks[k]? = some b → ∃ a ∈ M, b = ⟨a.id, forkersSeen D a⟩ ∧
    Elected vv (epochGraph D) (k + 1) (RootOf D M) a.id

theorem chosen_nil : Chosen D M [] := fun k b none_ => by simp at none_

theorem Chosen.snoc {blocks : List Block} (chosen : Chosen D M blocks) {a : Event} (inA : a ∈ M)
    (elected : Elected vv (epochGraph D) (blocks.length + 1) (RootOf D M) a.id) :
    Chosen D M (blocks ++ [⟨a.id, forkersSeen D a⟩]) := by
  intro k b found
  rcases Nat.lt_trichotomy k blocks.length with below | rfl | above
  · rw [List.getElem?_append_left below] at found
    exact chosen k b found
  · grind
  · grind

theorem Chosen.mono (part : ∀ x ∈ L, x ∈ M) {blocks : List Block} (chosen : Chosen D L blocks) :
    Chosen D M blocks := by
  intro k b found
  obtain ⟨a, inA, is, elected⟩ := chosen k b found
  refine ⟨a, part a inA, is, elected_mono ?_ elected⟩
  rintro _ ⟨x, inX, f, isRoot, rfl⟩
  exact ⟨x, part x inX, f, isRoot, rfl⟩

theorem elected_restrict {n : Nat} {fed : RootAndSlot → Prop} {a : EventID}
    (all : ∀ r, RootOf D M r → n < r.slot.frame → fed r)
    (elected : Elected vv (epochGraph D) (n + 1) (RootOf D M) a) :
    Elected vv (epochGraph D) (n + 1) fed a := by
  have restrict : ∀ {r}, RootOf D M r → n + 1 + 2 ≤ (epochGraph D).level r → fed r :=
    fun known above => all _ known (show n < _ by simp only [epochGraph, layers_level] at above; omega)
  obtain ⟨before, s, after, split, noes, ⟨r, known, yes⟩, subject⟩ := elected
  refine ⟨before, s, after, split, fun m member => ?_, ⟨r, restrict known yes.1, yes⟩, subject⟩
  obtain ⟨q, known, no⟩ := noes m member
  exact ⟨q, restrict known no.1, no⟩

def rootsFrom (roots : List RootAndSlot) (frame : Nat) : List RootAndSlot :=
  roots.filter fun r => frame ≤ r.slot.frame

theorem rootsFrom_lt {roots : List RootAndSlot} {frame : Nat} {r : RootAndSlot} (member : r ∈ roots)
    (here : r.slot.frame = frame) :
    (rootsFrom roots (frame + 1)).length < (rootsFrom roots frame).length := by
  have within : rootsFrom roots (frame + 1) =
      (rootsFrom roots frame).filter fun r => frame + 1 ≤ r.slot.frame := by
    rw [rootsFrom, rootsFrom, List.filter_filter]
    refine List.filter_congr fun r _ => ?_
    rw [Bool.eq_iff_iff, Bool.and_eq_true, decide_eq_true_eq, decide_eq_true_eq]
    omega
  rw [within, List.length_filter_lt_length_iff_exists]
  refine ⟨r, List.mem_filter.mpr ⟨member, ?_⟩, ?_⟩ <;> rw [decide_eq_true_eq] <;> omega

theorem rootsFrom_le (roots : List RootAndSlot) (frame : Nat) :
    (rootsFrom roots frame).length ≤ roots.length :=
  List.length_filter_le _ _

end Chosen

section Loops

variable {App : Type} {input : EventSource} {vv : Validators} {D : EventDag vv} {epoch : Nat}
  {kept M : List Event} {cb : ConsensusCallbacks App} {start : Told App} {blocks : List Block}
  {fed : RootAndSlot → Prop} {p : Orderer (World App)}

structure OnFrame (input : EventSource) (D : EventDag vv) (epoch : Nat) (kept M : List Event)
    (cb : ConsensusCallbacks App) (start : Told App) (blocks : List Block) (p : Orderer (World App)) :
    Prop where
  under : Orderer.Under (indexedCallbacks input) (IdIn M) (Settled D epoch kept M cb) p
  telling : Telling input cb start epoch blocks p.store p.world

/-- The roots of `fed` have voted in the current election and decided nothing. -/
structure Electing (input : EventSource) (D : EventDag vv) (epoch : Nat) (kept M : List Event)
    (cb : ConsensusCallbacks App) (start : Told App) (blocks : List Block) (fed : RootAndSlot → Prop)
    (p : Orderer (World App)) : Prop where
  onFrame : OnFrame input D epoch kept M cb start blocks p
  known : ∀ r, fed r → RootOf D M r
  tracks : ∃ el, p.election = some el ∧ Tracks vv (epochGraph D) (blocks.length + 1) fed el
  undecided : ∀ a, ¬ Elected vv (epochGraph D) (blocks.length + 1) fed a

def AllFed (D : EventDag vv) (M : List Event) (blocks : List Block) (fed : RootAndSlot → Prop) : Prop :=
  ∀ r, RootOf D M r → blocks.length < r.slot.frame → fed r

theorem externals_serve (orderly : Orderly D M) :
    Serves (Orderer.externals World.forklessCause)
      (fun (s : Store × World App) => Settled D epoch kept M cb s.1 s.2 ∧
        Telling input cb start epoch blocks s.1 s.2) (CausedBy D) (RootOf D M) where
  roots := by
    rintro ⟨store, w⟩ frame ⟨settled, telling⟩
    obtain ⟨rr, store', run, tabled, roots⟩ := settled.tabled.looks frame
    have told := getFrameRoots_toldAs (show ToldAs epoch _ _ store w from ⟨rfl, rfl⟩) frame _ run
    refine ⟨rr, (store', w), ?_, ⟨⟨tabled, settled.index, settled.callback⟩,
      told.1 ▸ telling.replays, ?_⟩, roots.nodup, roots.mem⟩
    · dsimp only [Orderer.externals]
      rw [run]
      rfl
    · exact (store.getFrameRoots_main frame _ run).2.trans telling.decided
  observe := by
    rintro ⟨store, w⟩ _ _ ⟨settled, telling⟩ ⟨x, inX, f, _, rfl⟩ ⟨y, inY, g, _, rfl⟩
    obtain ⟨hit, vi, run, index, same, right⟩ := forklessCause_stays settled.index inX inY
      (fun _ => id) fun K _ all _ => all
    refine ⟨hit, (store, { w with dagIndexer := vi }), ?_,
      ⟨⟨same.symm ▸ settled.tabled, index, settled.callback⟩, telling.replays, telling.decided⟩, ?_⟩
    · dsimp only [Orderer.externals, World.forklessCause, rootAt, bind, Except.bind]
      rw [run]
      rfl
    · rw [right orderly.capped]
      exact (causedBy_iff (orderly.received.inside x inX) (orderly.received.inside y inY)).symm

theorem processRoot_elects (orderly : Orderly D M)
    (electing : Electing input D epoch kept M cb start blocks fed p) {r : RootAndSlot}
    (known : RootOf D M r)
    (below : ∀ a, (epochGraph D).Prior r a → blocks.length + 1 < a.slot.frame → fed a) :
    (∃ q, p.processRoot World.forklessCause r = .ok (.ok none, q) ∧
      Electing input D epoch kept M cb start blocks (fun a => fed a ∨ a = r) q) ∨
    ∃ q a, p.processRoot World.forklessCause r = .ok (.ok (some ⟨blocks.length + 1, a⟩), q) ∧
      OnFrame input D epoch kept M cb start blocks q ∧ IdIn M a ∧
      Elected vv (epochGraph D) (blocks.length + 1) (RootOf D M) a := by
  obtain ⟨⟨under, telling⟩, fedKnown, ⟨el, running, tracks⟩, undecided⟩ := electing
  have sound := epochGraph_sound orderly.light (Nat.succ_pos blocks.length)
  have positive : 0 < mass (epochGraph D).weight (epochGraph D).members := by
    obtain ⟨x, inX, _⟩ := known
    have listed := (D.valid x (orderly.received.inside x inX)).listed
    exact (get_pos listed).trans_le
      (Finset.single_le_sum (fun _ _ => Nat.zero_le _) (mem_group.mpr listed))
  have open_ : Election.chooseAtropos el = .ok none := by
    rcases chooseAtropos_tracks sound rfl positive tracks with ⟨a, _, elected⟩ | ⟨open_, _⟩
    · exact absurd elected (undecided a)
    · exact open_
  obtain ⟨el', ⟨store, w⟩, run, ⟨settled, telling'⟩, tracks'⟩ := processRoot_tracks sound
    (externals_serve orderly) (fun a known => epochRoot_of orderly.approved known) known
    (fun a prior => prior_known orderly.approved orderly.received known prior) tracks
    (fun a prior above => below a prior above) (w := (p.store, p.world)) ⟨under.holds, telling⟩ open_
  have voted : p.processRoot World.forklessCause r = .ok (Election.chooseAtropos el',
      { p with election := some el', store := store, world := w }) := by
    rw [Orderer.processRoot, running]
    dsimp only
    rw [run]
    rfl
  obtain ⟨x, inX, f, isRoot, rfl⟩ := id known
  have kept' := Orderer.processRoot_under (settled_rule D epoch kept M cb) under
    (show IdIn M (rootAt x f).id from ⟨x, inX, rfl⟩) _ voted
  have fedKnown' : ∀ a, fed a ∨ a = rootAt x f → RootOf D M a := by grind
  rcases chooseAtropos_tracks sound rfl positive tracks' with ⟨a, decided, elected⟩ | ⟨open', none_⟩
  · rw [decided] at voted kept'
    exact .inr ⟨_, a, voted, ⟨kept'.1, telling'⟩, (kept'.2 _ rfl).2, elected_mono fedKnown' elected⟩
  · rw [open'] at voted
    exact .inl ⟨_, voted, ⟨⟨kept'.1, telling'⟩, fedKnown', ⟨el', rfl, tracks'⟩, none_⟩⟩

def Votes (input : EventSource) (D : EventDag vv) (epoch : Nat) (kept M : List Event)
    (cb : ConsensusCallbacks App) (start : Told App) (blocks : List Block)
    (fed : RootAndSlot → Prop) (run : Except Halt (Election.Outcome × Orderer (World App))) : Prop :=
  (∃ q fed', run = .ok (.ok none, q) ∧ Electing input D epoch kept M cb start blocks fed' q ∧
    ∀ r, fed r → fed' r) ∨
  ∃ q a, run = .ok (.ok (some ⟨blocks.length + 1, a⟩), q) ∧
    OnFrame input D epoch kept M cb start blocks q ∧ IdIn M a ∧
    Elected vv (epochGraph D) (blocks.length + 1) (RootOf D M) a

theorem processRoots_elects (orderly : Orderly D M) : ∀ (roots : List RootAndSlot)
    {fed : RootAndSlot → Prop} {p : Orderer (World App)},
    Electing input D epoch kept M cb start blocks fed p → (∀ r ∈ roots, RootOf D M r) →
    (∀ r ∈ roots, ∀ a, (epochGraph D).Prior r a → blocks.length + 1 < a.slot.frame → fed a) →
    Votes input D epoch kept M cb start blocks (fun r => fed r ∨ r ∈ roots)
      (Orderer.processRoots World.forklessCause roots p) := by
  intro roots
  induction roots with
  | nil => exact fun electing _ _ => .inl ⟨_, _, rfl, electing, by simp⟩
  | cons r rest ih =>
    intro fed p electing known below
    obtain ⟨first, later⟩ := List.forall_mem_cons.mp known
    obtain ⟨below, belows⟩ := List.forall_mem_cons.mp below
    rw [Orderer.processRoots]
    rcases processRoot_elects orderly electing first below with ⟨q, run, electing'⟩ |
      ⟨q, a, run, decided⟩
    · rw [run]
      rcases ih electing' later fun r member a prior above => .inl (belows r member a prior above) with
        ⟨q', fed', run', electing'', more⟩ | decided
      · refine .inl ⟨q', fed', run', electing'', ?_⟩
        rintro a (old | member)
        · exact more a (.inl (.inl old))
        · grind
      · exact .inr decided
    · rw [run]
      exact .inr ⟨q, a, rfl, decided⟩

variable {roots : List RootAndSlot}

theorem processFrames_elects (orderly : Orderly D M) (all : ∀ r, r ∈ roots ↔ RootOf D M r) :
    ∀ (fuel frame : Nat) {fed : RootAndSlot → Prop}
    {p : Orderer (World App)}, Electing input D epoch kept M cb start blocks fed p →
    blocks.length < frame → (rootsFrom roots frame).length < fuel →
    (∀ r, RootOf D M r → blocks.length < r.slot.frame → r.slot.frame < frame → fed r) →
    Votes input D epoch kept M cb start blocks
      (fun r => RootOf D M r ∧ blocks.length < r.slot.frame)
      (Orderer.processFrames World.forklessCause fuel frame p) := by
  intro fuel
  induction fuel with
  | zero => exact fun _ _ _ _ _ enough => absurd enough (Nat.not_lt_zero _)
  | succ fuel ih =>
    intro frame fed p electing above enough before
    obtain ⟨⟨under, telling⟩, fedKnown, tracks, undecided⟩ := electing
    obtain ⟨rr, store, run, tabled, found⟩ := under.holds.tabled.looks frame
    have main := (p.store.getFrameRoots_main frame _ run).2
    have told := getFrameRoots_toldAs (show ToldAs epoch _ _ p.store p.world from ⟨rfl, rfl⟩) frame _ run
    have electing : Electing input D epoch kept M cb start blocks fed { p with store := store } :=
      ⟨⟨⟨under.callback, ⟨tabled, under.holds.index, under.holds.callback⟩, under.running.main main⟩,
        told.1 ▸ telling.replays, main.trans telling.decided⟩, fedKnown, tracks, undecided⟩
    have known : ∀ r ∈ rr, RootOf D M r := fun r member => ((found.mem r).mp member).1
    have below : ∀ r ∈ rr, ∀ a, (epochGraph D).Prior r a → blocks.length + 1 < a.slot.frame →
        fed a := by
      intro r member a prior high
      obtain ⟨isRoot, here⟩ := (found.mem r).mp member
      have level : a.slot.frame + 1 = r.slot.frame := prior.2.1
      exact before a (prior_known orderly.approved orderly.received isRoot prior) (by omega) (by omega)
    rw [Orderer.processFrames, run]
    dsimp only [bind, Except.bind]
    rcases processRoots_elects orderly rr electing known below with
      ⟨q, fed', run', electing', more⟩ | ⟨q, a, run', decided⟩
    · rw [run']
      dsimp only
      have before' : ∀ r, RootOf D M r → blocks.length < r.slot.frame → r.slot.frame < frame + 1 →
          fed' r := by
        intro r isRoot low high
        rcases Nat.lt_or_eq_of_le (Nat.lt_succ_iff.mp high) with less | here
        · exact more r (.inl (before r isRoot low less))
        · exact more r (.inr ((found.mem r).mpr ⟨isRoot, here⟩))
      cases rr with
      | nil =>
        -- no root above an empty frame
        refine .inl ⟨q, fed', rfl, electing', ?_⟩
        rintro r ⟨⟨x, inX, f, isRoot, rfl⟩, low⟩
        by_contra missing
        have high : frame ≤ f := by
          by_contra less
          exact missing (before' _ ⟨x, inX, f, isRoot, rfl⟩ low (show f < frame + 1 by omega))
        obtain ⟨y, inY, isRoot'⟩ := frames_filled orderly.framed ⟨x, inX, isRoot⟩ frame
          (by omega) high
        exact absurd ((found.mem (rootAt y frame)).mpr ⟨⟨y, inY, frame, isRoot', rfl⟩, rfl⟩)
          List.not_mem_nil
      | cons r rest =>
        obtain ⟨isRoot, here⟩ := (found.mem r).mp List.mem_cons_self
        have fewer := rootsFrom_lt ((all r).mpr isRoot) here
        exact ih (frame + 1) electing' (by omega) (by omega) before'
    · rw [run']
      exact .inr ⟨q, a, rfl, decided⟩

theorem processKnownRoots_elects (orderly : Orderly D M)
    (electing : Electing input D epoch kept M cb start blocks fed p) :
    Votes input D epoch kept M cb start blocks
      (fun r => RootOf D M r ∧ blocks.length < r.slot.frame)
      (p.processKnownRoots World.forklessCause) := by
  have rooted := electing.onFrame.under.holds.tabled.rooted
  rw [Orderer.processKnownRoots, Store.getLastDecidedFrame, Store.getLastDecidedState,
    electing.onFrame.telling.decided, rooted.epochTable]
  refine processFrames_elects orderly rooted.mem _ _ electing (Nat.lt_succ_self _) ?_ ?_
  · exact Nat.lt_succ_of_le (rootsFrom_le _ _)
  · exact fun r _ low high => absurd high (Nat.not_lt.mpr low)

theorem onFrameDecided_elects (orderly : Orderly D M) (held : D.HeldBy input)
    (onFrame : OnFrame input D epoch kept M cb start blocks p) (chosen : Chosen D M blocks)
    {atropos : EventID} (known : IdIn M atropos)
    (elected : Elected vv (epochGraph D) (blocks.length + 1) (RootOf D M) atropos) :
    ∃ isSealed q b, p.onFrameDecided (blocks.length + 1) atropos = .ok (isSealed, q) ∧
      Chosen D M (blocks ++ [b]) ∧ q.world.callback = cb ∧
      if isSealed then ∃ vv', Sealed input (epoch + 1) vv' q ∧
        Closing input cb start (blocks ++ [b]) vv' q.world
      else Electing input D epoch kept M cb start (blocks ++ [b]) (fun _ => False) q := by
  obtain ⟨a, inA, rfl⟩ := known
  obtain ⟨cheaters, isSealed, q, run, named, consensus, ends⟩ :=
    onFrameDecided_delivers held onFrame.under.callback onFrame.under.holds onFrame.telling inA
  obtain rfl := named orderly.capped
  refine ⟨isSealed, q, _, run, chosen.snoc inA elected, consensus, ?_⟩
  cases isSealed with
  | true => exact ends
  | false =>
    obtain ⟨callback, settled, telling, election⟩ := ends
    have length : (blocks ++ [(⟨a.id, forkersSeen D a⟩ : Block)]).length = blocks.length + 1 := by simp
    refine ⟨⟨⟨callback, settled, ?_⟩, telling⟩, fun _ => False.elim, ⟨_, election, ?_⟩, ?_⟩
    · rw [election]
      have decided := telling.decided
      rw [length] at decided
      exact Orderer.running_reset _ vv decided
    · rw [length]
      exact reset_tracks vv _ _
    · rintro a ⟨_, _, _, _, _, ⟨r, fed, _⟩, _⟩
      exact fed

def Settles (input : EventSource) (D : EventDag vv) (epoch : Nat) (kept M : List Event)
    (cb : ConsensusCallbacks App) (start : Told App) (isSealed : Bool) (q : Orderer (World App)) :
    Prop :=
  ∃ blocks, Chosen D M blocks ∧ q.world.callback = cb ∧
    if isSealed then ∃ vv', Sealed input (epoch + 1) vv' q ∧ Closing input cb start blocks vv' q.world
    else ∃ fed, Electing input D epoch kept M cb start blocks fed q ∧ AllFed D M blocks fed

theorem decideFrames_elects (orderly : Orderly D M) (held : D.HeldBy input)
    (all : ∀ r, r ∈ roots ↔ RootOf D M r) : ∀ (fuel : Nat) {blocks : List Block}
    {fed : RootAndSlot → Prop} {p : Orderer (World App)},
    Electing input D epoch kept M cb start blocks fed p → Chosen D M blocks →
    (rootsFrom roots (blocks.length + 1)).length < fuel →
    ∃ isSealed q, Orderer.decideFrames World.forklessCause fuel p = .ok (.ok isSealed, q) ∧
      Settles input D epoch kept M cb start isSealed q := by
  intro fuel
  induction fuel with
  | zero => exact fun _ _ enough => absurd enough (Nat.not_lt_zero _)
  | succ fuel ih =>
    intro blocks fed p electing chosen enough
    rw [Orderer.decideFrames]
    rcases processKnownRoots_elects orderly electing with
      ⟨q, fed', run, electing', more⟩ | ⟨q, a, run, onFrame, known, elected⟩
    · rw [run]
      exact ⟨false, q, rfl, blocks, chosen, electing'.onFrame.under.holds.callback, fed', electing',
        fun r isRoot low => more r ⟨isRoot, low⟩⟩
    · rw [run]
      dsimp only [bind, Except.bind]
      obtain ⟨isSealed, q', b, run', chosen', consensus, ends⟩ :=
        onFrameDecided_elects orderly held onFrame chosen known elected
      rw [run']
      cases isSealed with
      | true => exact ⟨true, q', rfl, _, chosen', consensus, ends⟩
      | false =>
        -- the decided frame has a root, which is not looked at again
        obtain ⟨_, _, _, _, _, ⟨_, ⟨x, inX, f, isRoot, rfl⟩, high, _⟩, _⟩ := elected
        have high : blocks.length + 1 + 2 ≤ f := high
        obtain ⟨y, inY, here⟩ := frames_filled orderly.framed ⟨x, inX, isRoot⟩ (blocks.length + 1)
          (by omega) (by omega)
        have fewer : (rootsFrom roots (blocks.length + 1 + 1)).length <
            (rootsFrom roots (blocks.length + 1)).length :=
          rootsFrom_lt ((all (rootAt y (blocks.length + 1))).mpr ⟨y, inY, _, here, rfl⟩) rfl
        refine ih ends chosen' ?_
        rw [List.length_append, List.length_singleton]
        omega

theorem bootstrapElection_elects (orderly : Orderly D M) (held : D.HeldBy input)
    (electing : Electing input D epoch kept M cb start blocks fed p) (chosen : Chosen D M blocks) :
    ∃ isSealed q, p.bootstrapElection World.forklessCause = .ok (.ok isSealed, q) ∧
      Settles input D epoch kept M cb start isSealed q := by
  have rooted := electing.onFrame.under.holds.tabled.rooted
  rw [Orderer.bootstrapElection, rooted.epochTable]
  exact decideFrames_elects orderly held rooted.mem _ electing chosen
    (Nat.lt_succ_of_le (rootsFrom_le _ _))

theorem handleSlots_elects (orderly : Orderly D M) (held : D.HeldBy input) {e : Event} (inE : e ∈ M) :
    ∀ (slots : List Nat) {blocks : List Block} {fed : RootAndSlot → Prop} {p : Orderer (World App)},
    slots.Pairwise (· < ·) → (∀ f ∈ slots, IsRoot D e f) →
    Electing input D epoch kept M cb start blocks fed p → Chosen D M blocks →
    (∀ r, RootOf D M r → blocks.length < r.slot.frame → fed r ∨ ∃ f ∈ slots, r = rootAt e f) →
    ∃ isSealed q, Orderer.handleSlots World.forklessCause e slots p = .ok (.ok (), q) ∧
      Settles input D epoch kept M cb start isSealed q := by
  intro slots
  induction slots with
  | nil =>
    intro blocks fed p _ _ electing chosen all
    refine ⟨false, p, rfl, blocks, chosen, electing.onFrame.under.holds.callback, fed, electing,
      fun r isRoot low => (all r isRoot low).resolve_right ?_⟩
    rintro ⟨f, member, _⟩
    exact absurd member List.not_mem_nil
  | cons f rest ih =>
    intro blocks fed p sorted isRoots electing chosen all
    obtain ⟨lower, sorted'⟩ := List.pairwise_cons.mp sorted
    obtain ⟨isRoot, isRoots'⟩ := List.forall_mem_cons.mp isRoots
    have known : RootOf D M (rootAt e f) := ⟨e, inE, f, isRoot, rfl⟩
    have below : ∀ a, (epochGraph D).Prior (rootAt e f) a → blocks.length + 1 < a.slot.frame →
        fed a := by
      intro a prior high
      have level : a.slot.frame + 1 = f := prior.2.1
      refine (all a (prior_known orderly.approved orderly.received known prior) (by omega)).resolve_right ?_
      rintro ⟨g, member, rfl⟩
      have level : g + 1 = f := level
      rcases List.mem_cons.mp member with rfl | later
      · omega
      · have := lower g later
        omega
    rw [Orderer.handleSlots]
    rcases processRoot_elects orderly electing known below with
      ⟨q, run, electing'⟩ | ⟨q, a, run, onFrame, named, elected⟩
    · rw [show (⟨e.id, ⟨f, e.creator⟩⟩ : RootAndSlot) = rootAt e f from rfl, run]
      refine ih sorted' isRoots' electing' chosen fun r isRoot low => ?_
      rcases all r isRoot low with old | ⟨g, member, rfl⟩
      · exact .inl (.inl old)
      · grind
    · rw [show (⟨e.id, ⟨f, e.creator⟩⟩ : RootAndSlot) = rootAt e f from rfl, run]
      dsimp only [bind, Except.bind]
      obtain ⟨isSealed, q', b, run', chosen', consensus, ends⟩ :=
        onFrameDecided_elects orderly held onFrame chosen named elected
      rw [run']
      cases isSealed with
      | true => exact ⟨true, q', rfl, _, chosen', consensus, ends⟩
      | false =>
        obtain ⟨isSealed, q'', run'', settles⟩ :=
          bootstrapElection_elects orderly held ends chosen'
        dsimp only
        rw [if_neg (by simp), run'']
        cases isSealed with
        | true => exact ⟨true, q'', rfl, settles⟩
        | false =>
          obtain ⟨blocks', chosen'', consensus, fed', electing', all'⟩ := settles
          exact ih sorted' isRoots' electing' chosen'' fun r isRoot low =>
            .inl (all' r isRoot low)

end Loops

end Lachesis.Abft
