import Lachesis.Abft.Lives
import Lachesis.Abft.FrameOrder

/-!
Root slots along a chain. A validator without forks has one root in each frame up to that of its last
event, and a frame with roots rests on a quorum in the frame below; so no frame is empty below a root,
and `processKnownRoots` goes through all that is stored.
-/

namespace Lachesis.Abft

open Dag Pos Triples Vecfc Vecengine WeightedQuorum

section Chains

variable {vv : Validators} {D : EventDag vv} {L : List Event}

variable {x : Event} {f : Nat} {rr : List RootAndSlot}

theorem Framed.below (framed : Framed D L) (received : D.Received L) (inX : x ∈ L) :
    ∀ z, Dag.Observes D.events x z → spFrame D z ≤ z.frame :=
  fun z sees => (framed.above z (received.observes inX sees)).1

theorem exists_root (received : D.Received L) (inX : x ∈ L) (positive : 1 ≤ f) (below : f ≤ x.frame) :
    ∃ y ∈ L, SelfObserves D.events x y ∧ IsRoot D y f := by
  induction steps : x.seq generalizing x with
  | zero =>
    have := EventDag.seq_pos (received.inside x inX)
    omega
  | succ steps ih =>
    by_cases own : spFrame D x < f
    · exact ⟨x, inX, .refl, own, below⟩
    · cases self : x.selfParent with
      | none =>
        rw [spFrame_none self] at own
        omega
      | some id =>
        obtain ⟨z, inZ, rfl, _, seq⟩ := (D.valid x (received.inside x inX)).next id self
        have step : SelfParent D.events x z := ⟨inZ, self⟩
        rw [spFrame_some step] at own
        obtain ⟨y, inY, path, isRoot⟩ := ih (received.parent inX (EventDag.SelfParent.parent step))
          (by omega) (by omega)
        exact ⟨y, inY, .head step path, isRoot⟩

theorem on_line (received : D.Received L) {y : Event} (honest : ¬ HasFork L x.creator) (inX : x ∈ L)
    (inY : y ∈ L) (same : y.creator = x.creator) :
    SelfObserves D.events x y ∨ SelfObserves D.events y x := by
  have inside : ∀ a b, SelfObserves L a b → SelfObserves D.events a b := fun a b path =>
    Relation.ReflTransGen.mono (fun _ z step => ⟨received.inside z step.1, step.2⟩) a b path
  by_contra apart
  rw [not_or] at apart
  exact honest ⟨x, inX, y, inY, rfl, same, fun path => apart.1 (inside _ _ path),
    fun path => apart.2 (inside _ _ path)⟩

theorem slots_tile (framed : Framed D L) (received : D.Received L) (inX : x ∈ L)
    (honest : ¬ HasFork L x.creator) (last : ∀ y ∈ L, y.creator = x.creator → y.seq ≤ x.seq)
    (roots : Store.RootsIn (RootOf D L) f rr) :
    (1 ≤ f → f ≤ x.frame → rr.countP (fun r => r.slot.validator = x.creator) = 1) ∧
      (x.frame < f → rr.countP (fun r => r.slot.validator = x.creator) = 0) := by
  have line : ∀ y ∈ L, y.creator = x.creator → SelfObserves D.events x y := by
    intro y inY same
    rcases on_line received honest inX inY same with path | path
    · exact path
    · have seq := (EventDag.SelfObserves.facts (received.inside y inY) path).2
      rw [EventDag.SelfObserves.eq_of_seq (received.inside y inY) path
        (le_antisymm (last y inY same) seq)]
      exact .refl
  constructor
  · intro positive below
    obtain ⟨y, inY, path, isRoot⟩ := exists_root received inX positive below
    have own := (EventDag.SelfObserves.facts (received.inside x inX) path).1
    have only : (rr.filter fun r => r.slot.validator = x.creator).Perm [rootAt y f] := by
      rw [List.perm_ext_iff_of_nodup (roots.nodup.filter _) (List.nodup_singleton _)]
      intro r
      rw [List.mem_filter, roots.mem, List.mem_singleton, decide_eq_true_iff]
      constructor
      · rintro ⟨⟨⟨z, inZ, g, isRoot', rfl⟩, frame⟩, owner⟩
        obtain rfl : g = f := frame
        -- both lie below `x`, so one lies below the other
        rcases EventDag.selfObserves_total (line z inZ owner) path with down | down
        · rw [eq_of_self_root (framed.below received inZ) down isRoot' isRoot]
        · rw [eq_of_self_root (framed.below received inY) down isRoot isRoot']
      · rintro rfl
        exact ⟨⟨⟨y, inY, f, isRoot, rfl⟩, rfl⟩, own⟩
    rw [List.countP_eq_length_filter, only.length_eq]
    rfl
  · intro above
    rw [List.countP_eq_zero]
    intro r member owner
    obtain ⟨⟨z, inZ, g, isRoot, rfl⟩, frame⟩ := (roots.mem r).mp member
    obtain rfl : g = f := frame
    have := frame_le_of_self (framed.below received inX) (line z inZ (of_decide_eq_true owner))
    have := isRoot.2
    omega

theorem rootsIn_owners (roots : Store.RootsIn (RootOf D L) f rr) :
    vv.group.filter (fun v => ∃ r ∈ rr, r.slot.validator = v) = owners D L f := by
  ext v
  rw [Finset.mem_filter, mem_owners, mem_group]
  refine and_congr_right fun _ => ⟨?_, ?_⟩
  · rintro ⟨r, member, rfl⟩
    obtain ⟨⟨x, inX, g, isRoot, rfl⟩, frame⟩ := (roots.mem r).mp member
    obtain rfl : g = f := frame
    exact ⟨x, inX, isRoot, rfl⟩
  · rintro ⟨x, inX, isRoot, rfl⟩
    exact ⟨rootAt x f, (roots.mem _).mpr ⟨⟨x, inX, f, isRoot, rfl⟩, rfl⟩, rfl⟩

theorem frames_filled (framed : Framed D L) (filled : ∃ x ∈ L, IsRoot D x f) :
    ∀ g, 1 ≤ g → g ≤ f → ∃ x ∈ L, IsRoot D x g := by
  induction f with
  | zero => exact fun g positive below => by omega
  | succ f ih =>
    intro g positive below
    rcases Nat.eq_or_lt_of_le below with rfl | less
    · exact filled
    · obtain ⟨x, inX, isRoot⟩ := filled
      refine ih ?_ g positive (by omega)
      by_contra none
      have heavy := framed.backed x inX f isRoot (by omega)
      have empty : owners D L f = ∅ := by
        refine Finset.eq_empty_of_forall_notMem fun v member => none ?_
        obtain ⟨_, y, inY, rootY, _⟩ := mem_owners.mp member
        exact ⟨y, inY, rootY⟩
      rw [empty, mass_empty] at heavy
      have : 0 < vv.quorum := quorum_pos
      omega

end Chains

section Visits

variable {World : Type} (dagIndex : World → EventID → EventID → Except Halt (Bool × World))

inductive Fed : Orderer World → List RootAndSlot → Orderer World → Prop where
  | done (p : Orderer World) : Fed p [] p
  | read {p q : Orderer World} {roots rr : List RootAndSlot} {f : Nat} {store : Store}
      (look : p.store.getFrameRoots f = .ok (rr, store)) (later : Fed { p with store := store } roots q) :
      Fed p roots q
  | root {p o q : Orderer World} {r : RootAndSlot} {roots : List RootAndSlot}
      (fed : p.processRoot dagIndex r = .ok (.ok none, o)) (later : Fed o roots q) :
      Fed p (r :: roots) q

variable {dagIndex}

theorem Fed.append {p o q : Orderer World} {roots more : List RootAndSlot} (first : Fed dagIndex p roots o)
    (second : Fed dagIndex o more q) : Fed dagIndex p (roots ++ more) q := by
  induction first with
  | done => exact second
  | read look _ ih => exact .read look (ih second)
  | root fed _ ih => exact .root fed (ih second)

theorem processRoots_fed : ∀ {roots : List RootAndSlot} {p q : Orderer World},
    Orderer.processRoots dagIndex roots p = .ok (.ok none, q) → Fed dagIndex p roots q := by
  intro roots
  induction roots with
  | nil =>
    intro p q run
    cases run
    exact .done _
  | cons r rest ih =>
    intro p q run
    unfold Orderer.processRoots at run
    cases first : p.processRoot dagIndex r with
    | error fault =>
      rw [first] at run
      cases run
    | ok result =>
      obtain ⟨outcome, o⟩ := result
      rw [first] at run
      rcases outcome with error | _ | res
      · cases run
      · exact .root first (ih run)
      · cases run

theorem processFrames_fed {c : OrdererCallbacks World} {asks : EventID → Prop}
    {K : Store → World → Prop} {S : Orderer World → Prop} {R : RootAndSlot → Prop}
    (rule : Orderer.Rule dagIndex c asks K S)
    (reads : ∀ store w f rr store', K store w → store.getFrameRoots f = .ok (rr, store') →
      Store.RootsIn R f rr) : ∀ (fuel frame : Nat) {p q : Orderer World},
    Orderer.Under c asks K p → Orderer.processFrames dagIndex fuel frame p = .ok (.ok none, q) →
    ∃ roots, Fed dagIndex p roots q ∧ ∀ r, R r → frame ≤ r.slot.frame →
      (∀ g, frame ≤ g → g ≤ r.slot.frame → ∃ r', R r' ∧ r'.slot.frame = g) → r ∈ roots := by
  intro fuel
  induction fuel with
  | zero => exact fun _ _ _ _ run => (nomatch run)
  | succ fuel ih =>
    intro frame p q under run
    unfold Orderer.processFrames at run
    cases look : p.store.getFrameRoots frame with
    | error fault =>
      rw [look] at run
      cases run
    | ok found =>
      obtain ⟨rr, store⟩ := found
      rw [look] at run
      dsimp only [bind, Except.bind] at run
      have roots := reads _ _ _ _ _ under.holds look
      obtain ⟨kept, asked, same⟩ := rule.reads under.holds frame _ look
      cases feeds : Orderer.processRoots dagIndex rr { p with store := store } with
      | error fault =>
        rw [feeds] at run
        cases run
      | ok result =>
        obtain ⟨outcome, o⟩ := result
        have still := Orderer.processRoots_under rule rr
          (show Orderer.Under c asks K { p with store := store } from
            ⟨under.callback, kept, under.running.main same⟩) asked _ feeds
        rw [feeds] at run
        dsimp only at run
        rcases outcome with error | _ | res
        · cases run
        · have fed := Fed.read look (processRoots_fed feeds)
          dsimp only at run
          split at run
          · next empty =>
            cases run
            refine ⟨rr, fed, fun r _ above filled => ?_⟩
            obtain ⟨r', is, at'⟩ := filled frame le_rfl above
            have member := (roots.mem r').mpr ⟨is, at'⟩
            rw [List.isEmpty_iff.mp empty] at member
            exact absurd member List.not_mem_nil
          · obtain ⟨more, later, visits⟩ := ih (frame + 1) still.1 run
            refine ⟨rr ++ more, fed.append later, fun r is above filled => ?_⟩
            rcases Nat.eq_or_lt_of_le above with here | higher
            · exact List.mem_append_left _ ((roots.mem r).mpr ⟨is, here.symm⟩)
            · exact List.mem_append_right _ (visits r is higher fun g low high =>
                filled g (by omega) high)
        · cases run

end Visits

variable {App : Type} {input : EventSource} {vv : Validators} {D : EventDag vv} {L : List Event}
  {p : IndexedLachesis App}

/-- A validator without forks has one root in each frame up to that of its last event, a frame has roots
only over a quorum of owners in the frame below, and `processKnownRoots` leaves no stored root out. -/
theorem root_slots (lives : Lives input vv D L p) :
    (∀ f, ∃ rr store, p.lachesis.store.getFrameRoots f = .ok (rr, store) ∧
      (∀ x ∈ L, ¬ HasFork L x.creator → (∀ y ∈ L, y.creator = x.creator → y.seq ≤ x.seq) →
        (1 ≤ f → f ≤ x.frame → rr.countP (fun r => r.slot.validator = x.creator) = 1) ∧
          (x.frame < f → rr.countP (fun r => r.slot.validator = x.creator) = 0)) ∧
      (1 < f → rr ≠ [] → ∃ below store', p.lachesis.store.getFrameRoots (f - 1) = .ok (below, store') ∧
        vv.quorum ≤ mass vv.get (vv.group.filter fun v => ∃ r ∈ below, r.slot.validator = v))) ∧
    ∀ lastDecidedFrame db q, p.lachesis.store.getLastDecidedFrame = .ok lastDecidedFrame →
      p.lachesis.store.epochTable = .ok db →
      p.lachesis.processKnownRoots World.forklessCause = .ok (.ok none, q) →
      ∃ visited, Fed World.forklessCause p.lachesis visited q ∧
        ∀ r ∈ db.roots, lastDecidedFrame < r.slot.frame → r ∈ visited := by
  obtain ⟨epoch, standing⟩ := lives_standing lives
  have received := standing.settled.index.received
  have framed := standing.framed
  have tabled := standing.settled.tabled
  constructor
  · intro f
    obtain ⟨rr, store, run, _, roots⟩ := tabled.looks f
    refine ⟨rr, store, run, fun x inX honest last => slots_tile framed received inX honest last roots,
      fun later some => ?_⟩
    obtain ⟨below, store', run', _, roots'⟩ := tabled.looks (f - 1)
    obtain ⟨r, member⟩ := List.exists_mem_of_ne_nil rr some
    obtain ⟨⟨x, inX, g, isRoot, rfl⟩, frame⟩ := (roots.mem r).mp member
    obtain rfl : g = f := frame
    refine ⟨below, store', run', ?_⟩
    rw [rootsIn_owners roots']
    refine framed.backed x inX (g - 1) ?_ (by omega)
    rwa [Nat.sub_add_cancel (by omega)]
  · intro lastDecidedFrame db q decided table run
    have under : Orderer.Under (indexedCallbacks input) (IdIn L)
        (Settled D epoch L L p.lachesis.world.callback) p.lachesis :=
      ⟨standing.callback, standing.settled, standing.running⟩
    have reads : ∀ store w f rr store', Settled D epoch L L p.lachesis.world.callback store w →
        store.getFrameRoots f = .ok (rr, store') → Store.RootsIn (RootOf D L) f rr := by
      intro store w f rr store' settled look
      obtain ⟨rr', _, look', _, roots⟩ := settled.tabled.looks f
      cases look.symm.trans look'
      exact roots
    rw [Orderer.processKnownRoots, decided, table] at run
    obtain ⟨visited, fed, visits⟩ :=
      processFrames_fed (settled_rule D epoch L L _) reads _ _ under run
    refine ⟨visited, fed, fun r member above => visits r ?_ above fun g low high => ?_⟩
    all_goals
      rw [tabled.rooted.epochTable] at table
      cases table
      have is := (tabled.rooted.mem r).mp member
    · exact is
    · obtain ⟨x, inX, f, isRoot, rfl⟩ := is
      obtain ⟨y, inY, isRoot'⟩ := frames_filled framed ⟨x, inX, isRoot⟩ g (by omega) high
      exact ⟨rootAt y g, ⟨y, inY, g, isRoot', rfl⟩, rfl⟩

section Duo

def duoDag : EventDag duoValidators where
  events := duoEvents
  ordered := by decide
  valid := by decide

def idleCallbacks : ConsensusCallbacks Unit where
  beginBlock := some fun app _ => (⟨none, none⟩, app)

set_option maxRecDepth 4000 in
theorem duo_lives : ∃ p : IndexedLachesis Unit, Lives duoInput duoValidators duoDag (duoEvents.take 4) p := by
  have ready := Lives.genesis (D := duoDag) 1 ⟨100, 100⟩ ⟨10, 10, 10⟩ duoValidators () idleCallbacks
    EventDag.heldBy_source rfl
  have first := ready.accept (e := duoEvent 1) ⟨by decide, by decide⟩ rfl rfl
  have left := first.accept (e := duoFork 11) ⟨by decide, by decide⟩ rfl rfl
  have right := left.accept (e := duoFork 12) ⟨by decide, by decide⟩ rfl rfl
  exact ⟨_, right.accept (e := duoEvent 2) ⟨by decide, by decide⟩ rfl rfl⟩

theorem duo_line {L : List Event} {k : Nat}
    (chain : L.filter (fun x => x.creator = 1) = (List.range' 1 k).map duoEvent) : ¬ HasFork L 1 := by
  have mem : ∀ x, (x ∈ L ∧ x.creator = 1) ↔ ∃ n, (1 ≤ n ∧ n < 1 + k) ∧ duoEvent n = x := by
    intro x
    have same : x ∈ L.filter (fun x => x.creator = 1) ↔ x ∈ (List.range' 1 k).map duoEvent := by rw [chain]
    simpa only [List.mem_filter, List.mem_map, List.mem_range'_1, decide_eq_true_eq] using same
  have climbs : ∀ m n, 1 ≤ m → m ≤ n → n < 1 + k → SelfObserves L (duoEvent n) (duoEvent m) := by
    intro m n low le high
    induction n, le using Nat.le_induction with
    | base => exact .refl
    | succ n le ih =>
      refine .head ⟨((mem _).mpr ⟨n, by omega, rfl⟩).1, ?_⟩ (ih (by omega))
      have later : n ≠ 0 := by omega
      simp [Event.selfParent, duoEvent, later]
  rintro ⟨x, inX, y, inY, ofX, ofY, apart, apart'⟩
  obtain ⟨n, ⟨low, high⟩, rfl⟩ := (mem x).mp ⟨inX, ofX⟩
  obtain ⟨m, ⟨low', high'⟩, rfl⟩ := (mem y).mp ⟨inY, ofY⟩
  rcases Nat.le_total m n with le | ge
  · exact apart (climbs m n low' le high)
  · exact apart' (climbs n m low ge high')

end Duo

/-- Validator 1 has one root in the first frame, in which validator 2 forks. -/
theorem root_slots_duo : ∃ p : IndexedLachesis Unit,
    Lives duoInput duoValidators duoDag (duoEvents.take 4) p ∧
    ∃ rr store, p.lachesis.store.getFrameRoots 1 = .ok (rr, store) ∧
      rr.countP (fun r => r.slot.validator = 1) = 1 := by
  obtain ⟨p, lives⟩ := duo_lives
  obtain ⟨rr, store, run, tiled, _⟩ := (root_slots lives).1 1
  have one := tiled (duoEvent 2) (by decide) (duo_line (k := 2) (by decide)) (by decide)
  exact ⟨p, lives, rr, store, run, one.1 (by decide) (by decide)⟩

end Lachesis.Abft
