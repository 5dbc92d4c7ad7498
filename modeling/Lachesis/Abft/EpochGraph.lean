import Lachesis.Abft.ElectionSafety
import Lachesis.Abft.RootSlots

/-!
The graph of roots of an epoch, over which the virtual votes are counted. Its roots are those of the
events whose frames, and whose ancestors' frames, can be accepted: nothing else is ever voted on, and
with light forks the graph has all that the election needs.
-/

namespace Lachesis.Abft

open Dag Pos WeightedQuorum VirtualVoting

section Fitting

variable {vv : Validators} {D : EventDag vv} {L : List Event} {e : Event}

theorem Fits.above (fits : Fits D L e) : spFrame D e ≤ e.frame ∧ 1 ≤ e.frame := by
  obtain ⟨limit, limited⟩ := exists_frameLimit D L e
  have := (fits limit limited).1
  omega

variable {f : Nat} {x : Event}

theorem Fits.quorumOn (fits : Fits D L e) (isRoot : IsRoot D e (f + 1)) (positive : 0 < f) :
    QuorumOn D L e f := by
  obtain ⟨_, top, least, rfl⟩ := exists_frameLimit D L e
  have low := (fits _ ⟨top, least, rfl⟩).2
  by_contra unmet
  have := least.2 ⟨Nat.lt_succ_iff.mp isRoot.1, unmet⟩
  have := isRoot.2
  omega

def others (D : EventDag vv) (e : Event) : List Event := D.events.filter fun x => x ≠ e

theorem mem_others : x ∈ others D e ↔ x ∈ D.events ∧ x ≠ e := by
  simp [others]

theorem quorumOn_others (received : D.Received (L ++ [e])) :
    QuorumOn D L e f ↔ QuorumOn D (others D e) e f := by
  obtain ⟨old, inE, _, fresh⟩ := received.snoc
  have same : causers D L e f = causers D (others D e) e f := by
    ext v
    rw [mem_causers, mem_causers]
    refine and_congr_right fun _ => ⟨?_, ?_⟩
    · rintro ⟨x, inX, rest⟩
      exact ⟨x, mem_others.mpr ⟨old.inside x inX, fun self => fresh (self ▸ inX)⟩, rest⟩
    · rintro ⟨x, inX, isRoot, owner, caused⟩
      have known := received.observes (show e ∈ L ++ [e] by simp) (forklessCaused_observes caused)
      rcases List.mem_append.mp known with inL | self
      · exact ⟨x, inL, isRoot, owner, caused⟩
      · exact absurd (List.mem_singleton.mp self) (mem_others.mp inX).2
  rw [QuorumOn, QuorumOn, same]

theorem fits_others (received : D.Received (L ++ [e])) : Fits D L e ↔ Fits D (others D e) e := by
  simp only [Fits, FrameLimit, quorumOn_others received]

/-- The frames of the event and of its ancestors can be accepted. -/
def Approved (D : EventDag vv) (x : Event) : Prop :=
  x ∈ D.events ∧ ∀ y, Dag.Observes D.events x y → Fits D (others D y) y

theorem Approved.observes {y : Event} (approved : Approved D x) (sees : Dag.Observes D.events x y) :
    Approved D y :=
  ⟨EventDag.received_events.observes approved.1 sees, fun z more => approved.2 z (sees.trans more)⟩

theorem approved_snoc (approved : ∀ x ∈ L, Approved D x) (received : D.Received (L ++ [e]))
    (fits : Fits D L e) : ∀ x ∈ L ++ [e], Approved D x := by
  obtain ⟨_, inE, parents, _⟩ := received.snoc
  refine List.forall_mem_append.mpr ⟨approved, List.forall_mem_singleton.mpr ⟨inE, fun y sees => ?_⟩⟩
  rcases Relation.ReflTransGen.cases_head sees with rfl | ⟨z, step, path⟩
  · exact (fits_others received).mp fits
  · obtain ⟨x, inX, same⟩ := parents z.id step.2
    obtain rfl := EventDag.ids (approved x inX).1 step.1 same
    exact (approved x inX).2 y path

end Fitting

section Graph

variable {vv : Validators}

def EpochRoot (D : EventDag vv) (r : RootAndSlot) : Prop :=
  ∃ x, Approved D x ∧ ∃ f, IsRoot D x f ∧ r = rootAt x f

def CausedBy (D : EventDag vv) (a b : EventID) : Prop :=
  ∃ x ∈ D.events, ∃ y ∈ D.events, x.id = a ∧ y.id = b ∧ ForklessCaused D.events vv x y

def epochGraph (D : EventDag vv) : Layers RootAndSlot ValidatorID := layers vv (EpochRoot D) (CausedBy D)

variable {D : EventDag vv} {L : List Event}

variable {x : Event} {a r : RootAndSlot}

theorem causedBy_iff {y : Event} (inX : x ∈ D.events) (inY : y ∈ D.events) :
    CausedBy D x.id y.id ↔ ForklessCaused D.events vv x y := by
  constructor
  · rintro ⟨x', inX', y', inY', sameX, sameY, caused⟩
    rwa [EventDag.ids inX' inX sameX, EventDag.ids inY' inY sameY] at caused
  · exact fun caused => ⟨x, inX, y, inY, rfl, rfl, caused⟩

theorem prior_iff (approved : Approved D x) {f : Nat} : (epochGraph D).Prior (rootAt x (f + 1)) a ↔
      ∃ y, IsRoot D y f ∧ ForklessCaused D.events vv x y ∧ y ∈ D.events ∧ a = rootAt y f := by
  constructor
  · rintro ⟨⟨y, approvedY, g, isRoot, rfl⟩, level, caused⟩
    obtain rfl : g = f := Nat.succ.inj level
    exact ⟨y, isRoot, (causedBy_iff approved.1 approvedY.1).mp caused, approvedY.1, rfl⟩
  · rintro ⟨y, isRoot, caused, inY, rfl⟩
    exact ⟨⟨y, approved.observes (forklessCaused_observes caused), f, isRoot, rfl⟩, rfl,
      (causedBy_iff approved.1 inY).mpr caused⟩

theorem epochGraph_sound (light : LightForks D.events vv) {base : Nat} (positive : 0 < base) :
    (epochGraph D).Sound base where
  quorum := quorum_isQuorum
  owned := by
    rintro _ ⟨x, approved, f, _, rfl⟩
    exact mem_group.mpr (D.valid x approved.1).listed
  single := by
    rintro _ _ _ _ ⟨x, approvedX, f, _, rfl⟩ ⟨x', approvedX', f', _, rfl⟩
      ⟨⟨y, approved, g, isRoot, rfl⟩, _, caused⟩ ⟨⟨y', approved', g', isRoot', rfl⟩, _, caused'⟩ level owner
    obtain rfl : g = g' := level
    have owner : y.creator = y'.creator := owner
    have lines : ∀ {z}, Approved D z → ∀ w, Dag.Observes D.events z w → spFrame D w ≤ w.frame :=
      fun approved w sees => (approved.2 w sees).above.1
    suffices same : y = y' by rw [same]
    by_cases down : SelfObserves D.events y y'
    · exact eq_of_self_root (lines approved) down isRoot isRoot'
    by_cases up : SelfObserves D.events y' y
    · exact (eq_of_self_root (lines approved') up isRoot' isRoot).symm
    -- otherwise the two are a fork, and only one of them is forkless caused
    exact (EventDag.forklessCaused_exclusive light approvedX.1 approvedX'.1
      (show Fork D.events y.creator y y' from ⟨rfl, owner.symm, down, up⟩)
      ((causedBy_iff approvedX.1 approved.1).mp caused)
      ((causedBy_iff approvedX'.1 approved'.1).mp caused')).elim
  covered := by
    rintro _ ⟨x, approved, f, isRoot, rfl⟩ above
    obtain ⟨g, rfl⟩ : ∃ g, f = g + 1 := ⟨f - 1, by have : base < f := above; omega⟩
    have quorum := (approved.2 x .refl).quorumOn isRoot (by have : base < g + 1 := above; omega)
    refine quorum.trans (mass_mono vv.get fun v member => ?_)
    obtain ⟨listed, y, inY, isRootY, owner, caused⟩ := mem_causers.mp member
    rw [Layers.seen_eq_backing, Layers.mem_backing]
    exact ⟨mem_group.mpr listed, rootAt y g,
      (prior_iff approved).mpr ⟨y, isRootY, caused, (mem_others.mp inY).1, rfl⟩, owner, trivial⟩

theorem epochRoot_of (approved : ∀ x ∈ L, Approved D x) (isRoot : RootOf D L r) :
    EpochRoot D r := by
  obtain ⟨x, inX, f, isRoot, rfl⟩ := isRoot
  exact ⟨x, approved x inX, f, isRoot, rfl⟩

theorem prior_known (approved : ∀ x ∈ L, Approved D x) (received : D.Received L)
    (isRoot : RootOf D L r) (prior : (epochGraph D).Prior r a) : RootOf D L a := by
  obtain ⟨x, inX, f, _, rfl⟩ := isRoot
  obtain ⟨⟨y, approvedY, g, isRootY, rfl⟩, _, caused⟩ := prior
  have caused := (causedBy_iff (approved x inX).1 approvedY.1).mp caused
  exact ⟨y, received.observes inX (forklessCaused_observes caused), g, isRootY, rfl⟩

end Graph

end Lachesis.Abft
