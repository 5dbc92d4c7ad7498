import Lachesis.Abft.Store

/-!
Frames and roots in the event graph. An event is a root of every frame above its self-parent's, up to
its own; it may climb from a frame when a quorum of the frame's roots forkless cause it.
-/

namespace Lachesis.Abft

open Dag Pos WeightedQuorum

section Notions

variable {vv : Validators} (D : EventDag vv)

def spFrame (e : Event) : Nat :=
  match e.selfParent with
  | none => 0
  | some id => ((D.source.getEvent id).map Event.frame).getD 0

def IsRoot (x : Event) (f : Nat) : Prop := spFrame D x < f ∧ f ≤ x.frame

instance (x : Event) (f : Nat) : Decidable (IsRoot D x f) := inferInstanceAs (Decidable (_ ∧ _))

def rootAt (x : Event) (f : Nat) : RootAndSlot := ⟨x.id, ⟨f, x.creator⟩⟩

def RootOf (L : List Event) (r : RootAndSlot) : Prop := ∃ x ∈ L, ∃ f, IsRoot D x f ∧ r = rootAt x f

def owners (L : List Event) (f : Nat) : Finset ValidatorID :=
  vv.group.filter fun v => ∃ x ∈ L, IsRoot D x f ∧ x.creator = v

open scoped Classical in
noncomputable def causers (L : List Event) (e : Event) (f : Nat) : Finset ValidatorID :=
  vv.group.filter fun v =>
    ∃ x ∈ L, IsRoot D x f ∧ x.creator = v ∧ ForklessCaused D.events vv e x

def QuorumOn (L : List Event) (e : Event) (f : Nat) : Prop :=
  vv.quorum ≤ mass vv.get (causers D L e f)

/-- What is accepted has a frame from its self-parent's on, and every frame it climbs from had a
quorum of owners. -/
structure Framed (L : List Event) : Prop where
  above : ∀ x ∈ L, spFrame D x ≤ x.frame ∧ 1 ≤ x.frame
  backed : ∀ x ∈ L, ∀ f, IsRoot D x (f + 1) → 0 < f → vv.quorum ≤ mass vv.get (owners D L f)

end Notions

variable {vv : Validators} {D : EventDag vv} {L : List Event}

variable {f : Nat} {e x : Event} {v : ValidatorID}

theorem mem_slots {selfParentFrame frame : Nat} :
    f ∈ Store.slots selfParentFrame frame ↔ selfParentFrame < f ∧ f ≤ frame := by
  rw [Store.slots, List.mem_range'_1]
  omega

theorem spFrame_none (alone : e.selfParent = none) : spFrame D e = 0 := by
  rw [spFrame, alone]

theorem spFrame_some {p : Event} (self : SelfParent D.events e p) : spFrame D e = p.frame := by
  rw [spFrame, self.2]
  dsimp only
  rw [EventDag.heldBy_source p self.1]
  rfl

theorem rootAt_injective {y : Event} {g : Nat} (inX : x ∈ D.events) (inY : y ∈ D.events)
    (same : rootAt x f = rootAt y g) : x = y ∧ f = g := by
  rw [rootAt, rootAt, RootAndSlot.mk.injEq, Slot.mk.injEq] at same
  exact ⟨EventDag.ids inX inY same.1, same.2.1⟩

theorem rootOf_rootAt (inside : ∀ x ∈ L, x ∈ D.events) (inX : x ∈ D.events) :
    RootOf D L (rootAt x f) ↔ x ∈ L ∧ IsRoot D x f := by
  constructor
  · rintro ⟨y, inY, g, isRoot, same⟩
    obtain ⟨rfl, rfl⟩ := rootAt_injective inX (inside y inY) same
    exact ⟨inY, isRoot⟩
  · rintro ⟨inL, isRoot⟩
    exact ⟨x, inL, f, isRoot, rfl⟩

theorem rootOf_snoc {r : RootAndSlot} :
    RootOf D (L ++ [e]) r ↔ RootOf D L r ∨ ∃ f ∈ Store.slots (spFrame D e) e.frame, r = rootAt e f := by
  constructor
  · rintro ⟨x, inX, f, isRoot, rfl⟩
    rcases List.mem_append.mp inX with old | new
    · exact .inl ⟨x, old, f, isRoot, rfl⟩
    · rw [List.mem_singleton.mp new] at isRoot ⊢
      exact .inr ⟨f, mem_slots.mpr isRoot, rfl⟩
  · rintro (⟨x, inX, f, isRoot, rfl⟩ | ⟨f, slot, rfl⟩)
    · exact ⟨x, List.mem_append_left _ inX, f, isRoot, rfl⟩
    · exact ⟨e, by simp, f, mem_slots.mp slot, rfl⟩

theorem mem_owners :
    v ∈ owners D L f ↔ v ∈ vv.sortedIDs ∧ ∃ x ∈ L, IsRoot D x f ∧ x.creator = v := by
  simp [owners]

theorem mem_causers : v ∈ causers D L e f ↔ v ∈ vv.sortedIDs ∧
      ∃ x ∈ L, IsRoot D x f ∧ x.creator = v ∧ ForklessCaused D.events vv e x := by
  simp [causers]

theorem owners_mono {L' : List Event} (more : ∀ x ∈ L, x ∈ L') (f : Nat) :
    owners D L f ⊆ owners D L' f := by
  intro v member
  obtain ⟨listed, x, inX, root⟩ := mem_owners.mp member
  exact mem_owners.mpr ⟨listed, x, more x inX, root⟩

theorem not_quorumOn_zero : ¬ QuorumOn D L e 0 := by
  have none : causers D L e 0 = ∅ := by
    refine Finset.eq_empty_of_forall_notMem fun v member => ?_
    obtain ⟨_, x, _, ⟨below, _⟩, _⟩ := mem_causers.mp member
    omega
  rw [QuorumOn, none, mass_empty]
  have : 0 < vv.quorum := quorum_pos
  omega

theorem forklessCaused_observes {a b : Event} (caused : ForklessCaused D.events vv a b) :
    Dag.Observes D.events a b := by
  by_contra blind
  have none : witnesses D.events vv a b = ∅ := by
    refine Finset.eq_empty_of_forall_notMem fun v member => ?_
    obtain ⟨_, _, x, _, seesX, seesB⟩ := mem_witnesses.mp member
    exact blind (seesX.trans seesB)
  have heavy := caused.2
  rw [none, mass_empty] at heavy
  have : 0 < vv.quorum := quorum_pos
  omega

section Lines

variable {x y : Event}

theorem frame_le_of_self (above : ∀ z, Dag.Observes D.events x z → spFrame D z ≤ z.frame)
    (self : SelfObserves D.events x y) : y.frame ≤ x.frame := by
  induction self with
  | refl => exact le_rfl
  | tail path step ih =>
    have low := above _ (EventDag.SelfObserves.observes path)
    rw [spFrame_some step] at low
    exact low.trans ih

theorem eq_of_self_root {f : Nat} (above : ∀ z, Dag.Observes D.events x z → spFrame D z ≤ z.frame)
    (self : SelfObserves D.events x y) (rootX : IsRoot D x f) (rootY : IsRoot D y f) : x = y := by
  rcases Relation.ReflTransGen.cases_head self with same | ⟨z, step, path⟩
  · exact same
  · have below := frame_le_of_self
      (fun w sees => above w (.head (EventDag.SelfParent.parent step) sees)) path
    have low := rootX.1
    rw [spFrame_some step] at low
    have := rootY.2
    omega

end Lines

section Twins

/-- Two events with the same creator, sequence number and parents, such as an event that is being
built and the one that is sent out. -/
structure Twin (e e' : Event) : Prop where
  creator : e'.creator = e.creator
  seq : e'.seq = e.seq
  parents : e'.parents = e.parents

/-- The event stands on top of the events of `L`, whether it is one of the graph or not. -/
structure Atop (D : EventDag vv) (L : List Event) (e : Event) : Prop where
  received : D.Received L
  parents : ∀ p ∈ e.parents, ∃ x ∈ L, x.id = p
  fresh : e ∉ L

variable {L' : List Event} {e e' : Event}

theorem atop_snoc (received : D.Received (L ++ [e])) : Atop D L e :=
  ⟨received.snoc.1, received.snoc.2.2.1, received.snoc.2.2.2⟩

theorem Twin.symm (twin : Twin e e') : Twin e' e :=
  ⟨twin.creator.symm, twin.seq.symm, twin.parents.symm⟩

theorem Twin.selfParent (twin : Twin e e') : e'.selfParent = e.selfParent := by
  rw [Event.selfParent, Event.selfParent, twin.seq, twin.parents]

theorem Twin.spFrame (twin : Twin e e') : Abft.spFrame D e' = Abft.spFrame D e := by
  rw [Abft.spFrame, Abft.spFrame, twin.selfParent]

variable {y : Event} {v : ValidatorID}

theorem Twin.observes (twin : Twin e e') (sees : Dag.Observes D.events e y) (ne : y ≠ e) :
    Dag.Observes D.events e' y := by
  rcases Relation.ReflTransGen.cases_head sees with same | ⟨z, step, path⟩
  · exact absurd same.symm ne
  · exact .head ⟨step.1, twin.parents.symm ▸ step.2⟩ path

theorem Twin.selfObserves (twin : Twin e e') (self : SelfObserves D.events e y) (ne : y ≠ e) :
    SelfObserves D.events e' y := by
  rcases Relation.ReflTransGen.cases_head self with same | ⟨z, step, path⟩
  · exact absurd same.symm ne
  · exact .head ⟨step.1, twin.selfParent.symm ▸ step.2⟩ path

theorem Twin.known (twin : Twin e e') (atop' : Atop D L' e')
    (sees : Dag.Observes D.events e y) (ne : y ≠ e) : y ∈ L' ∧ y ≠ e' := by
  obtain ⟨old, parents, fresh⟩ := atop'
  rcases Relation.ReflTransGen.cases_head sees with same | ⟨z, step, path⟩
  · exact absurd same.symm ne
  · obtain ⟨w, inW, same⟩ := parents z.id (twin.parents.symm ▸ step.2)
    obtain rfl := EventDag.ids (old.inside w inW) step.1 same
    have inY := old.observes inW path
    exact ⟨inY, fun self => fresh (self ▸ inY)⟩

theorem Twin.fork (twin : Twin e e') (atop' : Atop D L' e') {z : Event}
    (sees : Dag.Observes D.events e z) (ne : z ≠ e) (fork : Fork D.events v e z) :
    Fork D.events v e' z := by
  obtain ⟨inZ, ne'⟩ := twin.known atop' sees ne
  refine ⟨twin.creator.trans fork.1, fork.2.1, fun self => ?_, fun self => ?_⟩
  · exact fork.2.2.1 (twin.symm.selfObserves self ne')
  · exact atop'.fresh (atop'.received.observes inZ (EventDag.SelfObserves.observes self))

theorem Twin.forkSeen (twin : Twin e e') (atop' : Atop D L' e')
    (seen : ForkSeen D.events e v) : ForkSeen D.events e' v := by
  obtain ⟨y, z, seesY, seesZ, fork⟩ := seen
  by_cases first : y = e <;> by_cases second : z = e
  · exact absurd .refl (first ▸ second ▸ fork).2.2.1
  · subst first
    exact ⟨e', z, .refl, twin.observes seesZ second, twin.fork atop' seesZ second fork⟩
  · subst second
    obtain ⟨own, own', apart, apart'⟩ := fork
    exact ⟨e', y, .refl, twin.observes seesY first,
      twin.fork atop' seesY first ⟨own', own, apart', apart⟩⟩
  · exact ⟨y, z, twin.observes seesY first, twin.observes seesZ second, fork⟩

theorem Twin.forklessCaused (twin : Twin e e') (atop : Atop D L e) (atop' : Atop D L' e')
    {x : Event} (inX : x ∈ L)
    (caused : ForklessCaused D.events vv e x) : x ∈ L' ∧ ForklessCaused D.events vv e' x := by
  have ne : x ≠ e := fun self => atop.fresh (self ▸ inX)
  have sees := forklessCaused_observes caused
  refine ⟨(twin.known atop' sees ne).1, fun seen => caused.1 (twin.symm.forkSeen atop seen),
    caused.2.trans (mass_mono vv.get fun v member => ?_)⟩
  obtain ⟨listed, quiet, y, owner, seesY, seesX⟩ := mem_witnesses.mp member
  refine mem_witnesses.mpr ⟨listed, fun seen => quiet (twin.symm.forkSeen atop seen), ?_⟩
  by_cases self : y = e
  · exact ⟨e', twin.creator.trans (self ▸ owner), .refl, twin.observes sees ne⟩
  · exact ⟨y, owner, twin.observes seesY self, seesX⟩

theorem quorumOn_twin (twin : Twin e e') {f : Nat} (atop : Atop D L e) (atop' : Atop D L' e') :
    QuorumOn D L e f ↔ QuorumOn D L' e' f := by
  have half : ∀ {L L' : List Event} {e e' : Event}, Twin e e' → Atop D L e → Atop D L' e' →
      causers D L e f ⊆ causers D L' e' f := by
    intro L L' e e' twin atop atop' v member
    obtain ⟨listed, x, inX, isRoot, owner, caused⟩ := mem_causers.mp member
    obtain ⟨inX', caused'⟩ := twin.forklessCaused atop atop' inX caused
    exact mem_causers.mpr ⟨listed, x, inX', isRoot, owner, caused'⟩
  rw [QuorumOn, QuorumOn,
    (half twin atop atop').antisymm (half twin.symm atop' atop)]

end Twins

theorem exists_not_quorumOn (L : List Event) (e : Event) (f : Nat) :
    ∃ g, f ≤ g ∧ ¬ QuorumOn D L e g := by
  refine ⟨f + (L.map Event.frame).sum + 1, by omega, fun quorum => ?_⟩
  have none : causers D L e (f + (L.map Event.frame).sum + 1) = ∅ := by
    refine Finset.eq_empty_of_forall_notMem fun v member => ?_
    obtain ⟨_, x, inX, ⟨_, upTo⟩, _⟩ := mem_causers.mp member
    have := List.single_le_sum (fun _ _ => Nat.zero_le _) _ (List.mem_map_of_mem (f := Event.frame) inX)
    omega
  rw [QuorumOn, none, mass_empty] at quorum
  have : 0 < vv.quorum := quorum_pos
  omega

end Lachesis.Abft
