import Lachesis.Validators

/-!
The event graph itself, without any index: who observes whom, what a fork is, and when
an event is forkless caused by another. Everything here is a matter of the parents
listed in the events, not of the order in which an instance receives them.
-/

namespace Lachesis.Dag

open Pos WeightedQuorum

/-- `rest` lists events one by one, each after its parents, on top of `earlier`. -/
def ParentsFirst : List Event → List Event → Prop
  | _, [] => True
  | earlier, e :: rest =>
    (∀ p ∈ e.parents, ∃ x ∈ earlier, x.id = p) ∧ (∀ x ∈ earlier, x.id ≠ e.id) ∧
      ParentsFirst (earlier ++ [e]) rest

instance decidableParentsFirst : ∀ earlier rest, Decidable (ParentsFirst earlier rest)
  | _, [] => .isTrue trivial
  | earlier, e :: rest =>
    have := decidableParentsFirst (earlier ++ [e]) rest
    -- over the list; the search would find an enumeration of all identifiers first
    have : Decidable (∀ p ∈ e.parents, ∃ x ∈ earlier, x.id = p) := List.decidableBAll _ _
    inferInstanceAs (Decidable (_ ∧ _ ∧ _))

section Relations

variable (events : List Event)

def Parent (x y : Event) : Prop := y ∈ events ∧ y.id ∈ x.parents

/-- `y` is among the ancestors-or-self of `x`. -/
def Observes : Event → Event → Prop := Relation.ReflTransGen (Parent events)

def SelfParent (x y : Event) : Prop := y ∈ events ∧ x.selfParent = some y.id

/-- `y` is `x` or a self-ancestor of `x`. -/
def SelfObserves : Event → Event → Prop := Relation.ReflTransGen (SelfParent events)

/-- Two events of one creator, neither of which is a self-ancestor of the other. -/
def Fork (v : ValidatorID) (x y : Event) : Prop :=
  x.creator = v ∧ y.creator = v ∧ ¬ SelfObserves events x y ∧ ¬ SelfObserves events y x

def HasFork (v : ValidatorID) : Prop := ∃ x ∈ events, ∃ y ∈ events, Fork events v x y

/-- The ancestors-or-self of `a` contain a fork by `v`. -/
def ForkSeen (a : Event) (v : ValidatorID) : Prop :=
  ∃ x y, Observes events a x ∧ Observes events a y ∧ Fork events v x y

/-- The events of `v` that are no event's self-parent: one for each branch of `v`. -/
def selfTips (v : ValidatorID) : List Event :=
  events.filter fun t => decide (t.creator = v ∧ ∀ x ∈ events, x.selfParent ≠ some t.id)

/-- What the checks of an event say about its creator and its sequence number. -/
structure Valid (vv : Validators) (e : Event) : Prop where
  listed : e.creator ∈ vv.sortedIDs
  first : e.selfParent = none → e.seq = 1
  next : ∀ p, e.selfParent = some p →
    ∃ x ∈ events, x.id = p ∧ x.creator = e.creator ∧ e.seq = x.seq + 1

instance (vv : Validators) (e : Event) : Decidable (Valid events vv e) :=
  decidable_of_iff (e.creator ∈ vv.sortedIDs ∧ (e.selfParent = none → e.seq = 1) ∧
    e.selfParent.all (fun p =>
      events.any fun x => x.id == p && x.creator == e.creator && e.seq == x.seq + 1) = true) (by
    simp only [Option.all_eq_true, List.any_eq_true, Bool.and_eq_true, beq_iff_eq, and_assoc]
    exact ⟨fun ⟨listed, first, next⟩ => ⟨listed, first, next⟩,
      fun ⟨listed, first, next⟩ => ⟨listed, first, next⟩⟩)

open scoped Classical in
/-- The validators that observe `b` and are not caught forking, as `a` sees it. -/
noncomputable def witnesses (vv : Validators) (a b : Event) : Finset ValidatorID :=
  vv.group.filter fun v => ¬ ForkSeen events a v ∧
    ∃ x, x.creator = v ∧ Observes events a x ∧ Observes events x b

/-- The definition that `ForklessCause` is meant to compute. -/
def ForklessCaused (vv : Validators) (a b : Event) : Prop :=
  ¬ ForkSeen events a b.creator ∧ vv.quorum ≤ mass vv.get (witnesses events vv a b)

open scoped Classical in
noncomputable def forkers (vv : Validators) : Finset ValidatorID :=
  vv.group.filter (HasFork events)

/-- The forking validators weigh less than a third. -/
def LightForks (vv : Validators) : Prop :=
  3 * mass vv.get (forkers events vv) < vv.totalWeight

end Relations

/-- A finite graph of valid events. A finite graph without cycles can be listed parents
first, so the list is one such order; no result depends on which. -/
structure EventDag (vv : Validators) where
  events : List Event
  ordered : ParentsFirst [] events
  valid : ∀ e ∈ events, Valid events vv e

variable {vv : Validators} {v : ValidatorID} {events earlier L rest : List Event}

theorem mem_witnesses {a b : Event} :
    v ∈ witnesses events vv a b ↔ v ∈ vv.sortedIDs ∧ ¬ ForkSeen events a v ∧
      ∃ x, x.creator = v ∧ Observes events a x ∧ Observes events x b := by
  simp [witnesses]

theorem mem_forkers : v ∈ forkers events vv ↔ v ∈ vv.sortedIDs ∧ HasFork events v := by
  simp [forkers]

theorem forkers_subset {u : ValidatorID}
    (alone : ∀ x ∈ events, ∀ y ∈ events, x.creator = y.creator → x.creator ≠ u → x = y) :
    forkers events vv ⊆ {u} := by
  intro v member
  obtain ⟨_, x, inX, y, inY, ofX, ofY, apart, _⟩ := mem_forkers.mp member
  by_contra other
  have different : x.creator ≠ u := by
    rw [ofX]
    simpa using other
  exact apart (alone x inX y inY (ofX.trans ofY.symm) different ▸ .refl)

theorem parentsFirst_append {left right : List Event} : ParentsFirst earlier (left ++ right) ↔
      ParentsFirst earlier left ∧ ParentsFirst (earlier ++ left) right := by
  induction left generalizing earlier with
  | nil => simp [ParentsFirst]
  | cons e left ih =>
    simp only [List.cons_append, ParentsFirst, ih, List.append_assoc, List.nil_append]
    tauto

theorem parentsFirst_snoc {e : Event} : ParentsFirst [] (L ++ [e]) ↔ ParentsFirst [] L ∧
      (∀ p ∈ e.parents, ∃ x ∈ L, x.id = p) ∧ ∀ x ∈ L, x.id ≠ e.id := by
  rw [parentsFirst_append]
  simp [ParentsFirst]

theorem parentsFirst_orphans (orphans : ∀ e ∈ rest, e.parents = [])
    (distinct : ((earlier ++ rest).map Event.id).Nodup) : ParentsFirst earlier rest := by
  induction rest generalizing earlier with
  | nil => trivial
  | cons e rest ih =>
    refine ⟨?_, fun x old same => ?_, ?_⟩
    · simp [orphans e List.mem_cons_self]
    · rw [List.map_append, List.nodup_append] at distinct
      exact distinct.2.2 x.id (List.mem_map_of_mem old) e.id (by simp) same
    · refine ih (fun x member => orphans x (List.mem_cons_of_mem e member)) ?_
      simpa using distinct

theorem parentsFirst_weaken {extra known : List Event} (ordered : ParentsFirst known rest)
    (fresh : ∀ x ∈ extra, ∀ y ∈ rest, x.id ≠ y.id) : ParentsFirst (extra ++ known) rest := by
  induction rest generalizing known with
  | nil => trivial
  | cons e rest ih =>
    obtain ⟨parents, new, tail⟩ := ordered
    refine ⟨fun p member => ?_, fun x old => ?_, ?_⟩
    · obtain ⟨x, inX, same⟩ := parents p member
      exact ⟨x, List.mem_append_right _ inX, same⟩
    · rcases List.mem_append.mp old with other | seen
      · exact fresh x other e List.mem_cons_self
      · exact new x seen
    · rw [List.append_assoc]
      exact ih tail fun x other y member => fresh x other y (List.mem_cons_of_mem e member)

theorem parentsFirst_ids (ordered : ParentsFirst [] L) : ∀ x ∈ L, ∀ y ∈ L, x.id = y.id → x = y := by
  induction L using List.reverseRecOn with
  | nil => simp
  | append_singleton L e ih =>
    obtain ⟨before, _, fresh⟩ := parentsFirst_snoc.mp ordered
    intro x inX y inY same
    rcases List.mem_append.mp inX with oldX | newX <;>
      rcases List.mem_append.mp inY with oldY | newY
    · exact ih before x oldX y oldY same
    · rw [List.mem_singleton.mp newY] at same
      exact absurd same (fresh x oldX)
    · rw [List.mem_singleton.mp newX] at same
      exact absurd same.symm (fresh y oldY)
    · rw [List.mem_singleton.mp newX, List.mem_singleton.mp newY]

theorem parentsFirst_closed (ordered : ParentsFirst [] L) :
    ∀ x ∈ L, ∀ p ∈ x.parents, ∃ y ∈ L, y.id = p := by
  induction L using List.reverseRecOn with
  | nil => simp
  | append_singleton L e ih =>
    obtain ⟨before, parents, _⟩ := parentsFirst_snoc.mp ordered
    intro x inside p member
    rcases List.mem_append.mp inside with old | new
    · obtain ⟨y, inY, same⟩ := ih before x old p member
      exact ⟨y, List.mem_append_left _ inY, same⟩
    · rw [List.mem_singleton.mp new] at member
      obtain ⟨y, inY, same⟩ := parents p member
      exact ⟨y, List.mem_append_left _ inY, same⟩

theorem parentsFirst_nodup (ordered : ParentsFirst [] L) : L.Nodup := by
  induction L using List.reverseRecOn with
  | nil => simp
  | append_singleton L e ih =>
    obtain ⟨before, _, fresh⟩ := parentsFirst_snoc.mp ordered
    refine List.nodup_append.mpr ⟨ih before, by simp, ?_⟩
    rintro x old y new rfl
    rw [List.mem_singleton.mp new] at old
    exact fresh e old rfl

namespace EventDag

variable {vv : Validators} (D : EventDag vv)

/-- The events an instance has received: each after its parents. -/
structure Received (L : List Event) : Prop where
  ordered : ParentsFirst [] L
  inside : ∀ e ∈ L, e ∈ D.events

def source : EventSource := ⟨D.events⟩

/-- The source knows the events of the graph, and possibly others. -/
def HeldBy (source : EventSource) : Prop := ∀ x ∈ D.events, source.getEvent x.id = some x

variable {D}

variable {x y z : Event} {L : List Event}

theorem ids (inX : x ∈ D.events) (inY : y ∈ D.events) (same : x.id = y.id) : x = y :=
  parentsFirst_ids D.ordered x inX y inY same

theorem heldBy_source : D.HeldBy D.source := by
  intro x inside
  cases found : D.source.getEvent x.id with
  | none =>
    have miss := List.find?_eq_none.mp found x inside
    simp at miss
  | some y => rw [ids (getEvent_mem found) inside (getEvent_id found)]

theorem Received.snoc {L : List Event} {e : Event} (received : D.Received (L ++ [e])) :
    D.Received L ∧ e ∈ D.events ∧ (∀ p ∈ e.parents, ∃ x ∈ L, x.id = p) ∧ e ∉ L := by
  obtain ⟨before, parents, fresh⟩ := parentsFirst_snoc.mp received.ordered
  refine ⟨⟨before, fun x member => received.inside x (List.mem_append_left _ member)⟩,
    received.inside e (by simp), parents, fun old => fresh e old rfl⟩

theorem Received.left {rest : List Event} (received : D.Received (L ++ rest)) : D.Received L := by
  induction rest using List.reverseRecOn with
  | nil => rwa [List.append_nil] at received
  | append_singleton rest e ih =>
    rw [← List.append_assoc] at received
    exact ih received.snoc.1

theorem Received.parent (received : D.Received L) (inside : x ∈ L) (parent : Parent D.events x y) :
    y ∈ L := by
  obtain ⟨z, inZ, same⟩ := parentsFirst_closed received.ordered x inside y.id parent.2
  exact ids (received.inside z inZ) parent.1 same ▸ inZ

theorem Received.observes (received : D.Received L) (inside : x ∈ L)
    (observes : Observes D.events x y) : y ∈ L := by
  induction observes with
  | refl => exact inside
  | tail _ parent ih => exact received.parent ih parent

theorem received_events : D.Received D.events := ⟨D.ordered, fun _ => id⟩

theorem SelfParent.parent (self : SelfParent D.events x y) : Parent D.events x y :=
  ⟨self.1, selfParent_mem_parents self.2⟩

theorem SelfObserves.observes (self : SelfObserves D.events x y) : Observes D.events x y :=
  Relation.ReflTransGen.mono (fun _ _ step => SelfParent.parent step) _ _ self

theorem SelfParent.unique (left : SelfParent D.events x y) (right : SelfParent D.events x z) :
    y = z :=
  ids left.1 right.1 (Option.some.inj (left.2.symm.trans right.2))

theorem SelfParent.facts (inside : x ∈ D.events) (self : SelfParent D.events x y) :
    y.creator = x.creator ∧ x.seq = y.seq + 1 := by
  obtain ⟨z, inZ, same, creator, seq⟩ := (D.valid x inside).next y.id self.2
  rw [ids inZ self.1 same] at creator seq
  exact ⟨creator, seq⟩

theorem SelfObserves.mem (inside : x ∈ D.events) (self : SelfObserves D.events x y) :
    y ∈ D.events := by
  induction self with
  | refl => exact inside
  | tail _ step _ => exact step.1

theorem SelfObserves.facts (inside : x ∈ D.events) (self : SelfObserves D.events x y) :
    y.creator = x.creator ∧ y.seq ≤ x.seq := by
  induction self with
  | refl => exact ⟨rfl, le_rfl⟩
  | tail path step ih =>
    obtain ⟨creator, seq⟩ := SelfParent.facts (SelfObserves.mem inside path) step
    exact ⟨creator.trans ih.1, by omega⟩

theorem SelfObserves.eq_of_seq (inside : x ∈ D.events) (self : SelfObserves D.events x y)
    (same : x.seq = y.seq) : x = y := by
  rcases Relation.ReflTransGen.cases_head self with equal | ⟨z, step, path⟩
  · exact equal
  · have := (SelfParent.facts inside step).2
    have := (SelfObserves.facts step.1 path).2
    omega

theorem seq_pos (inside : x ∈ D.events) : 0 < x.seq := by
  cases self : x.selfParent with
  | none => rw [(D.valid x inside).first self]; omega
  | some p =>
    obtain ⟨_, _, _, _, seq⟩ := (D.valid x inside).next p self
    omega

theorem exists_selfAncestor (inside : x ∈ D.events) {n : Nat} (positive : 0 < n) (below : n ≤ x.seq) :
    ∃ y, SelfObserves D.events x y ∧ y.seq = n := by
  induction gap : x.seq - n generalizing x with
  | zero => exact ⟨x, .refl, by omega⟩
  | succ gap ih =>
    cases self : x.selfParent with
    | none => have := (D.valid x inside).first self; omega
    | some p =>
      obtain ⟨z, inZ, rfl, _, seq⟩ := (D.valid x inside).next p self
      obtain ⟨y, path, same⟩ := ih inZ (by omega) (by omega)
      exact ⟨y, .head ⟨inZ, self⟩ path, same⟩

theorem selfObserves_total (left : SelfObserves D.events x y) (right : SelfObserves D.events x z) :
    SelfObserves D.events y z ∨ SelfObserves D.events z y := by
  induction left using Relation.ReflTransGen.head_induction_on with
  | refl => exact Or.inl right
  | head step path ih =>
    rcases Relation.ReflTransGen.cases_head right with same | ⟨w, step', path'⟩
    · subst same
      exact Or.inr (.head step path)
    · rw [SelfParent.unique step step'] at ih
      exact ih path'

theorem Received.complete (received : D.Received L) :
    ∃ rest, D.Received (L ++ rest) ∧ (L ++ rest).Perm D.events := by
  have missing : ∀ suf pre, D.events = pre ++ suf →
      ParentsFirst (L ++ pre.filter (· ∉ L)) (suf.filter (· ∉ L)) := by
    intro suf
    induction suf with
    | nil => intro pre _; exact trivial
    | cons x suf ih =>
      intro pre split
      have next := ih (pre ++ [x]) (by simp [split])
      rw [List.filter_append] at next
      have ordered := D.ordered
      rw [split, parentsFirst_append] at ordered
      obtain ⟨_, parents, fresh, _⟩ := ordered
      rw [List.nil_append] at parents fresh
      by_cases old : x ∈ L
      · simpa [old] using next
      · simp only [List.filter_cons, old, not_false_eq_true, decide_true, ↓reduceIte,
          List.filter_nil] at next ⊢
        refine ⟨fun p member => ?_, fun y member same => ?_, by simpa using next⟩
        · grind
        · rcases List.mem_append.mp member with known | listed
          · exact old (ids (received.inside y known) (by simp [split]) same ▸ known)
          · exact fresh y (List.mem_filter.mp listed).1 same
  have rest := missing D.events [] rfl
  have inside : ∀ e ∈ L ++ D.events.filter (· ∉ L), e ∈ D.events := by
    intro e member
    rcases List.mem_append.mp member with known | listed
    · exact received.inside e known
    · exact (List.mem_filter.mp listed).1
  have ordered : ParentsFirst [] (L ++ D.events.filter (· ∉ L)) :=
    parentsFirst_append.mpr ⟨received.ordered, by simpa using rest⟩
  refine ⟨D.events.filter (· ∉ L), ⟨ordered, inside⟩, ?_⟩
  rw [List.perm_ext_iff_of_nodup (parentsFirst_nodup ordered) (parentsFirst_nodup D.ordered)]
  intro e
  constructor
  · exact inside e
  · grind

end EventDag

theorem mem_selfTips {x : Event} :
    x ∈ selfTips L v ↔ x ∈ L ∧ x.creator = v ∧ ∀ y ∈ L, y.selfParent ≠ some x.id := by
  simp [selfTips]

theorem selfTips_perm {L' : List Event} (perm : L.Perm L') (v : ValidatorID) :
    (selfTips L v).length = (selfTips L' v).length := by
  have same : selfTips L v = L.filter fun t =>
      decide (t.creator = v ∧ ∀ x ∈ L', x.selfParent ≠ some t.id) := by
    unfold selfTips
    simp only [perm.mem_iff]
  rw [same]
  exact (perm.filter _).length_eq

namespace EventDag

variable {vv : Validators} {D : EventDag vv}

variable {L : List Event}

theorem selfTips_snoc {e : Event} (received : D.Received (L ++ [e])) (v : ValidatorID) :
    (selfTips L v).length ≤ (selfTips (L ++ [e]) v).length := by
  obtain ⟨old, inside, parents, fresh⟩ := received.snoc
  have freshId : ∀ x ∈ L, x.id ≠ e.id := (parentsFirst_snoc.mp received.ordered).2.2
  have noChild : ∀ y ∈ L ++ [e], y.selfParent ≠ some e.id := by
    intro y inY self
    have member := selfParent_mem_parents self
    rcases List.mem_append.mp inY with known | last
    · obtain ⟨z, inZ, same⟩ := parentsFirst_closed old.ordered y known _ member
      exact freshId z inZ same
    · grind
  let place : Event → Event := fun x => if e.selfParent = some x.id then e else x
  have nodup : ((selfTips L v).map place).Nodup := by
    refine ((parentsFirst_nodup old.ordered).filter _).map_on ?_
    intro x inX y inY same
    have knownX := (mem_selfTips.mp inX).1
    have knownY := (mem_selfTips.mp inY).1
    by_cases isX : e.selfParent = some x.id <;> by_cases isY : e.selfParent = some y.id
    · exact ids (old.inside x knownX) (old.inside y knownY)
        (Option.some.inj (isX.symm.trans isY))
    · grind
    · grind
    · simpa [place, isX, isY] using same
  have tips : (selfTips L v).map place ⊆ selfTips (L ++ [e]) v := by
    intro z member
    obtain ⟨x, inX, rfl⟩ := List.mem_map.mp member
    obtain ⟨known, creator, tip⟩ := mem_selfTips.mp inX
    by_cases isX : e.selfParent = some x.id
    · simp only [place, isX, ↓reduceIte]
      have own := (SelfParent.facts inside ⟨old.inside x known, isX⟩).1
      exact mem_selfTips.mpr ⟨by simp, own ▸ creator, noChild⟩
    · simp only [place, isX, ↓reduceIte]
      refine mem_selfTips.mpr ⟨List.mem_append_left _ known, creator, fun y inY => ?_⟩
      rcases List.mem_append.mp inY with inL | last
      · exact tip y inL
      · rwa [List.mem_singleton.mp last]
  simpa using (nodup.subperm tips).length_le

theorem selfTips_le (received : D.Received L) (v : ValidatorID) :
    (selfTips L v).length ≤ (selfTips D.events v).length := by
  obtain ⟨rest, complete, perm⟩ := received.complete
  rw [← selfTips_perm perm]
  clear perm
  induction rest using List.reverseRecOn with
  | nil => simp
  | append_singleton rest e ih =>
    rw [← List.append_assoc] at complete ⊢
    exact (ih complete.snoc.1).trans (selfTips_snoc complete v)

/-- Of two forked events at most one is forkless caused by anything: the two groups of
witnesses share a validator without forks, whose later event observes both. -/
theorem forklessCaused_exclusive (light : LightForks D.events vv) {a a' b b' : Event}
    (inA : a ∈ D.events) (inA' : a' ∈ D.events) {v : ValidatorID}
    (fork : Fork D.events v b b') (caused : ForklessCaused D.events vv a b)
    (caused' : ForklessCaused D.events vv a' b') : False := by
  have weight : 3 * mass vv.get (forkers D.events vv) < mass vv.get vv.group := by
    rw [← totalWeight_eq_mass]
    exact light
  have inside : ∀ a b, witnesses D.events vv a b ⊆ vv.group := by
    intro a b w member
    exact mem_group.mpr (mem_witnesses.mp member).1
  obtain ⟨w, left, right, honest⟩ := quorums_share_member vv.get vv.group _ _ _ vv.quorum
    quorum_isQuorum (inside a b) (inside a' b') caused.2 caused'.2 weight
  obtain ⟨listed, _, x, ofX, seesX, observesB⟩ := mem_witnesses.mp left
  obtain ⟨_, _, x', ofX', seesX', observesB'⟩ := mem_witnesses.mp right
  have comparable : SelfObserves D.events x x' ∨ SelfObserves D.events x' x := by
    by_contra apart
    rw [not_or] at apart
    refine honest (mem_forkers.mpr ⟨listed, ?_⟩)
    exact ⟨x, received_events.observes inA seesX, x', received_events.observes inA' seesX', ofX,
      ofX', apart⟩
  rcases comparable with above | below
  · refine caused.1 ⟨b, b', seesX.trans observesB, ?_, fork.1 ▸ fork⟩
    exact seesX.trans ((SelfObserves.observes above).trans observesB')
  · refine caused'.1 ⟨b, b', ?_, seesX'.trans observesB', fork.2.1 ▸ fork⟩
    exact seesX'.trans ((SelfObserves.observes below).trans observesB)

end EventDag

end Lachesis.Dag
