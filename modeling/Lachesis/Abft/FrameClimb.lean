import Lachesis.Abft.Polling
import Lachesis.Abft.StoreRoots

/-!
`calcFrameIdx` over an index that answers: it climbs from the self-parent's frame while a quorum of
the frame's roots forkless cause the event.
-/

namespace Lachesis.Abft.Orderer

open Dag Pos Triples WeightedQuorum

section Keeping

variable {World : Type} {dagIndex : World → EventID → EventID → Except Halt (Bool × World)}
  {input : EventSource} {K : Store → World → Prop} {e : Event}
  (observes : ∀ store w b, K store w → Ensures (dagIndex w e.id b) fun r => K store r.2)
  (looks : ∀ store w f, K store w → Ensures (store.getFrameRoots f) fun r => K r.2 w)

def Beside (p q : Orderer World) : Prop := q.election = p.election ∧ q.callback = p.callback

include observes in
theorem countCaused_holds {store : Store} : ∀ (roots : List RootAndSlot) (counter : WeightCounter)
    {w : World}, K store w →
    Ensures (countCaused dagIndex e.id roots counter w) fun r => K store r.2 := by
  intro roots
  induction roots with
  | nil => exact fun _ _ holds => ensures_ok holds
  | cons it rest ih =>
    intro counter w holds
    refine ensures_bind (observes store w it.id holds) ?_
    rintro ⟨hit, w'⟩ holds
    dsimp only at holds ⊢
    generalize (if hit = true then (counter.count it.slot.validator).2 else counter) = counter
    split
    · exact ensures_ok holds
    · exact ih _ holds

include observes looks in
theorem forklessCausedByQuorumOn_holds {p : Orderer World} (holds : K p.store p.world)
    (frame : Nat) : Ensures (p.forklessCausedByQuorumOn dagIndex e frame) fun r =>
      K r.2.store r.2.world ∧ Beside p r.2 := by
  refine ensures_bind (ensures_any _) fun validators _ => ?_
  refine ensures_bind (looks p.store p.world frame holds) ?_
  rintro ⟨roots, store⟩ holds
  refine ensures_bind (countCaused_holds observes roots validators.newCounter holds) ?_
  rintro ⟨counter, w⟩ holds
  exact ensures_ok ⟨holds, rfl, rfl⟩

include observes looks in
theorem climb_holds : ∀ (limit frame : Nat) {p : Orderer World}, K p.store p.world →
    Ensures (climb dagIndex e limit frame p) fun r => K r.2.store r.2.world ∧ Beside p r.2 := by
  intro limit
  induction limit with
  | zero => exact fun _ _ holds => ensures_ok ⟨holds, rfl, rfl⟩
  | succ limit ih =>
    intro frame p holds
    refine ensures_bind (forklessCausedByQuorumOn_holds observes looks holds frame) ?_
    rintro ⟨met, q⟩ ⟨holds, beside⟩
    dsimp only at holds beside ⊢
    split
    · refine ensures_mono (ih (frame + 1) holds) fun r later => ?_
      exact ⟨later.1, later.2.1.trans beside.1, later.2.2.trans beside.2⟩
    · exact ensures_ok ⟨holds, beside⟩

include observes looks in
theorem calcFrameIdx_holds {p : Orderer World} (holds : K p.store p.world) (checkOnly : Bool) :
    Ensures (p.calcFrameIdx dagIndex input e checkOnly) fun r =>
      K r.2.2.store r.2.2.world ∧ Beside p r.2.2 := by
  refine ensures_bind (ensures_any _) fun selfParentFrame _ => ?_
  refine ensures_bind (climb_holds observes looks _ selfParentFrame holds) ?_
  rintro ⟨frame, q⟩ kept
  exact ensures_ok kept

include observes looks in
theorem checkAndSaveEvent_holds (adds : ∀ store w selfParentFrame, K store w →
      Ensures (store.addRoots selfParentFrame e) fun s => K s w)
    {p : Orderer World} (holds : K p.store p.world) :
    Ensures (p.checkAndSaveEvent dagIndex input e) fun r => K r.2.store r.2.world := by
  refine ensures_bind (calcFrameIdx_holds observes looks holds true) ?_
  rintro ⟨selfParentFrame, frame, q⟩ ⟨holds, _⟩
  dsimp only at holds ⊢
  split
  · exact ensures_ok holds
  · split
    · exact ensures_bind (adds _ _ selfParentFrame holds) fun store kept => ensures_ok kept
    · exact ensures_ok holds

include observes looks in
theorem build_holds {p : Orderer World} (holds : K p.store p.world) :
    Ensures (p.build dagIndex input e) fun r => K r.2.store r.2.world ∧ Beside p r.2 := by
  refine ensures_bind (ensures_any _) fun epoch _ => ?_
  split
  · exact ensures_error
  · refine ensures_bind (ensures_any _) fun validators _ => ?_
    split
    · exact ensures_error
    · refine ensures_bind (calcFrameIdx_holds observes looks holds false) ?_
      rintro ⟨selfParentFrame, frame, q⟩ kept
      exact ensures_ok kept

end Keeping

section Answering

variable {World : Type} {vv : Validators}

/-- Store and index know the events of `L` and answer about `e`; where `C` holds, rightly. -/
structure Answers (dagIndex : World → EventID → EventID → Except Halt (Bool × World))
    (D : EventDag vv) (L : List Event) (e : Event) (K : Store → World → Prop) (C : Prop) :
    Prop where
  validators : ∀ store w, K store w → store.getValidators = .ok vv
  looks : ∀ store w f, K store w → ∃ rr store', store.getFrameRoots f = .ok (rr, store') ∧
    K store' w ∧ Store.RootsIn (RootOf D L) f rr
  observes : ∀ store w x, K store w → x ∈ L → ∃ hit w', dagIndex w e.id x.id = .ok (hit, w') ∧
    K store w' ∧ (C → (hit = true ↔ ForklessCaused D.events vv e x))

variable {dagIndex : World → EventID → EventID → Except Halt (Bool × World)} {input : EventSource}
  {D : EventDag vv} {L : List Event} {e : Event} {K : Store → World → Prop} {C : Prop}

theorem countCaused_counts (answers : Answers dagIndex D L e K C) {store : Store} {f : Nat}
    (inside : ∀ x ∈ L, x ∈ D.events) : ∀ (roots : List RootAndSlot)
    {counter : WeightCounter} {counted : Finset ValidatorID} {w : World},
    (∀ r ∈ roots, ∃ x ∈ L, IsRoot D x f ∧ r = rootAt x f) → K store w → Counted counter vv counted →
    counted ⊆ owners D L f → (C → counted ⊆ causers D L e f) →
    ∃ counter' counted' w', countCaused dagIndex e.id roots counter w = .ok (counter', w') ∧
      K store w' ∧ Counted counter' vv counted' ∧ counted' ⊆ owners D L f ∧
      (C → counted' ⊆ causers D L e f) ∧ (counter'.hasQuorum = false → counted ⊆ counted' ∧
        (C → ∀ x ∈ L, rootAt x f ∈ roots → ForklessCaused D.events vv e x →
          x.creator ∈ counted')) := by
  intro roots
  induction roots with
  | nil =>
    intro counter counted w _ holds exact' ofOwners ofCausers
    exact ⟨counter, counted, w, rfl, holds, exact', ofOwners, ofCausers, fun _ => ⟨subset_rfl,
      fun _ x _ member => absurd member List.not_mem_nil⟩⟩
  | cons it rest ih =>
    intro counter counted w known holds exact' ofOwners ofCausers
    obtain ⟨⟨x, inX, isRoot, rfl⟩, later⟩ := List.forall_mem_cons.mp known
    obtain ⟨hit, w', asked, holds, right⟩ := answers.observes store w x holds inX
    have listed := (D.valid x (inside x inX)).listed
    -- the counter after this root
    obtain ⟨next, counted', is, exact', grows, ofOwners, ofCausers, counts⟩ :
        ∃ next counted', (if hit = true then (counter.count x.creator).2 else counter) = next ∧
          Counted next vv counted' ∧ counted ⊆ counted' ∧ counted' ⊆ owners D L f ∧
          (C → counted' ⊆ causers D L e f) ∧
          (C → ForklessCaused D.events vv e x → x.creator ∈ counted') := by
      cases hit with
      | false =>
        refine ⟨counter, counted, rfl, exact', subset_rfl, ofOwners, ofCausers, fun c caused => ?_⟩
        exact absurd ((right c).mpr caused) Bool.false_ne_true
      | true =>
        refine ⟨_, insert x.creator counted, rfl, count_counted exact' listed,
          Finset.subset_insert _ _, ?_, fun c => ?_, fun _ _ => Finset.mem_insert_self _ _⟩
        · exact Finset.insert_subset (mem_owners.mpr ⟨listed, x, inX, isRoot, rfl⟩) ofOwners
        · exact Finset.insert_subset (mem_causers.mpr ⟨listed, x, inX, isRoot, rfl,
            (right c).mp rfl⟩) (ofCausers c)
    have step : countCaused dagIndex e.id (rootAt x f :: rest) counter w =
        if next.hasQuorum then .ok (next, w') else countCaused dagIndex e.id rest next w' := by
      rw [countCaused, show dagIndex w e.id (rootAt x f).id = .ok (hit, w') from asked]
      dsimp only [bind, Except.bind, rootAt]
      rw [is]
      rfl
    rw [step]
    by_cases quorum : next.hasQuorum = true
    · exact ⟨next, counted', w', if_pos quorum, holds, exact', ofOwners, ofCausers,
        fun no => absurd no (by simp [quorum])⟩
    · obtain ⟨last, counted'', w'', run, holds, exact'', ofOwners, ofCausers, all⟩ :=
        ih later holds exact' ofOwners ofCausers
      refine ⟨last, counted'', w'', (if_neg quorum).trans run, holds, exact'', ofOwners, ofCausers,
        fun no => ⟨grows.trans (all no).1, fun c y inY member caused => ?_⟩⟩
      rcases List.mem_cons.mp member with same | old
      · obtain ⟨rfl, _⟩ := rootAt_injective (inside y inY) (inside x inX) same
        exact (all no).1 (counts c caused)
      · exact (all no).2 c y inY old caused

variable {p : Orderer World}

theorem forklessCausedByQuorumOn_met (answers : Answers dagIndex D L e K C)
    (inside : ∀ x ∈ L, x ∈ D.events) (holds : K p.store p.world) (f : Nat) :
    ∃ met q, p.forklessCausedByQuorumOn dagIndex e f = .ok (met, q) ∧ K q.store q.world ∧
      Beside p q ∧ (met = true → vv.quorum ≤ mass vv.get (owners D L f)) ∧
      (C → (met = true ↔ QuorumOn D L e f)) := by
  obtain ⟨rr, store, found, holds, roots⟩ := answers.looks p.store p.world f holds
  have known : ∀ r ∈ rr, ∃ x ∈ L, IsRoot D x f ∧ r = rootAt x f := by
    intro r member
    obtain ⟨⟨x, inX, g, isRoot, rfl⟩, frame⟩ := (roots.mem r).mp member
    obtain rfl : g = f := frame
    exact ⟨x, inX, isRoot, rfl⟩
  obtain ⟨counter, counted, w, run, holds, exact', ofOwners, ofCausers, all⟩ :=
    countCaused_counts answers inside rr known holds (newCounter_counted vv)
      (Finset.empty_subset _) fun _ => Finset.empty_subset _
  refine ⟨counter.hasQuorum, { p with store := store, world := w }, ?_, holds, ⟨rfl, rfl⟩,
    fun met => ?_, fun c => ⟨fun met => ?_, fun quorum => ?_⟩⟩
  · rw [forklessCausedByQuorumOn, answers.validators p.store p.world ‹_›]
    dsimp only [bind, Except.bind]
    rw [found]
    dsimp only
    rw [run]
    rfl
  · exact ((hasQuorum_iff exact').mp met).trans (mass_mono vv.get ofOwners)
  · exact ((hasQuorum_iff exact').mp met).trans (mass_mono vv.get (ofCausers c))
  · by_contra unmet
    refine unmet ((hasQuorum_iff exact').mpr (quorum.trans (mass_mono vv.get ?_)))
    intro v member
    obtain ⟨listed, x, inX, isRoot, rfl, caused⟩ := mem_causers.mp member
    refine (all (Bool.eq_false_of_not_eq_true unmet)).2 c x inX ?_ caused
    exact (roots.mem _).mpr ⟨⟨x, inX, f, isRoot, rfl⟩, rfl⟩

theorem climb_climbs (answers : Answers dagIndex D L e K C) (inside : ∀ x ∈ L, x ∈ D.events) :
    ∀ (limit frame : Nat) {p : Orderer World}, K p.store p.world →
    ∃ top q, climb dagIndex e limit frame p = .ok (top, q) ∧ K q.store q.world ∧ Beside p q ∧
      frame ≤ top ∧ top ≤ frame + limit ∧
      (∀ f, frame ≤ f → f < top → vv.quorum ≤ mass vv.get (owners D L f)) ∧
      (C → (∀ f, frame ≤ f → f < top → QuorumOn D L e f) ∧
        (top < frame + limit → ¬ QuorumOn D L e top)) := by
  intro limit
  induction limit with
  | zero =>
    intro frame p holds
    exact ⟨frame, p, rfl, holds, ⟨rfl, rfl⟩, le_rfl, le_rfl, fun f _ _ => by omega,
      fun _ => ⟨fun f _ _ => by omega, fun short => by omega⟩⟩
  | succ limit ih =>
    intro frame p holds
    obtain ⟨met, q, first, holds, beside, backed, right⟩ :=
      forklessCausedByQuorumOn_met answers inside holds frame
    cases met with
    | false =>
      refine ⟨frame, q, ?_, holds, beside, le_rfl, by omega, fun f _ _ => by omega,
        fun c => ⟨fun f _ _ => by omega, fun _ quorum => ?_⟩⟩
      · rw [climb, first]
        rfl
      · exact Bool.false_ne_true ((right c).mpr quorum)
    | true =>
      obtain ⟨top, q', run, holds, beside', above, below, owners, exact'⟩ := ih (frame + 1) holds
      refine ⟨top, q', ?_, holds, ⟨beside'.1.trans beside.1, beside'.2.trans beside.2⟩, by omega,
        by omega, fun f low high => ?_, fun c => ⟨fun f low high => ?_, fun short => ?_⟩⟩
      · rw [climb, first]
        exact run
      · grind
      · grind
      · exact (exact' c).2 (by omega)

theorem selfParentFrame_eq (held : D.HeldBy input) (inE : e ∈ D.events) :
    selfParentFrame input e = .ok (spFrame D e) := by
  rw [selfParentFrame]
  cases self : e.selfParent with
  | none => rw [spFrame_none self]
  | some id =>
    obtain ⟨x, inX, rfl, _⟩ := (D.valid e inE).next id self
    dsimp only
    rw [held x inX, spFrame_some ⟨inX, self⟩]

theorem calcFrameIdx_climbs (answers : Answers dagIndex D L e K C)
    (self : selfParentFrame input e = .ok (spFrame D e)) (inside : ∀ x ∈ L, x ∈ D.events)
    (holds : K p.store p.world) (checkOnly : Bool) :
    ∃ top q, p.calcFrameIdx dagIndex input e checkOnly = .ok (spFrame D e, max top 1, q) ∧
      K q.store q.world ∧ Beside p q ∧ spFrame D e ≤ top ∧
      top ≤ max (spFrame D e) (if checkOnly then e.frame else spFrame D e + 100) ∧
      (∀ f, spFrame D e ≤ f → f < top → vv.quorum ≤ mass vv.get (owners D L f)) ∧
      (C → (∀ f, spFrame D e ≤ f → f < top → QuorumOn D L e f) ∧
        (top < (if checkOnly then e.frame else spFrame D e + 100) → ¬ QuorumOn D L e top)) := by
  generalize target : (if checkOnly then e.frame else spFrame D e + 100) = limit
  obtain ⟨top, q, run, holds, beside, above, below, owners, exact'⟩ :=
    climb_climbs answers inside (limit - spFrame D e) (spFrame D e) holds
  refine ⟨top, q, ?_, holds, beside, above, by omega, owners,
    fun c => ⟨(exact' c).1, fun short => (exact' c).2 (by omega)⟩⟩
  have one : (if top = 0 then 1 else top) = max top 1 := by split <;> omega
  rw [calcFrameIdx, self]
  dsimp only [bind, Except.bind]
  rw [target, run]
  dsimp only
  rw [one]
  rfl

end Answering

end Lachesis.Abft.Orderer
