import Lachesis.Vecengine.VectorSpec

/-!
Branches within the cap. As long as no validator has more tips than
`maxBranchesPerValidator`, every fork gets a branch of its own, so a branch is a line of
self-ancestors. On such branches overlapping spans are exactly the forks, and comparing
`LowestAfter` with `HighestBefore` is observing.
-/

namespace Lachesis.Vecengine

open Dag Pos Vecfc EventDag

variable {vv : Validators} (D : EventDag vv)

/-- No validator has more branches than the index keeps apart. -/
def WithinCap : Prop := ∀ v, (selfTips D.events v).length ≤ maxBranchesPerValidator

/-- The branches after the events of `L` are lines of self-ancestors. -/
structure Chains (bi : BranchesInfo) (branch : EventID → Option Nat) (L : List Event) : Prop where
  /-- Events of a branch arrive upwards. -/
  arrival : L.Pairwise fun x y => branch x.id = branch y.id → SelfObserves D.events y x
  /-- An event continues its self-parent's branch, or starts its own. -/
  convex : ∀ y ∈ L, (∃ x, SelfParent D.events y x ∧ branch x.id = branch y.id) ∨
    ∀ x ∈ L, branch x.id = branch y.id → SelfObserves D.events x y
  tops : ∀ b < bi.width, (bi.lastSeq b = 0 ∧ ∀ x ∈ L, branch x.id ≠ some b) ∨
    ∃ x ∈ L, branch x.id = some b ∧ bi.lastSeq b = x.seq ∧
      ∀ y ∈ L, branch y.id = some b → SelfObserves D.events x y
  used : ∀ b, vv.len ≤ b → b < bi.width → bi.lastSeq b ≠ 0
  initial : ∀ x ∈ L, bi.lastSeq (vv.getIdx x.creator) ≠ 0
  /-- An event leaves its self-parent's branch only if that one has gone on already. -/
  passed : ∀ z ∈ L, ∀ y, SelfParent D.events z y → branch z.id = branch y.id ∨
    ∃ w ∈ L, branch w.id = branch y.id ∧ y.seq < w.seq

variable {D} {bi later : BranchesInfo} {t : Tables} {L : List Event} {e : Event} {b : Nat}

theorem Chains.top_of_on {branch : EventID → Option Nat} (chains : Chains D bi branch L)
    (below : b < bi.width) {x : Event} (inside : x ∈ L) (on : branch x.id = some b) :
    ∃ top ∈ L, branch top.id = some b ∧ bi.lastSeq b = top.seq ∧
      ∀ y ∈ L, branch y.id = some b → SelfObserves D.events top y := by
  rcases chains.tops b below with ⟨_, empty⟩ | top
  · exact absurd on (empty x inside)
  · exact top

theorem Chains.extend (chains : Chains D bi t.branch L) (received : D.Received (L ++ [e]))
    (above : ∀ x ∈ L, t.branch x.id = some b → SelfObserves D.events e x)
    (start : (∃ p, SelfParent D.events e p ∧ t.branch p.id = some b) ∨
      ∀ x ∈ L, t.branch x.id ≠ some b)
    (lastSeq : ∀ a, later.lastSeq a = if a = b then e.seq else bi.lastSeq a)
    (width : ∀ a < later.width, a = b ∨ a < bi.width)
    (left : ∀ y, SelfParent D.events e y → t.branch y.id = some b ∨
      ∃ w ∈ L, t.branch w.id = t.branch y.id ∧ y.seq < w.seq)
    (own : later.lastSeq (vv.getIdx e.creator) ≠ 0) :
    Chains D later (t.withBranch e b).branch (L ++ [e]) := by
  obtain ⟨old, inside, _, _⟩ := received.snoc
  have kept : ∀ x ∈ L, (t.withBranch e b).branch x.id = t.branch x.id := fun x inX =>
    withBranch_old received inX
  have positive : 0 < e.seq := seq_pos inside
  have parentIn : ∀ {x y}, x ∈ L → SelfParent D.events x y → y ∈ L := fun inX self =>
    old.parent inX (SelfParent.parent self)
  have selfIn : ∀ {y}, SelfParent D.events e y → y ∈ L := fun self =>
    parent_mem received (SelfParent.parent self)
  refine ⟨?_, ?_, ?_, ?_, ?_, ?_⟩
  · refine List.pairwise_append.mpr ⟨?_, by simp, ?_⟩
    · refine chains.arrival.imp_of_mem fun {x y} inX inY rel same => rel ?_
      rwa [kept x inX, kept y inY] at same
    · intro x inX y inY same
      rw [List.mem_singleton.mp inY] at same ⊢
      rw [kept x inX, withBranch_new] at same
      exact above x inX same
  · intro y inY
    rcases List.mem_append.mp inY with known | last
    · rw [kept y known]
      rcases chains.convex y known with ⟨x, self, same⟩ | first
      · exact Or.inl ⟨x, self, (kept x (parentIn known self)).trans same⟩
      · refine Or.inr fun x inX same => ?_
        rcases List.mem_append.mp inX with knownX | lastX
        · rw [kept x knownX] at same
          exact first x knownX same
        · rw [List.mem_singleton.mp lastX] at same ⊢
          rw [withBranch_new] at same
          exact above y known same.symm
    · rw [List.mem_singleton.mp last, withBranch_new]
      rcases start with ⟨p, self, same⟩ | empty
      · exact Or.inl ⟨p, self, (kept p (selfIn self)).trans same⟩
      · refine Or.inr fun x inX same => ?_
        rcases List.mem_append.mp inX with knownX | lastX
        · rw [kept x knownX] at same
          exact absurd same (empty x knownX)
        · rw [List.mem_singleton.mp lastX]
          exact .refl
  · intro a inA
    rw [lastSeq a]
    by_cases same : a = b
    · subst a
      refine Or.inr ⟨e, by simp, withBranch_new, if_pos rfl, fun y inY on => ?_⟩
      rcases List.mem_append.mp inY with known | last
      · exact above y known (kept y known ▸ on)
      · rw [List.mem_singleton.mp last]
        exact .refl
    · rw [if_neg same]
      have notNew : ∀ {y}, y ∈ L ++ [e] → (t.withBranch e b).branch y.id = some a →
          y ∈ L ∧ t.branch y.id = some a := by
        intro y inY on
        rcases List.mem_append.mp inY with known | last
        · exact ⟨known, kept y known ▸ on⟩
        · rw [List.mem_singleton.mp last, withBranch_new, Option.some.injEq] at on
          exact absurd on.symm same
      rcases chains.tops a ((width a inA).resolve_left same) with ⟨zero, empty⟩ | ⟨x, inX, on, seq, top⟩
      · exact Or.inl ⟨zero, fun x inX on => empty x (notNew inX on).1 (notNew inX on).2⟩
      · grind
  · intro a far inA
    rw [lastSeq a]
    split
    · omega
    · next different => exact chains.used a far ((width a inA).resolve_left different)
  · intro x inX
    rcases List.mem_append.mp inX with known | last
    · rw [lastSeq]
      split
      · omega
      · exact chains.initial x known
    · rwa [List.mem_singleton.mp last]
  · intro z inZ y self
    rcases List.mem_append.mp inZ with known | last
    · rw [kept z known, kept y (parentIn known self)]
      refine (chains.passed z known y self).imp_right ?_
      rintro ⟨w, inW, same, higher⟩
      exact ⟨w, List.mem_append_left _ inW, (kept w inW).trans same, higher⟩
    · rw [List.mem_singleton.mp last] at self ⊢
      rw [withBranch_new, kept y (selfIn self)]
      refine (left y self).imp Eq.symm ?_
      rintro ⟨w, inW, same, higher⟩
      exact ⟨w, List.mem_append_left _ inW, (kept w inW).trans same, higher⟩

section Step

variable (spec : Spec D bi t L) (chains : Chains D bi t.branch L)
  (received : D.Received (L ++ [e]))
include spec chains received

theorem selfParent_top {p : Event} (self : SelfParent D.events e p) :
    ∃ a top, selfBranch t e = some a ∧ t.branch p.id = some a ∧ a < bi.width ∧ top ∈ L ∧
      bi.lastSeq a = top.seq ∧ SelfObserves D.events top p ∧
      ∀ y ∈ L, t.branch y.id = some a → SelfObserves D.events top y := by
  have inP : p ∈ L := parent_mem received (SelfParent.parent self)
  obtain ⟨a, stored, below, _⟩ := spec.branch p inP
  obtain ⟨top, inTop, _, seq, all⟩ := chains.top_of_on below inP stored
  refine ⟨a, top, ?_, stored, below, inTop, seq, all p inP stored, all⟩
  simp [selfBranch, self.2, stored]

omit spec in
theorem own_used (alone : selfBranch t e = none → bi.lastSeq (vv.getIdx e.creator) ≠ 0) :
    bi.lastSeq (vv.getIdx e.creator) ≠ 0 := by
  obtain ⟨old, inside, parents, _⟩ := received.snoc
  cases self : e.selfParent with
  | none => exact alone (by simp [selfBranch, self])
  | some p =>
    obtain ⟨x, inX, rfl⟩ := parents p (selfParent_mem_parents self)
    have creator := (SelfParent.facts inside ⟨old.inside x inX, self⟩).1
    exact creator ▸ chains.initial x inX

theorem branches_lt_tips
    (alone : selfBranch t e = none → bi.lastSeq (vv.getIdx e.creator) ≠ 0)
    (passed : ∀ a, selfBranch t e = some a → bi.lastSeq a + 1 ≠ e.seq) :
    (bi.byCreator (vv.getIdx e.creator)).length < (selfTips (L ++ [e]) e.creator).length := by
  obtain ⟨old, inside, parents, fresh⟩ := received.snoc
  have freshId : ∀ x ∈ L, x.id ≠ e.id := (parentsFirst_snoc.mp received.ordered).2.2
  have listed := (D.valid e inside).listed
  have ownUsed := own_used chains received alone
  have top : ∀ a ∈ bi.byCreator (vv.getIdx e.creator), ∃ x ∈ L, t.branch x.id = some a ∧
      bi.lastSeq a = x.seq ∧ ∀ y ∈ L, t.branch y.id = some a → SelfObserves D.events x y := by
    intro a member
    obtain ⟨below, owner⟩ := (spec.consistent.mem _ (getIdx_lt listed) a).mp member
    rcases chains.tops a below with ⟨zero, _⟩ | found
    · by_cases far : vv.len ≤ a
      · exact absurd zero (chains.used a far below)
      · rw [spec.consistent.initial a (by omega)] at owner
        exact absurd (owner ▸ zero) ownUsed
    · exact found
  choose! tip inTip onTip seqTip allTip using top
  have nodup : ((bi.byCreator (vv.getIdx e.creator)).map tip ++ [e]).Nodup := by
    refine List.nodup_append.mpr ⟨?_, by simp, ?_⟩
    · refine (spec.consistent.nodup _).map_on fun a inA a' inA' same => ?_
      have on := onTip a inA
      rw [same, onTip a' inA', Option.some.injEq] at on
      exact on.symm
    · grind
  have tips : (bi.byCreator (vv.getIdx e.creator)).map tip ++ [e] ⊆
      selfTips (L ++ [e]) e.creator := by
    intro x member
    rcases List.mem_append.mp member with isTop | last
    · obtain ⟨a, inA, rfl⟩ := List.mem_map.mp isTop
      have inX := inTip a inA
      have owner := ((spec.consistent.mem _ (getIdx_lt listed) a).mp inA).2
      obtain ⟨a', stored, _, owner'⟩ := spec.branch (tip a) inX
      rw [onTip a inA, Option.some.injEq] at stored
      have creator : (tip a).creator = e.creator :=
        getIdx_injective (D.valid _ (old.inside _ inX)).listed listed
          (owner'.symm.trans (stored ▸ owner))
      refine mem_selfTips.mpr ⟨List.mem_append_left _ inX, creator, fun z inZ self => ?_⟩
      rcases List.mem_append.mp inZ with known | new
      · have step : SelfParent D.events z (tip a) := ⟨old.inside _ inX, self⟩
        have higher := (SelfParent.facts (old.inside z known) step).2
        rcases chains.passed z known (tip a) step with same | ⟨w, inW, same, above⟩
        · have := (SelfObserves.facts (old.inside _ inX)
            (allTip a inA z known (same.trans (onTip a inA)))).2
          omega
        · have := (SelfObserves.facts (old.inside _ inX)
            (allTip a inA w inW (same.trans (onTip a inA)))).2
          omega
      · rw [List.mem_singleton.mp new] at self
        have step : SelfParent D.events e (tip a) := ⟨old.inside _ inX, self⟩
        refine passed a (by simp [selfBranch, self, onTip a inA]) ?_
        rw [seqTip a inA, (SelfParent.facts inside step).2]
    · rw [List.mem_singleton.mp last]
      refine mem_selfTips.mpr ⟨by simp, rfl, fun z inZ self => ?_⟩
      have pushed := selfParent_mem_parents self
      rcases List.mem_append.mp inZ with known | new
      · obtain ⟨y, inY, same⟩ := parentsFirst_closed old.ordered z known _ pushed
        exact freshId y inY same
      · grind
  have count := (nodup.subperm tips).length_le
  rw [List.length_append, List.length_map, List.length_singleton] at count
  omega

theorem chains_step (choice : Choice bi (vv.getIdx e.creator) (selfBranch t e) e b later)
    (room : (selfTips (L ++ [e]) e.creator).length ≤ maxBranchesPerValidator) :
    Chains D later (t.withBranch e b).branch (L ++ [e]) := by
  obtain ⟨old, inside, parents, _⟩ := received.snoc
  have listed := getIdx_lt (D.valid e inside).listed
  have wide := spec.consistent.wide
  have stored : ∀ x ∈ L, ∃ a, t.branch x.id = some a ∧ a < bi.width := by
    intro x inX
    obtain ⟨a, stored, below, _⟩ := spec.branch x inX
    exact ⟨a, stored, below⟩
  have positive : 0 < e.seq := seq_pos inside
  have noSelf : selfBranch t e = none → ∀ p, ¬ SelfParent D.events e p := by
    intro none p self
    obtain ⟨a, _, some, _⟩ := selfParent_top spec chains received self
    simp [none] at some
  cases choice with
  | first none empty =>
    have blank : ∀ x ∈ L, t.branch x.id ≠ some (vv.getIdx e.creator) := by
      rcases chains.tops _ (listed.trans_le wide) with ⟨_, blank⟩ | ⟨x, inX, _, seq, _⟩
      · exact blank
      · have := seq_pos (old.inside x inX)
        omega
    have lastSeq := BranchesInfo.lastSeq_setLastSeq spec.consistent (listed.trans_le wide)
    refine chains.extend received (fun x inX on => absurd on (blank x inX))
      (Or.inr blank) (fun a => lastSeq a e.seq) (fun a inA => Or.inr inA)
      (fun y self => absurd self (noSelf none y)) ?_
    rw [lastSeq, if_pos rfl]
    omega
  | next self follows =>
    obtain ⟨p, isParent⟩ : ∃ p, e.selfParent = some p := by
      cases isParent : e.selfParent with
      | none => simp [selfBranch, isParent] at self
      | some p => exact ⟨p, rfl⟩
    obtain ⟨x, inX, rfl⟩ := parents p (selfParent_mem_parents isParent)
    have step : SelfParent D.events e x := ⟨old.inside x inX, isParent⟩
    obtain ⟨a, top, same, on, below, inTop, seq, observes, all⟩ :=
      selfParent_top spec chains received step
    rw [self, Option.some.injEq] at same
    subst a
    have facts := SelfParent.facts inside step
    have isTop : top = x :=
      SelfObserves.eq_of_seq (old.inside top inTop) observes (by omega)
    subst top
    have lastSeq := BranchesInfo.lastSeq_setLastSeq spec.consistent below
    refine chains.extend received (fun y inY onY => .head step (all y inY onY))
      (Or.inl ⟨x, step, on⟩) (fun a => lastSeq a e.seq) (fun a inA => Or.inr inA)
      (fun y other => Or.inl (SelfParent.unique other step ▸ on)) ?_
    rw [lastSeq]
    split
    · omega
    · exact facts.1 ▸ chains.initial x inX
  | fork alone passed room' =>
    have blank : ∀ x ∈ L, t.branch x.id ≠ some bi.width := by grind
    have lastSeq := BranchesInfo.lastSeq_addBranch spec.consistent (vv.getIdx e.creator) e.seq
    refine chains.extend received (fun x inX on => absurd on (blank x inX))
      (Or.inr blank) lastSeq (fun a inA => ?_) (fun y self => Or.inr ?_) ?_
    · rw [BranchesInfo.width_addBranch] at inA
      omega
    · obtain ⟨a, top, same, on, below, inTop, seq, observes, all⟩ :=
        selfParent_top spec chains received self
      have facts := SelfParent.facts inside self
      have lower := (SelfObserves.facts (old.inside top inTop) observes).2
      have left := passed a same
      obtain ⟨x, inX, onX, seqX, _⟩ := chains.top_of_on below
        (parent_mem received (SelfParent.parent self)) on
      exact ⟨x, inX, onX.trans on.symm, by omega⟩
    · rw [lastSeq, if_neg (by omega)]
      exact own_used chains received alone
  | shared alone passed full =>
    have := branches_lt_tips spec chains received alone passed
    omega

end Step

theorem noTables_chains : Chains D (newInitialBranchesInfo vv) noTables.branch [] where
  arrival := .nil
  convex := by simp
  tops := fun b _ => Or.inl ⟨BranchesInfo.lastSeq_initial vv b, by simp⟩
  used := by
    intro b far below
    have : (newInitialBranchesInfo vv).width = vv.len := by
      simp [BranchesInfo.width, newInitialBranchesInfo]
    omega
  initial := by simp
  passed := by simp

section Meaning

variable (spec : Spec D bi t L) (chains : Chains D bi t.branch L) (received : D.Received L)

variable {x y a : Event} {v : ValidatorID}

include chains in
theorem chains_line {x y : Event} (inX : x ∈ L) (inY : y ∈ L)
    (same : t.branch x.id = t.branch y.id) :
    SelfObserves D.events x y ∨ SelfObserves D.events y x := by
  have both : Std.Symm fun x y => t.branch x.id = t.branch y.id →
      SelfObserves D.events x y ∨ SelfObserves D.events y x :=
    ⟨fun x y rel same => (rel same.symm).symm⟩
  have pairs : L.Pairwise fun x y => t.branch x.id = t.branch y.id →
      SelfObserves D.events x y ∨ SelfObserves D.events y x :=
    chains.arrival.imp fun rel same => Or.inr (rel same)
  exact pairs.forall_of_forall (fun x _ _ => Or.inl .refl) inX inY same

include chains received in
theorem chains_between {z : Event} (inX : x ∈ L) (inZ : z ∈ L)
    (same : t.branch x.id = t.branch z.id) (upper : SelfObserves D.events x y)
    (lower : SelfObserves D.events y z) : t.branch y.id = t.branch z.id := by
  induction upper with
  | refl => exact same
  | @tail w y path step ih =>
    have inW : w ∈ L := received.observes inX (SelfObserves.observes path)
    have on := ih (.head step lower)
    rcases chains.convex w inW with ⟨x', step', on'⟩ | first
    · exact SelfParent.unique step step' ▸ on'.trans on
    · -- `w` cannot start the branch, as `z` lies strictly below it.
      have down := (SelfObserves.facts (received.inside z inZ) (first z inZ on.symm)).2
      have step' := (SelfParent.facts (received.inside w inW) step).2
      have low := (SelfObserves.facts step.1 lower).2
      omega

include received in
theorem below_of_seq (inX : x ∈ L) (different : t.branch x.id ≠ t.branch y.id) (le : x.seq ≤ y.seq)
    (comparable : SelfObserves D.events x y ∨ SelfObserves D.events y x) :
    SelfObserves D.events y x := by
  rcases comparable with down | up
  · have := (SelfObserves.facts (received.inside x inX) down).2
    rw [SelfObserves.eq_of_seq (received.inside x inX) down (by omega)] at different
    exact absurd rfl different
  · exact up

include spec chains received

theorem forkSeen_of_clash (inA : a ∈ L) (listed : v ∈ vv.sortedIDs)
    (clash : Clash D bi t a (vv.getIdx v)) : ForkSeen D.events a v := by
  obtain ⟨b, b', different, owner, owner', ⟨_, _, ⟨x, seesX, onX, rfl⟩, ⟨y, seesY, onY, rfl⟩, low⟩,
    _, _, ⟨x', seesX', onX', rfl⟩, ⟨y', seesY', onY', rfl⟩, high⟩ := clash
  have own : ∀ {z c}, Observes D.events a z → t.branch z.id = some c →
      bi.creatorIdx c = vv.getIdx v → z ∈ L ∧ z.creator = v := by
    intro z c sees on owner
    have inZ := received.observes inA sees
    obtain ⟨c', found, _, owner'⟩ := spec.branch z inZ
    rw [on, Option.some.injEq] at found
    exact ⟨inZ, getIdx_injective (D.valid z (received.inside z inZ)).listed listed
      (owner'.symm.trans (found ▸ owner))⟩
  obtain ⟨inX, ofX⟩ := own seesX onX owner
  obtain ⟨inX', ofX'⟩ := own seesX' onX' owner
  obtain ⟨inY, ofY⟩ := own seesY onY owner'
  obtain ⟨inY', ofY'⟩ := own seesY' onY' owner'
  by_contra quiet
  have line : ∀ z w, Observes D.events a z → Observes D.events a w → z.creator = v →
      w.creator = v → SelfObserves D.events z w ∨ SelfObserves D.events w z := by
    intro z w seesZ seesW ofZ ofW
    by_contra apart
    rw [not_or] at apart
    exact quiet ⟨z, w, seesZ, seesW, ofZ, ofW, apart.1, apart.2⟩
  have up : SelfObserves D.events y x := below_of_seq (t := t) received inX
    (by simp [onX, onY, different]) low (line x y seesX seesY ofX ofY)
  have up' : SelfObserves D.events x' y' := below_of_seq (t := t) received inY'
    (by simp [onX', onY', Ne.symm different]) high (line y' x' seesY' seesX' ofY' ofX')
  rcases line x y' seesX seesY' ofX ofY' with down | down
  · have on := chains_between chains received inY inY' (onY.trans onY'.symm) up down
    rw [onX, onY', Option.some.injEq] at on
    exact different on
  · have on := chains_between chains received inX' inX (onX'.trans onX.symm) up' down
    rw [onX, onY', Option.some.injEq] at on
    exact different on.symm

theorem clash_of_seq (inA : a ∈ L) (seesX : Observes D.events a x) (seesY : Observes D.events a y)
    (fork : Fork D.events v x y) (le : x.seq ≤ y.seq) : Clash D bi t a (vv.getIdx v) := by
  obtain ⟨ofX, ofY, _, apart⟩ := fork
  have inX := received.observes inA seesX
  have inY := received.observes inA seesY
  obtain ⟨z, path, seq⟩ := EventDag.exists_selfAncestor (received.inside y inY)
    (seq_pos (received.inside x inX)) le
  have seesZ : Observes D.events a z := seesY.trans (SelfObserves.observes path)
  have inZ := received.observes inA seesZ
  have ofZ : z.creator = v :=
    (SelfObserves.facts (received.inside y inY) path).1.trans ofY
  obtain ⟨b, onX, _, owner⟩ := spec.branch x inX
  obtain ⟨b', onZ, _, owner'⟩ := spec.branch z inZ
  refine ⟨b, b', ?_, ofX ▸ owner, ofZ ▸ owner', ⟨x.seq, z.seq, ⟨x, seesX, onX, rfl⟩,
    ⟨z, seesZ, onZ, rfl⟩, seq.ge⟩, x.seq, z.seq, ⟨x, seesX, onX, rfl⟩, ⟨z, seesZ, onZ, rfl⟩,
    seq.le⟩
  rintro rfl
  have same : z = x := by
    rcases chains_line chains inX inZ (onX.trans onZ.symm) with down | up
    · exact (SelfObserves.eq_of_seq (received.inside x inX) down seq.symm).symm
    · exact SelfObserves.eq_of_seq (received.inside z inZ) up seq
  exact apart (same ▸ path)

theorem clash_iff_forkSeen (inA : a ∈ L) (listed : v ∈ vv.sortedIDs) :
    Clash D bi t a (vv.getIdx v) ↔ ForkSeen D.events a v := by
  constructor
  · exact forkSeen_of_clash spec chains received inA listed
  · rintro ⟨x, y, seesX, seesY, fork⟩
    rcases Nat.le_total x.seq y.seq with le | le
    · exact clash_of_seq spec chains received inA seesX seesY fork le
    · obtain ⟨ofX, ofY, apart, apart'⟩ := fork
      exact clash_of_seq spec chains received inA seesY seesX ⟨ofY, ofX, apart', apart⟩ le

omit spec in
theorem bridged_iff (inA : a ∈ L) : Bridged D t L a x b ↔
    ∃ y, t.branch y.id = some b ∧ Observes D.events a y ∧ Observes D.events y x := by
  constructor
  · rintro ⟨some, _, ⟨y, seesY, onY, rfl⟩, le⟩
    obtain ⟨earlier, first, later, split, ⟨on, sees⟩, _, seq⟩ := firstSeq_some some
    have inFirst : first ∈ L := by simp [split]
    have inY := received.observes inA seesY
    rw [seq] at le
    have down : SelfObserves D.events y first := by
      rcases chains_line chains inY inFirst (onY.trans on.symm) with down | up
      · exact down
      · have := (SelfObserves.facts (received.inside first inFirst) up).2
        exact SelfObserves.eq_of_seq (received.inside first inFirst) up (by omega) ▸ .refl
    exact ⟨y, onY, seesY, (SelfObserves.observes down).trans sees⟩
  · rintro ⟨y, on, seesY, sees⟩
    have inY := received.observes inA seesY
    have some : ∃ y ∈ L, t.branch y.id = some b ∧ Observes D.events y x := ⟨y, inY, on, sees⟩
    refine ⟨some, y.seq, ⟨y, seesY, on, rfl⟩, ?_⟩
    obtain ⟨earlier, first, later, split, ⟨onFirst, _⟩, before, seq⟩ := firstSeq_some some
    -- The first to arrive is the lowest of the branch.
    have low : SelfObserves D.events y first := by
      have arrival := chains.arrival
      rw [split] at inY arrival
      rcases List.mem_append.mp inY with early | rest
      · exact absurd ⟨on, sees⟩ (before y early)
      · rcases List.mem_cons.mp rest with rfl | late
        · exact .refl
        · rw [List.pairwise_append] at arrival
          exact (List.pairwise_cons.mp arrival.2.1).1 y late (onFirst.trans on.symm)
    have := (SelfObserves.facts (received.inside y inY) low).2
    rw [seq]
    exact this

end Meaning

end Lachesis.Vecengine
