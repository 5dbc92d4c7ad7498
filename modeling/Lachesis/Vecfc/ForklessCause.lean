import Lachesis.Vecengine.Chains

/-!
`forklessCause` and `GetMergedHighestBefore` on stored vectors, and what they compute:
within the branch cap, the definition on the event graph.
-/

namespace Lachesis.Vecfc

open Dag Pos WeightedQuorum Vecengine

section Functions

variable {Store : Type} (c : Callbacks Store) (validators : Validators) (bi : BranchesInfo)

def countBranch (a : HighestBeforeSeq) (b : LowestAfterSeq) (yes : WeightCounter)
    (branch : Nat × Nat) : WeightCounter :=
  let (creatorIdx, branchID) := branch
  let bLowestAfter := b.get branchID
  let aHighestBefore := a.get branchID
  if bLowestAfter ≤ aHighestBefore.seq ∧ bLowestAfter ≠ 0 ∧
      aHighestBefore.isForkDetected = false then
    -- we may count the same creator multiple times (on different branches)
    (yes.countByIdx creatorIdx).2
  else yes

def observedCheater (s : Store) (a : HighestBeforeSeq) (bID : EventID) : Except Halt Bool :=
  if bi.atLeastOneFork validators then do
    let bBranchID ← getEventBranchID c s bID
    return (a.get bBranchID).isForkDetected
  else .ok false

def forklessCause (s : Store) (aID bID : EventID) : Except Halt (Bool × Store) :=
  match c.getHighestBefore s aID with
  | (none, _) => .error (.vectorNotFound aID)
  | (some a, s) => do
      if ← observedCheater c validators bi s a bID then return (false, s)
      else
        match c.getLowestAfter s bID with
        | (none, _) => .error (.vectorNotFound bID)
        | (some b, s) =>
          let yes := bi.branchIDCreatorIdxs.zipIdx.foldl (countBranch a b) validators.newCounter
          return (yes.hasQuorum, s)

/-- `GetMergedHighestBefore`: one entry for each validator. A missing vector is a nil
pointer, which no caller survives. -/
def getMergedHighestBefore (s : Store) (id : EventID) : Except Halt (HighestBeforeSeq × Store) :=
  match c.getHighestBefore s id with
  | (none, _) => .error (.nilVector id)
  | (some scattered, s) =>
    if bi.atLeastOneFork validators then
      .ok (bi.branchIDByCreators.zipIdx.foldl
        (fun merged branches => merged.gatherFrom branches.2 scattered branches.1)
        (HighestBeforeSeq.new validators.len), s)
    else .ok (scattered, s)

end Functions

section Counting

variable {vv : Validators} {bi : BranchesInfo} {a : HighestBeforeSeq} {b : LowestAfterSeq}

def Passes (a : HighestBeforeSeq) (b : LowestAfterSeq) (branchID : Nat) : Prop :=
  b.get branchID ≤ (a.get branchID).seq ∧ b.get branchID ≠ 0 ∧
    (a.get branchID).isForkDetected = false

theorem countBranch_counted (consistent : bi.Consistent vv) : ∃ counted,
    Counted (bi.branchIDCreatorIdxs.zipIdx.foldl (countBranch a b) vv.newCounter) vv counted ∧
    ∀ v, v ∈ counted ↔ v ∈ vv.sortedIDs ∧ ∃ branchID < bi.width,
      bi.creatorIdx branchID = vv.getIdx v ∧ Passes a b branchID := by
  have upTo : ∀ branches : List (Nat × Nat),
      (∀ p ∈ branches, p.2 < bi.width ∧ bi.creatorIdx p.2 = p.1) →
      ∀ yes counted, Counted yes vv counted → ∃ counted',
        Counted (branches.foldl (countBranch a b) yes) vv counted' ∧
        ∀ v, v ∈ counted' ↔ v ∈ counted ∨ v ∈ vv.sortedIDs ∧
          ∃ p ∈ branches, p.1 = vv.getIdx v ∧ Passes a b p.2 := by
    intro branches
    induction branches with
    | nil => intro _ yes counted holds; exact ⟨counted, holds, by simp⟩
    | cons p rest ih =>
      intro known yes counted holds
      obtain ⟨below, creator⟩ := known p List.mem_cons_self
      have later := ih fun q member => known q (List.mem_cons_of_mem p member)
      by_cases passes : Passes a b p.2
      · have inside : p.1 < vv.sortedIDs.length := by
          rw [← creator]
          simpa [Validators.sortedIDs, Validators.len] using consistent.known p.2 below
        have found := List.getElem?_eq_getElem inside
        have idx := getIdx_of_getElem found
        have listed := List.getElem_mem inside
        have count := count_counted holds listed
        rw [WeightCounter.count, holds.validators, idx] at count
        obtain ⟨counted', holds', members⟩ := later _ _ count
        refine ⟨counted', ?_, fun v => ?_⟩
        · have turn : countBranch a b yes p = (yes.countByIdx p.1).2 := if_pos passes
          rw [List.foldl_cons, turn]
          exact holds'
        · rw [members v]
          simp only [Finset.mem_insert, List.mem_cons, exists_eq_or_imp]
          constructor
          · grind
          · rintro (old | ⟨isIn, ⟨same, _⟩ | rest⟩)
            · exact Or.inl (Or.inr old)
            · exact Or.inl (Or.inl (getIdx_injective isIn listed (same.symm.trans idx.symm)))
            · exact Or.inr ⟨isIn, rest⟩
      · obtain ⟨counted', holds', members⟩ := later _ _ holds
        refine ⟨counted', ?_, fun v => ?_⟩
        · have turn : countBranch a b yes p = yes := if_neg passes
          rw [List.foldl_cons, turn]
          exact holds'
        · rw [members v]
          simp [passes]
  have entries : ∀ p ∈ bi.branchIDCreatorIdxs.zipIdx,
      p.2 < bi.width ∧ bi.creatorIdx p.2 = p.1 := by
    intro p member
    have found := List.mem_zipIdx_iff_getElem?.mp member
    have inside := (List.getElem?_eq_some_iff.mp found).1
    exact ⟨inside, by simp [BranchesInfo.creatorIdx, found]⟩
  obtain ⟨counted, holds, members⟩ := upTo _ entries _ _ (newCounter_counted vv)
  refine ⟨counted, holds, fun v => ?_⟩
  rw [members v]
  simp only [Finset.notMem_empty, false_or]
  refine and_congr_right fun _ => ⟨?_, ?_⟩
  · grind
  · rintro ⟨branchID, below, same, passes⟩
    refine ⟨(bi.creatorIdx branchID, branchID), ?_, same, passes⟩
    rw [List.mem_zipIdx_iff_getElem?]
    simp only [BranchesInfo.creatorIdx]
    rw [List.getElem?_eq_getElem below]
    rfl

end Counting

section Exact

variable {vv : Validators} {D : EventDag vv} {bi : BranchesInfo} {t : Tables} {L : List Event}

variable {a b : Event} {vec : HighestBeforeSeq} {width : Nat}

theorem vector_marked {b : Nat} (is : BeforeIs D bi t width a vec) (below : b < width) :
    (vec.get b).isForkDetected = true ↔ Clash D bi t a (bi.creatorIdx b) := by
  constructor
  · intro marked
    by_contra quiet
    rw [(is.covers b below quiet).unmarked] at marked
    simp at marked
  · intro clash
    rw [is.marked b below clash]
    rfl

theorem clash_forked (spec : Spec D bi t L) (received : D.Received L) (inA : a ∈ L) {m : Nat}
    (clash : Clash D bi t a m) : bi.atLeastOneFork vv = true := by
  obtain ⟨c, c', different, owner, owner', ⟨_, _, ⟨x, sees, on, _⟩, ⟨y, sees', on', _⟩, _⟩, _⟩ :=
    clash
  obtain ⟨_, found, below, _⟩ := spec.branch x (received.observes inA sees)
  obtain ⟨_, found', below', _⟩ := spec.branch y (received.observes inA sees')
  rw [on, Option.some.injEq] at found
  rw [on', Option.some.injEq] at found'
  exact (forked_of_two spec.consistent different (found ▸ below) (found' ▸ below')
    (owner.trans owner'.symm)).1

theorem passes_iff_bridged (spec : Spec D bi t L) (received : D.Received L) (inA : a ∈ L)
    (is : BeforeIs D bi t width a vec)
    (within : ∀ y, Observes D.events a y → ∀ c, t.branch y.id = some c → c < width)
    {after : LowestAfterSeq}
    (entries : ∀ c, after.get c = firstSeq L fun y => t.branch y.id = some c ∧ Observes D.events y b)
    (m : Nat) : (∃ c < bi.width, bi.creatorIdx c = m ∧ Passes vec after c) ↔
      ¬ Clash D bi t a m ∧ ∃ c, bi.creatorIdx c = m ∧ Bridged D t L a b c := by
  have nonzero : ∀ c, after.get c ≠ 0 ↔
      ∃ y ∈ L, t.branch y.id = some c ∧ Observes D.events y b := by
    intro c
    rw [entries c]
    exact firstSeq_ne_zero fun y inY => EventDag.seq_pos (received.inside y inY)
  constructor
  · rintro ⟨c, inC, rfl, le, some, unmarked⟩
    have inWidth : c < width := by
      by_contra past
      rw [is.beyond c (by omega)] at le
      exact some (Nat.le_zero.mp le)
    have quiet : ¬ Clash D bi t a (bi.creatorIdx c) := by
      rw [← vector_marked is inWidth, unmarked]
      simp
    have top := ((is.covers c inWidth quiet).reached (by omega)).1
    exact ⟨quiet, c, rfl, (nonzero c).mp some, _, top, entries c ▸ le⟩
  · rintro ⟨quiet, c, rfl, some, _, ⟨y, sees, on, rfl⟩, le⟩
    obtain ⟨c', stored, inC, _⟩ := spec.branch y (received.observes inA sees)
    rw [on, Option.some.injEq] at stored
    have covers := is.covers c (within y sees c on) quiet
    have top := (covers.bounds y.seq ⟨y, sees, on, rfl⟩).2
    exact ⟨c, stored ▸ inC, rfl, by rw [entries c]; omega, (nonzero c).mpr some, covers.unmarked⟩

open scoped Classical in
/-- The validators that the vectors of `a` and `b` let `forklessCause` count. -/
noncomputable def bridges (D : EventDag vv) (bi : BranchesInfo) (t : Tables) (L : List Event)
    (a b : Event) : Finset ValidatorID :=
  vv.group.filter fun v => ¬ Clash D bi t a (vv.getIdx v) ∧
    ∃ c, bi.creatorIdx c = vv.getIdx v ∧ Bridged D t L a b c

/-- What `forklessCause` computes from the stored vectors, for any assignment of branches. -/
theorem forklessCause_bridges (spec : Spec D bi t L) (received : D.Received L) (inA : a ∈ L)
    (inB : b ∈ L) : ∃ res caught, forklessCause tables vv bi t a.id b.id = .ok (res, t) ∧
      (caught = true → Clash D bi t a (vv.getIdx b.creator)) ∧
      (Observes D.events a b → Clash D bi t a (vv.getIdx b.creator) → caught = true) ∧
      (res = true ↔ caught = false ∧ vv.quorum ≤ mass vv.get (bridges D bi t L a b)) := by
  obtain ⟨vec, width, storedA, narrow, is, within⟩ := spec.vector received inA
  obtain ⟨after, storedB, entries⟩ := spec.after b inB
  obtain ⟨branch, onB, below, owner⟩ := spec.branch b inB
  obtain ⟨counted, holds, members⟩ := countBranch_counted (a := vec) (b := after) spec.consistent
  have weight : counted = bridges D bi t L a b := by
    ext v
    rw [members v, passes_iff_bridged spec received inA is within entries]
    simp [bridges]
  have quorum : (bi.branchIDCreatorIdxs.zipIdx.foldl (countBranch vec after)
      vv.newCounter).hasQuorum = true ↔ vv.quorum ≤ mass vv.get (bridges D bi t L a b) := by
    rw [hasQuorum_iff holds, weight]
  have known : getEventBranchID tables t b.id = .ok branch := by
    simp [getEventBranchID, tables, onB]
  have readA : tables.getHighestBefore t a.id = (some vec, t) := by simp [tables, storedA]
  have readB : tables.getLowestAfter t b.id = (some after, t) := by simp [tables, storedB]
  have cheater : observedCheater tables vv bi t vec b.id =
      .ok (bi.atLeastOneFork vv && (vec.get branch).isForkDetected) := by
    cases forked : bi.atLeastOneFork vv <;>
      simp [observedCheater, forked, known, bind, Except.bind, pure, Except.pure]
  refine ⟨!(bi.atLeastOneFork vv && (vec.get branch).isForkDetected) &&
      (bi.branchIDCreatorIdxs.zipIdx.foldl (countBranch vec after) vv.newCounter).hasQuorum,
    bi.atLeastOneFork vv && (vec.get branch).isForkDetected, ?_, ?_, ?_, ?_⟩
  · simp only [forklessCause, readA, readB, cheater, bind, Except.bind, pure, Except.pure]
    cases bi.atLeastOneFork vv && (vec.get branch).isForkDetected <;> rfl
  · intro caught
    have marked := (Bool.and_eq_true_iff.mp caught).2
    have inWidth : branch < width := by
      by_contra past
      rw [is.beyond branch (by omega)] at marked
      simp at marked
    exact owner ▸ (vector_marked is inWidth).mp marked
  · intro sees clash
    have marked := (vector_marked is (within b sees branch onB)).mpr (owner.symm ▸ clash)
    simp [clash_forked spec received inA clash, marked]
  · rw [← quorum, Bool.and_eq_true, Bool.not_eq_true']

theorem forklessCause_tables (spec : Spec D bi t L) (chains : Chains D bi t.branch L)
    (received : D.Received L) (inA : a ∈ L) (inB : b ∈ L) :
    ∃ res, forklessCause tables vv bi t a.id b.id = .ok (res, t) ∧
      (res = true ↔ ForklessCaused D.events vv a b) := by
  obtain ⟨res, caught, run, clash, caughtIf, right⟩ :=
    forklessCause_bridges spec received inA inB
  have through : ∀ v ∈ vv.sortedIDs, (∃ c, bi.creatorIdx c = vv.getIdx v ∧
      Bridged D t L a b c) ↔ ∃ x, x.creator = v ∧ Observes D.events a x ∧ Observes D.events x b := by
    intro v listed
    constructor
    · rintro ⟨c, same, bridged⟩
      obtain ⟨x, on, sees, seesB⟩ := (bridged_iff chains received inA).mp bridged
      obtain ⟨c', onX, _, owner⟩ := spec.branch x (received.observes inA sees)
      rw [on, Option.some.injEq] at onX
      subst c'
      have inX := received.inside x (received.observes inA sees)
      exact ⟨x, getIdx_injective (D.valid x inX).listed listed (owner.symm.trans same), sees, seesB⟩
    · rintro ⟨x, rfl, sees, seesB⟩
      obtain ⟨c, on, _, owner⟩ := spec.branch x (received.observes inA sees)
      exact ⟨c, owner, (bridged_iff chains received inA).mpr ⟨x, on, sees, seesB⟩⟩
  have same : bridges D bi t L a b = witnesses D.events vv a b := by
    ext v
    simp only [bridges, Finset.mem_filter, mem_group, mem_witnesses]
    refine and_congr_right fun listed => ?_
    rw [clash_iff_forkSeen spec chains received inA listed, through v listed]
  have seen := clash_iff_forkSeen spec chains received inA (D.valid b (received.inside b inB)).listed
  refine ⟨res, run, ?_⟩
  rw [right, same]
  refine and_congr_left fun enough => ⟨fun unmarked fork => ?_, fun quiet => ?_⟩
  · -- Some witness observes `b`, so `a` observes it as well.
    have sees : Observes D.events a b := by
      by_contra blind
      have none : witnesses D.events vv a b = ∅ := by
        apply Finset.eq_empty_of_forall_notMem
        intro v member
        obtain ⟨_, _, x, _, seesX, seesB⟩ := mem_witnesses.mp member
        exact blind (seesX.trans seesB)
      have positive : 0 < vv.quorum := quorum_pos
      rw [none, mass_empty] at enough
      omega
    simp [caughtIf sees (seen.mpr fork)] at unmarked
  · by_contra marked
    exact quiet (seen.mp (clash (by simpa using marked)))

theorem get_gathered (scattered : HighestBeforeSeq) (n : Nat) :
    ∀ (creators : List (List Nat)) (k : Nat) (merged : HighestBeforeSeq),
      ((creators.zipIdx k).foldl
        (fun merged branches => merged.gatherFrom branches.2 scattered branches.1) merged).get n =
      if k ≤ n ∧ n < k + creators.length
      then HighestBeforeSeq.gathered scattered (creators[n - k]?.getD []) .empty
      else merged.get n := by
  intro creators
  induction creators with
  | nil => intro k merged; simp
  | cons branches rest ih =>
    intro k merged
    rw [List.zipIdx_cons, List.foldl_cons, ih]
    by_cases same : n = k
    · subst n
      simp [HighestBeforeSeq.gatherFrom]
    · by_cases inside : k ≤ n ∧ n < k + (branches :: rest).length
      · grind
      · rw [if_neg (by simp only [List.length_cons] at inside; omega), if_neg inside,
          HighestBeforeSeq.gatherFrom, HighestBeforeSeq.get_set, if_neg same]

theorem getMergedHighestBefore_tables (spec : Spec D bi t L) (received : D.Received L) (inA : a ∈ L) :
    ∃ vec, getMergedHighestBefore tables vv bi t a.id = .ok (vec, t) ∧
      ∀ n < vv.len, (vec.isForkDetected n = true ↔ Clash D bi t a n) ∧
        (¬ Clash D bi t a n →
          IsGreatest (insert 0 {m | ∃ b, bi.creatorIdx b = n ∧ SeqOn D t a b m}) (vec.seq n)) := by
  obtain ⟨vec, width, stored, narrow, is, within⟩ := spec.vector received inA
  have read : tables.getHighestBefore t a.id = (some vec, t) := by simp [tables, stored]
  have marked : ∀ b, (vec.get b).isForkDetected = true →
      b < width ∧ Clash D bi t a (bi.creatorIdx b) := by
    intro b mark
    have inWidth : b < width := by
      by_contra past
      rw [is.beyond b (by omega)] at mark
      simp at mark
    exact ⟨inWidth, (vector_marked is inWidth).mp mark⟩
  -- the highest entry over the branches of a creator without a clash is an observed number
  have highest : ∀ n, ¬ Clash D bi t a n → ∀ branches : List Nat,
      (∀ b, b ∈ branches ↔ b < bi.width ∧ bi.creatorIdx b = n) → ∀ top,
      IsGreatest (insert 0 {m | ∃ b ∈ branches, vec.seq b = m}) top →
      IsGreatest (insert 0 {m | ∃ b, bi.creatorIdx b = n ∧ SeqOn D t a b m}) top := by
    rintro n quiet branches own top ⟨member, above⟩
    constructor
    · rcases member with zero | ⟨b, inside, rfl⟩
      · exact .inl zero
      · by_cases zero : vec.seq b = 0
        · exact .inl zero
        · obtain ⟨_, rfl⟩ := (own b).mp inside
          have inWidth : b < width := by
            by_contra past
            rw [HighestBeforeSeq.seq, is.beyond b (by omega)] at zero
            exact zero rfl
          exact .inr ⟨b, rfl, ((is.covers b inWidth quiet).reached zero).1⟩
    · rintro m (rfl | ⟨b, rfl, on⟩)
      · exact Nat.zero_le top
      · obtain ⟨x, sees, branch, _⟩ := id on
        have inWidth := within x sees b branch
        exact ((is.covers b inWidth quiet).bounds m on).2.trans
          (above (.inr ⟨b, (own b).mpr ⟨by omega, rfl⟩, rfl⟩))
  cases forked : bi.atLeastOneFork vv with
  | false =>
    refine ⟨vec, by simp [getMergedHighestBefore, read, forked], fun n listed => ?_⟩
    have quiet : ∀ m, ¬ Clash D bi t a m := by
      intro m clash
      rw [clash_forked spec received inA clash] at forked
      simp at forked
    refine ⟨iff_of_false (fun mark => quiet _ (marked n mark).2) (quiet n), fun _ => ?_⟩
    have narrowest : bi.width = vv.len := by
      have := spec.consistent.wide
      simp only [BranchesInfo.atLeastOneFork, decide_eq_false_iff_not] at forked
      omega
    refine highest n (quiet n) [n] (fun b => ?_) _ ⟨.inr ⟨n, by simp, rfl⟩, by simp [upperBounds]⟩
    rw [List.mem_singleton, narrowest]
    constructor
    · rintro rfl
      exact ⟨listed, spec.consistent.initial b listed⟩
    · rintro ⟨below, owner⟩
      rw [← owner, spec.consistent.initial b below]
  | true =>
    refine ⟨_, by simp only [getMergedHighestBefore, read, forked, ↓reduceIte]; rfl,
      fun n listed => ?_⟩
    have inside : 0 ≤ n ∧ n < 0 + bi.branchIDByCreators.length := by
      rw [spec.consistent.creators]
      omega
    have branches : bi.branchIDByCreators[n]?.getD [] = bi.byCreator n := rfl
    rw [HighestBeforeSeq.isForkDetected, HighestBeforeSeq.seq, get_gathered, if_pos inside,
      Nat.sub_zero, branches]
    have marks := HighestBeforeSeq.gathered_marked vec (bi.byCreator n) .empty (by simp)
    constructor
    · rw [marks]
      constructor
      · rintro ⟨b, member, mark⟩
        rw [← ((spec.consistent.mem n listed b).mp member).2]
        exact (marked b mark).2
      · intro clash
        obtain ⟨b, _, _, owner, _, ⟨_, _, ⟨x, sees, on, _⟩, _⟩, _⟩ := id clash
        have inWidth := within x sees b on
        refine ⟨b, (spec.consistent.mem n listed b).mpr ⟨by omega, owner⟩, ?_⟩
        exact (vector_marked is inWidth).mpr (owner ▸ clash)
    · intro quiet
      refine highest n quiet (bi.byCreator n) (spec.consistent.mem n listed) _
        (HighestBeforeSeq.gathered_seq fun b member => ?_)
      by_contra mark
      have clash := (marked b (by simpa using mark)).2
      rw [((spec.consistent.mem n listed b).mp member).2] at clash
      exact quiet clash

end Exact

end Lachesis.Vecfc
