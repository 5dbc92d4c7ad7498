import Lachesis.Vecfc.IndexRuns

/-!
The cap on branches. Once a validator has `maxBranchesPerValidator` branches, each further
fork shares the most recent one, and two forks on one branch are no longer told apart.
Which forks come late enough to share depends on the order of arrival. Up to the cap,
two instances agree; beyond it they need not, whatever the weight of the forks.
-/

namespace Lachesis.Vecfc

open Dag Pos WeightedQuorum Vecengine Simplewlru

/-- Within the cap, any two instances give the same answers and mark the same forks. -/
theorem orders_agree {vv : Validators} {D : EventDag vv} (cap : WithinCap D)
    {cfg cfg' : IndexConfig} {L L' : List Event} {vi vi' : Index} (reached : Reached D cfg L vi)
    (reached' : Reached D cfg' L' vi') :
    (∀ a ∈ L, a ∈ L' → ∀ b ∈ L, b ∈ L' → ∃ res after after',
      vi.forklessCause a.id b.id = .ok (res, after) ∧
      vi'.forklessCause a.id b.id = .ok (res, after')) ∧
    ∀ a ∈ L, a ∈ L' → ∃ vec vec' after after',
      vi.getMergedHighestBefore a.id = .ok (vec, after) ∧
      vi'.getMergedHighestBefore a.id = .ok (vec', after') ∧
      ∀ v ∈ vv.sortedIDs, vec.isForkDetected (vv.getIdx v) = vec'.isForkDetected (vv.getIdx v) := by
  have inv := reached_inv cap reached
  have inv' := reached_inv cap reached'
  refine ⟨fun a inA inA' b inB inB' => ?_, fun a inA inA' => ?_⟩
  · obtain ⟨res, after, run, _, right, _⟩ := forklessCause_inv inv inA inB
    obtain ⟨res', after', run', _, right', _⟩ := forklessCause_inv inv' inA' inB'
    have same : res = res' := Bool.eq_iff_iff.mpr (right.trans right'.symm)
    exact ⟨res, after, after', run, same ▸ run'⟩
  · obtain ⟨vec, after, run, _, marks, _⟩ := getMergedHighestBefore_inv inv inA
    obtain ⟨vec', after', run', _, marks', _⟩ := getMergedHighestBefore_inv inv' inA'
    exact ⟨vec, vec', after, after', run, run', fun v listed =>
      Bool.eq_iff_iff.mpr ((marks v listed).1.trans (marks' v listed).1.symm)⟩

theorem orders_agree_forked : ∃ vi vi', Reached forkedDag ⟨2, 3, 4⟩ forkedEvents vi ∧
    Reached forkedDag ⟨5, 6, 7⟩ [firstEvent 4 42 [], firstEvent 4 41 []] vi' ∧
    ∃ res after after', vi.forklessCause 42#256 41#256 = .ok (res, after) ∧
      vi'.forklessCause 42#256 41#256 = .ok (res, after') := by
  have received : forkedDag.Received [firstEvent 4 42 [], firstEvent 4 41 []] :=
    ⟨by decide, by decide⟩
  obtain ⟨vi, reached⟩ := exists_reached forkedDag_cap ⟨2, 3, 4⟩ EventDag.received_events
  obtain ⟨vi', reached'⟩ := exists_reached forkedDag_cap ⟨5, 6, 7⟩ received
  exact ⟨vi, vi', reached, reached', (orders_agree forkedDag_cap reached reached').1
    (firstEvent 4 42 []) (by decide) (by decide) (firstEvent 4 41 []) (by decide) (by decide)⟩

/-- The branches given to the events of a list, one after the other. -/
inductive Branching (vv : Validators) : BranchesInfo → (EventID → Option Nat) → List Event →
    BranchesInfo → (EventID → Option Nat) → Prop where
  | nil {bi : BranchesInfo} {branch : EventID → Option Nat} : Branching vv bi branch [] bi branch
  | cons {bi later bi' : BranchesInfo} {branch branch' : EventID → Option Nat} {e : Event}
      {rest : List Event} {b : Nat}
      (choice : Choice bi (vv.getIdx e.creator) (e.selfParent.bind branch) e b later)
      (tail : Branching vv later (Function.update branch e.id (some b)) rest bi' branch') :
      Branching vv bi branch (e :: rest) bi' branch'

section Assignment

variable {vv : Validators} {bi bi' later : BranchesInfo} {branch branch' : EventID → Option Nat}
  {rest : List Event} {e : Event} {b : Nat}

theorem Branching.old (branching : Branching vv bi branch rest bi' branch') {id : EventID}
    (other : ∀ x ∈ rest, x.id ≠ id) : branch' id = branch id := by
  induction branching with
  | nil => rfl
  | @cons _ _ _ branch _ e _ b _ _ ih =>
    rw [ih fun x member => other x (List.mem_cons_of_mem e member)]
    exact Function.update_of_ne (other e List.mem_cons_self).symm _ _

variable {selfBranch : Option Nat} {me : Nat} {v : ValidatorID}

theorem choice_of_fork (choice : Choice bi me selfBranch e b later)
    (alone : selfBranch = none → bi.lastSeq me ≠ 0)
    (passed : ∀ b, selfBranch = some b → bi.lastSeq b + 1 ≠ e.seq) :
    ((bi.byCreator me).length < maxBranchesPerValidator ∧ b = bi.width ∧
        later = bi.addBranch me e.seq) ∨
      (maxBranchesPerValidator ≤ (bi.byCreator me).length ∧
        (bi.byCreator me).getLast? = some b ∧
        later = if bi.lastSeq b < e.seq then bi.setLastSeq b e.seq else bi) := by
  cases choice with
  | first none empty => exact absurd empty (alone none)
  | next self follows => exact absurd follows (passed _ self)
  | fork _ _ room => exact Or.inl ⟨room, rfl, rfl⟩
  | shared _ _ full last => exact Or.inr ⟨full, last, rfl⟩

theorem choice_used (choice : Choice bi me selfBranch e b later) (consistent : bi.Consistent vv)
    (listed : me < vv.len) (selfKnown : ∀ b, selfBranch = some b → b < bi.width)
    (positive : e.seq ≠ 0) (used : bi.lastSeq me ≠ 0) : later.lastSeq me ≠ 0 := by
  have wide := consistent.wide
  have set : ∀ b < bi.width, (bi.setLastSeq b e.seq).lastSeq me ≠ 0 := by
    intro b below
    rw [BranchesInfo.lastSeq_setLastSeq consistent below]
    split
    · exact positive
    · exact used
  cases choice with
  | first => exact set _ (listed.trans_le wide)
  | next self => exact set _ (selfKnown _ self)
  | fork =>
    rw [BranchesInfo.lastSeq_addBranch consistent, if_neg (by omega)]
    exact used
  | shared _ _ _ last =>
    have member := (consistent.mem me listed b).mp (List.mem_of_getLast? last)
    split
    · exact set b member.1
    · exact used

theorem orphans_fill (listed : vv.getIdx v < vv.len)
    (branching : Branching vv bi branch rest bi' branch')
    (orphans : ∀ x ∈ rest, x.creator = v ∧ x.selfParent = none) (consistent : bi.Consistent vv)
    (used : bi.lastSeq (vv.getIdx v) ≠ 0)
    (room : (bi.byCreator (vv.getIdx v)).length + rest.length ≤ maxBranchesPerValidator) :
    bi'.Consistent vv ∧ bi'.lastSeq (vv.getIdx v) ≠ 0 ∧
      (bi'.byCreator (vv.getIdx v)).length =
        (bi.byCreator (vv.getIdx v)).length + rest.length := by
  induction branching with
  | nil => exact ⟨consistent, used, rfl⟩
  | @cons bi later _ branch _ e rest b choice tail ih =>
    obtain ⟨rfl, alone⟩ := orphans e List.mem_cons_self
    rw [alone, Option.bind_none] at choice
    rw [List.length_cons] at room ⊢
    rcases choice_of_fork choice (fun _ => used) (by simp) with ⟨_, rfl, rfl⟩ | ⟨full, _⟩
    · have grown := BranchesInfo.byCreator_addBranch consistent listed e.seq (vv.getIdx e.creator)
      rw [if_pos rfl] at grown
      have wide := consistent.wide
      have kept : (bi.addBranch (vv.getIdx e.creator) e.seq).lastSeq (vv.getIdx e.creator) ≠ 0 := by
        rw [BranchesInfo.lastSeq_addBranch consistent, if_neg (by omega)]
        exact used
      obtain ⟨consistent', used', length⟩ := ih
        (fun x member => orphans x (List.mem_cons_of_mem e member))
        (BranchesInfo.addBranch_consistent consistent listed _) kept
        (by rw [grown, List.length_append, List.length_singleton]; omega)
      refine ⟨consistent', used', ?_⟩
      rw [length, grown, List.length_append, List.length_singleton]
      omega
    · omega

theorem choice_of_first (choice : Choice bi me none e b later) (empty : bi.lastSeq me = 0) :
    b = me ∧ later = bi.setLastSeq me e.seq := by
  cases choice with
  | first => exact ⟨rfl, rfl⟩
  | next self => simp at self
  | fork alone => exact absurd empty (alone rfl)
  | shared alone => exact absurd empty (alone rfl)

theorem orphans_full (listed : vv.getIdx v < vv.len)
    (branching : Branching vv (newInitialBranchesInfo vv) branch rest bi' branch')
    (orphans : ∀ x ∈ rest, x.creator = v ∧ x.selfParent = none) (positive : ∀ x ∈ rest, x.seq ≠ 0)
    (some : rest ≠ []) (room : rest.length ≤ maxBranchesPerValidator) :
    bi'.Consistent vv ∧ bi'.lastSeq (vv.getIdx v) ≠ 0 ∧
      (bi'.byCreator (vv.getIdx v)).length = rest.length := by
  cases branching with
  | nil => exact absurd rfl some
  | @cons _ _ _ _ _ e rest b choice tail =>
    obtain ⟨creator, alone⟩ := orphans e List.mem_cons_self
    rw [alone, creator, Option.bind_none] at choice
    obtain ⟨rfl, rfl⟩ := choice_of_first choice (BranchesInfo.lastSeq_initial _ _)
    have initial := BranchesInfo.initial_consistent vv
    have below := listed.trans_le initial.wide
    have used : ((newInitialBranchesInfo vv).setLastSeq (vv.getIdx v) e.seq).lastSeq
        (vv.getIdx v) ≠ 0 := by
      rw [BranchesInfo.lastSeq_setLastSeq initial below, if_pos rfl]
      exact positive e List.mem_cons_self
    have one : (((newInitialBranchesInfo vv).setLastSeq (vv.getIdx v) e.seq).byCreator
        (vv.getIdx v)).length = 1 := by
      rw [BranchesInfo.byCreator_setLastSeq, BranchesInfo.byCreator_initial listed]
      rfl
    rw [List.length_cons] at room ⊢
    have filled := orphans_fill listed tail
      (fun x member => orphans x (List.mem_cons_of_mem e member))
      (BranchesInfo.setLastSeq_consistent initial _ _) used (by omega)
    exact ⟨filled.1, filled.2.1, by omega⟩

theorem forks_share {selfBranch' : Option Nat} {e' : Event} {b' : Nat} {later' : BranchesInfo}
    (choice : Choice bi me selfBranch e b later)
    (choice' : Choice later me selfBranch' e' b' later')
    (full : maxBranchesPerValidator ≤ (bi.byCreator me).length)
    (alone : selfBranch = none → bi.lastSeq me ≠ 0)
    (passed : ∀ b, selfBranch = some b → bi.lastSeq b + 1 ≠ e.seq)
    (alone' : selfBranch' = none → later.lastSeq me ≠ 0)
    (passed' : ∀ b, selfBranch' = some b → later.lastSeq b + 1 ≠ e'.seq) : b' = b := by
  rcases choice_of_fork choice alone passed with ⟨room, _⟩ | ⟨_, last, rfl⟩
  · omega
  · have same : (if bi.lastSeq b < e.seq then bi.setLastSeq b e.seq else bi).byCreator me =
        bi.byCreator me := by
      split
      · rfl
      · rfl
    rcases choice_of_fork choice' alone' passed' with ⟨room, _⟩ | ⟨_, last', _⟩
    · rw [same] at room
      omega
    · rw [same, last, Option.some.injEq] at last'
      exact last'.symm

end Assignment

section Runs

variable {vv : Validators} {D : EventDag vv} {L : List Event} {vi : Index} {db : VecDb}
  {bi : BranchesInfo} {t : Tables}

theorem reached_adds {cfg : IndexConfig} {rest : List Event} (reached : Reached D cfg L vi)
    (before : IndexAt D L vi db bi t) (received : D.Received (L ++ rest)) :
    ∃ vi' db' bi' t', Reached D cfg (L ++ rest) vi' ∧ IndexAt D (L ++ rest) vi' db' bi' t' ∧
      Branching vv bi t.branch rest bi' t'.branch ∧
      vi'.forklessCauseCache = vi.forklessCauseCache := by
  induction rest generalizing L vi db bi t with
  | nil =>
    rw [List.append_nil]
    exact ⟨vi, db, bi, t, reached, before, .nil, rfl⟩
  | cons e rest ih =>
    have next : D.Received (L ++ [e]) := by
      have ordered := received.ordered
      rw [List.append_cons, parentsFirst_append] at ordered
      exact ⟨ordered.1, fun x member => received.inside x (by simp at member ⊢; tauto)⟩
    obtain ⟨vi', db', b, later, t', run, at', choice, branch, _, cache⟩ := add_at before next
    rw [List.append_cons] at received ⊢
    obtain ⟨vi'', db'', bi'', t'', reached'', at'', branching, cache'⟩ :=
      ih (.add reached next run) at' received
    rw [branch] at branching
    exact ⟨vi'', db'', bi'', t'', reached'', at'', .cons choice branching, cache'.trans cache⟩

variable {a x y : Event}

theorem quiet_of_one_branch (spec : Spec D bi t L) (received : D.Received L) (inA : a ∈ L)
    (shared : ∀ x y, Observes D.events a x → Observes D.events a y → x.creator = y.creator →
      t.branch x.id = t.branch y.id)
    (m : Nat) : ¬ Clash D bi t a m := by
  rintro ⟨b, b', different, owner, owner', ⟨_, _, ⟨x, seesX, onX, _⟩, ⟨y, seesY, onY, _⟩, _⟩, _⟩
  have inX := received.observes inA seesX
  have inY := received.observes inA seesY
  obtain ⟨c, storedX, _, ownerX⟩ := spec.branch x inX
  obtain ⟨c', storedY, _, ownerY⟩ := spec.branch y inY
  rw [onX, Option.some.injEq] at storedX
  rw [onY, Option.some.injEq] at storedY
  subst c c'
  have creator : x.creator = y.creator := by
    refine getIdx_injective (D.valid x (received.inside x inX)).listed
      (D.valid y (received.inside y inY)).listed ?_
    rw [← ownerX, ← ownerY, owner, owner']
  have same := shared x y seesX seesY creator
  rw [onX, onY, Option.some.injEq] at same
  exact different same

theorem clash_of_two_branches (spec : Spec D bi t L) (received : D.Received L) (inA : a ∈ L)
    (seesX : Observes D.events a x) (seesY : Observes D.events a y)
    (creator : x.creator = y.creator) (seq : x.seq = y.seq)
    (different : t.branch x.id ≠ t.branch y.id) : Clash D bi t a (vv.getIdx x.creator) := by
  obtain ⟨c, onX, _, ownerX⟩ := spec.branch x (received.observes inA seesX)
  obtain ⟨c', onY, _, ownerY⟩ := spec.branch y (received.observes inA seesY)
  refine ⟨c, c', ?_, ownerX, creator ▸ ownerY, ?_, ?_⟩
  · rintro rfl
    exact different (onX.trans onY.symm)
  · exact ⟨x.seq, y.seq, ⟨x, seesX, onX, rfl⟩, ⟨y, seesY, onY, rfl⟩, seq.le⟩
  · exact ⟨x.seq, y.seq, ⟨x, seesX, onX, rfl⟩, ⟨y, seesY, onY, rfl⟩, seq.ge⟩

theorem bridged_of_flat (spec : Spec D bi t L) (received : D.Received L) (flat : ∀ y ∈ L, y.seq = 1)
    (inA : a ∈ L) (sees : Observes D.events a y) (seesX : Observes D.events y x) :
    ∃ c, bi.creatorIdx c = vv.getIdx y.creator ∧ Bridged D t L a x c := by
  have inY := received.observes inA sees
  obtain ⟨c, on, _, owner⟩ := spec.branch y inY
  have some : ∃ y ∈ L, t.branch y.id = some c ∧ Observes D.events y x := ⟨y, inY, on, seesX⟩
  obtain ⟨earlier, first, later, split, _, _, seq⟩ := firstSeq_some some
  refine ⟨c, owner, some, y.seq, ⟨y, sees, on, rfl⟩, ?_⟩
  rw [seq, flat y inY, flat first (by simp [split])]

theorem forklessCause_at (before : IndexAt D L vi db bi t)
    (empty : vi.forklessCauseCache.evictList = []) {a b : EventID} {res : Bool}
    (answer : Vecfc.forklessCause tables vv bi t a b = .ok (res, t)) :
    ∃ vi', vi.forklessCause a b = .ok (res, vi') := by
  rw [← before.group] at answer
  obtain ⟨vi', run, _⟩ := Index.forklessCause_knows before.knows answer
    (by simp [Cache.get, empty])
  exact ⟨vi', run⟩

theorem getMergedHighestBefore_at (before : IndexAt D L vi db bi t) (received : D.Received L)
    (inA : a ∈ L) : ∃ vec vi', vi.getMergedHighestBefore a.id = .ok (vec, vi') ∧
      ∀ v ∈ vv.sortedIDs, vec.isForkDetected (vv.getIdx v) = true ↔
        Clash D bi t a (vv.getIdx v) := by
  obtain ⟨vec, answer, marks⟩ := getMergedHighestBefore_tables before.spec received inA
  rw [← before.group] at answer
  obtain ⟨vi', run, _⟩ := Index.getMergedHighestBefore_knows before.knows answer
  exact ⟨vec, vi', run, fun v listed => (marks _ (getIdx_lt listed)).1⟩

end Runs

section Crowd

def duelEvents : List Event :=
  [firstEvent 4 1 [], firstEvent 4 2 [], firstEvent 2 3 [1#256],
    firstEvent 1 4 [1#256, 2#256, 3#256]]

def forksOf (n : Nat) : List Event := (List.range n).map fun i => firstEvent 4 (i + 5) []

variable {n : Nat} {y : Event}

theorem mem_forksOf {e : Event} : e ∈ forksOf n ↔ ∃ i < n, firstEvent 4 (i + 5) [] = e := by
  simp [forksOf]

theorem length_forksOf (n : Nat) : (forksOf n).length = n := by
  simp [forksOf]

theorem forksOf_ids (few : n < 2 ^ 32) : ((forksOf n).map Event.id).Nodup := by
  rw [forksOf, List.map_map]
  refine List.nodup_range.map_on fun i inI j inJ same => ?_
  rw [List.mem_range] at inI inJ
  have values := congrArg BitVec.toNat same
  simp only [Function.comp, firstEvent, BitVec.toNat_ofNat] at values
  omega

variable {n : Nat}

theorem forksOf_first : ∀ e ∈ forksOf n, e.creator = 4 ∧ e.selfParent = none ∧ e.seq = 1 := by
  intro e member
  obtain ⟨i, _, rfl⟩ := mem_forksOf.mp member
  exact ⟨rfl, rfl, rfl⟩

theorem forksOf_orphans : ∀ e ∈ forksOf n, e.parents = [] := by
  intro e member
  obtain ⟨i, _, rfl⟩ := mem_forksOf.mp member
  rfl

theorem duel_first : ∀ e ∈ duelEvents, e.selfParent = none ∧ e.seq = 1 ∧
    e.creator ∈ fourValidators.sortedIDs := by
  decide

theorem forksOf_fresh (few : n < 2 ^ 32) : ∀ x ∈ forksOf n, ∀ y ∈ duelEvents, x.id ≠ y.id := by
  intro x member y inY same
  obtain ⟨i, inI, rfl⟩ := mem_forksOf.mp member
  have low : ∀ y ∈ duelEvents, y.id.toNat < 5 := by decide
  have values := congrArg BitVec.toNat same
  have := low y inY
  simp only [firstEvent, BitVec.toNat_ofNat] at values
  omega

theorem duel_ordered : ParentsFirst [] duelEvents := by decide

theorem crowded_ids (few : n < 2 ^ 32) : ((duelEvents ++ forksOf n).map Event.id).Nodup := by
  rw [List.map_append, List.nodup_append]
  refine ⟨by decide, forksOf_ids few, ?_⟩
  rintro _ inY _ inX rfl
  obtain ⟨y, memberY, same⟩ := List.mem_map.mp inY
  obtain ⟨x, memberX, same'⟩ := List.mem_map.mp inX
  exact forksOf_fresh few x memberX y memberY (same'.trans same.symm)

def crowdedDag (few : n < 2 ^ 32) : EventDag fourValidators where
  events := duelEvents ++ forksOf n
  ordered := by
    rw [parentsFirst_append, List.nil_append]
    exact ⟨duel_ordered, parentsFirst_orphans forksOf_orphans (crowded_ids few)⟩
  valid := by
    intro e member
    rcases List.mem_append.mp member with duel | crowd
    · obtain ⟨alone, first, listed⟩ := duel_first e duel
      exact ⟨listed, fun _ => first, by simp [alone]⟩
    · obtain ⟨creator, alone, first⟩ := forksOf_first e crowd
      exact ⟨creator ▸ by decide, fun _ => first, by simp [alone]⟩

variable (few : n < 2 ^ 32)

theorem duel_received : (crowdedDag few).Received duelEvents :=
  ⟨duel_ordered, fun _ member => List.mem_append_left _ member⟩

theorem crowdDuel_received : (crowdedDag few).Received (forksOf n ++ duelEvents) := by
  have crowd : ParentsFirst [] (forksOf n) :=
    parentsFirst_orphans forksOf_orphans (forksOf_ids few)
  have duel := parentsFirst_weaken duel_ordered (forksOf_fresh few)
  rw [List.append_nil] at duel
  refine ⟨parentsFirst_append.mpr ⟨crowd, duel⟩, fun e member => ?_⟩
  exact List.mem_append.mpr (List.mem_append.mp member).symm

theorem duel_tail {bi bi' : BranchesInfo} {branch branch' : EventID → Option Nat}
    (tail : Branching fourValidators bi branch
      [firstEvent 2 3 [1#256], firstEvent 1 4 [1#256, 2#256, 3#256]] bi' branch') :
    branch' 1#256 = branch 1#256 ∧ branch' 2#256 = branch 2#256 :=
  ⟨tail.old (by decide), tail.old (by decide)⟩

theorem crowd_then_duel (full : n = maxBranchesPerValidator) (cfg : IndexConfig) :
    ∃ vi db bi t, Reached (crowdedDag few) cfg (forksOf n ++ duelEvents) vi ∧
      IndexAt (crowdedDag few) (forksOf n ++ duelEvents) vi db bi t ∧
      vi.forklessCauseCache.evictList = [] ∧ t.branch 1#256 = t.branch 2#256 := by
  have received := crowdDuel_received few
  have crowd : (crowdedDag few).Received ([] ++ forksOf n) :=
    ⟨(parentsFirst_append.mp received.ordered).1,
      fun e member => received.inside e (List.mem_append_left _ member)⟩
  obtain ⟨vi, db, bi, t, reached, at₁, branching, cache⟩ :=
    reached_adds (.start EventDag.heldBy_source) (new_at cfg EventDag.heldBy_source) crowd
  obtain ⟨vi', db', bi', t', reached', at', branching', cache'⟩ := reached_adds reached at₁ received
  refine ⟨vi', db', bi', t', reached', at', by rw [cache', cache]; rfl, ?_⟩
  have listed : fourValidators.getIdx 4 < fourValidators.len := by decide
  -- the crowd uses up the branches
  obtain ⟨consistent, used, length⟩ := orphans_full listed branching
    (fun x member => ⟨(forksOf_first x member).1, (forksOf_first x member).2.1⟩)
    (fun x member => by simp [(forksOf_first x member).2.2])
    (by rw [← List.length_pos_iff, length_forksOf, full]; decide)
    (by rw [length_forksOf, full])
  rw [length_forksOf, full] at length
  generalize t.branch = branch at branching'
  generalize t'.branch = branch' at branching' ⊢
  obtain _ | ⟨choice, _ | ⟨choice', tail⟩⟩ := branching'
  have used' := choice_used choice consistent listed (by simp [firstEvent, Event.selfParent])
    (by simp [firstEvent]) used
  have share := forks_share choice choice' length.ge (fun _ => used)
    (by simp [firstEvent, Event.selfParent]) (fun _ => used')
    (by simp [firstEvent, Event.selfParent])
  subst share
  rw [(duel_tail tail).1, (duel_tail tail).2]
  rfl

theorem duel_then_crowd (cfg : IndexConfig) :
    ∃ vi db bi t, Reached (crowdedDag few) cfg (duelEvents ++ forksOf n) vi ∧
      IndexAt (crowdedDag few) (duelEvents ++ forksOf n) vi db bi t ∧
      vi.forklessCauseCache.evictList = [] ∧ t.branch 1#256 ≠ t.branch 2#256 := by
  obtain ⟨vi, db, bi, t, reached, at₁, branching, cache⟩ :=
    reached_adds (.start EventDag.heldBy_source) (new_at cfg EventDag.heldBy_source)
      (duel_received few)
  obtain ⟨vi', db', bi', t', reached', at', branching', cache'⟩ :=
    reached_adds reached at₁ EventDag.received_events
  refine ⟨vi', db', bi', t', reached', at', by rw [cache', cache]; rfl, ?_⟩
  have fresh : ∀ x ∈ forksOf n, x.id ≠ 1#256 ∧ x.id ≠ 2#256 := fun x inX =>
    ⟨forksOf_fresh few x inX (firstEvent 4 1 []) (by decide),
      forksOf_fresh few x inX (firstEvent 4 2 []) (by decide)⟩
  rw [branching'.old fun x inX => (fresh x inX).1, branching'.old fun x inX => (fresh x inX).2]
  generalize t.branch = branch at branching ⊢
  generalize noTables.branch = start at branching
  obtain _ | ⟨choice, _ | ⟨choice', tail⟩⟩ := branching
  obtain ⟨rfl, rfl⟩ := choice_of_first choice (BranchesInfo.lastSeq_initial _ _)
  rw [(duel_tail tail).1, (duel_tail tail).2]
  rcases choice_of_fork choice' (fun _ => by decide) (by simp [firstEvent, Event.selfParent]) with
    ⟨_, rfl, _⟩ | ⟨full, _⟩
  · exact show some 3 ≠ some 4 by decide
  · exact absurd full (by decide)

def judge : Event := firstEvent 1 4 [1#256, 2#256, 3#256]

theorem judge_sees (sees : Observes (crowdedDag few).events judge y) : y ∈ duelEvents :=
  (duel_received few).observes (by decide) sees

theorem judge_observes (inside : y ∈ duelEvents) : Observes (crowdedDag few).events judge y := by
  have parents : ∀ y ∈ duelEvents, y = judge ∨ y.id ∈ judge.parents := by decide
  rcases parents y inside with rfl | parent
  · exact .refl
  · exact .single ⟨List.mem_append_left _ inside, parent⟩

theorem crowdDuel_flat : ∀ y ∈ forksOf n ++ duelEvents, y.seq = 1 := by
  intro y member
  rcases List.mem_append.mp member with crowd | duel
  · exact (forksOf_first y crowd).2.2
  · exact (duel_first y duel).2.1

theorem crowded_light : LightForks (crowdedDag few).events fourValidators := by
  have duel : ∀ x ∈ duelEvents, ∀ y ∈ duelEvents, x.creator = y.creator →
      x.creator ≠ 4 → x = y := by
    decide
  have inDuel : ∀ x ∈ (crowdedDag few).events, x.creator ≠ 4 → x ∈ duelEvents := by
    intro x inside other
    rcases List.mem_append.mp inside with early | crowd
    · exact early
    · exact absurd (forksOf_first x crowd).1 other
  refine fourValidators_light (forkers_subset fun x inX y inY same other => ?_)
  exact duel x (inDuel x inX other) y (inDuel y inY (same ▸ other)) same other

theorem crowd_hides (full : n = maxBranchesPerValidator) (cfg : IndexConfig) :
    ∃ vi, Reached (crowdedDag few) cfg (forksOf n ++ duelEvents) vi ∧
      (∃ after, vi.forklessCause 4#256 1#256 = .ok (true, after)) ∧
      ∃ vec after, vi.getMergedHighestBefore 4#256 = .ok (vec, after) ∧
        vec.isForkDetected (fourValidators.getIdx 4) = false := by
  obtain ⟨vi, db, bi, t, reached, at₁, empty, same⟩ := crowd_then_duel few full cfg
  have received := crowdDuel_received few
  have inJudge : judge ∈ forksOf n ++ duelEvents := List.mem_append_right _ (by decide)
  have inFork : firstEvent 4 1 [] ∈ forksOf n ++ duelEvents := List.mem_append_right _ (by decide)
  have shared : ∀ x y, Observes (crowdedDag few).events judge x →
      Observes (crowdedDag few).events judge y → x.creator = y.creator →
      t.branch x.id = t.branch y.id := by
    intro x y seesX seesY creator
    have pairs : ∀ x ∈ duelEvents, ∀ y ∈ duelEvents, x.creator = y.creator → x.id = y.id ∨
        (x.id = 1#256 ∧ y.id = 2#256) ∨ (x.id = 2#256 ∧ y.id = 1#256) := by
      decide
    rcases pairs x (judge_sees few seesX) y (judge_sees few seesY) creator with
      equal | ⟨left, right⟩ | ⟨left, right⟩
    · rw [equal]
    · rw [left, right, same]
    · rw [left, right, same]
  have quiet := quiet_of_one_branch at₁.spec received inJudge shared
  refine ⟨vi, reached, ?_, ?_⟩
  · obtain ⟨res, caught, answer, clash, _, right⟩ :=
      forklessCause_bridges at₁.spec received inJudge inFork
    have counted : {1, 2, 4} ⊆ bridges (crowdedDag few) bi t (forksOf n ++ duelEvents) judge
        (firstEvent 4 1 []) := by
      intro v member
      have sees : ∀ v ∈ ({1, 2, 4} : Finset Nat), v ∈ fourValidators.sortedIDs ∧
          ∃ y ∈ duelEvents, y.creator = v ∧ (y = firstEvent 4 1 [] ∨ 1#256 ∈ y.parents) := by
        decide
      obtain ⟨listed, y, inY, rfl, path⟩ := sees v member
      have seesFork : Observes (crowdedDag few).events y (firstEvent 4 1 []) := by
        rcases path with rfl | parent
        · exact .refl
        · exact .single ⟨List.mem_append_left _ (by decide), parent⟩
      have bridge := bridged_of_flat at₁.spec received (crowdDuel_flat (n := n)) inJudge
        (judge_observes few inY) seesFork
      simpa [bridges] using ⟨listed, quiet _, bridge⟩
    have yes : res = true := by
      refine right.mpr ⟨Bool.eq_false_iff.mpr fun marked => quiet _ (clash marked), ?_⟩
      have weight : mass fourValidators.get {1, 2, 4} = 3 := by decide
      have quorum : fourValidators.quorum = 3 := by decide
      have := mass_mono fourValidators.get counted
      omega
    exact forklessCause_at at₁ empty (yes ▸ answer)
  · obtain ⟨vec, after, run, marks⟩ := getMergedHighestBefore_at at₁ received inJudge
    refine ⟨vec, after, run, Bool.eq_false_iff.mpr fun marked => ?_⟩
    exact quiet _ ((marks 4 (by decide)).mp marked)

theorem duel_shows (cfg : IndexConfig) :
    ∃ vi, Reached (crowdedDag few) cfg (duelEvents ++ forksOf n) vi ∧
      (∃ after, vi.forklessCause 4#256 1#256 = .ok (false, after)) ∧
      ∃ vec after, vi.getMergedHighestBefore 4#256 = .ok (vec, after) ∧
        vec.isForkDetected (fourValidators.getIdx 4) = true := by
  obtain ⟨vi, db, bi, t, reached, at₁, empty, different⟩ := duel_then_crowd few cfg
  have received : (crowdedDag few).Received (duelEvents ++ forksOf n) := EventDag.received_events
  have inJudge : judge ∈ duelEvents ++ forksOf n := List.mem_append_left _ (by decide)
  have inFork : firstEvent 4 1 [] ∈ duelEvents ++ forksOf n := List.mem_append_left _ (by decide)
  have seesX := judge_observes few (show firstEvent 4 1 [] ∈ duelEvents by decide)
  have seesY := judge_observes few (show firstEvent 4 2 [] ∈ duelEvents by decide)
  have clash := clash_of_two_branches at₁.spec received inJudge seesX seesY rfl rfl different
  refine ⟨vi, reached, ?_, ?_⟩
  · obtain ⟨res, caught, answer, _, caughtIf, right⟩ :=
      forklessCause_bridges at₁.spec received inJudge inFork
    have no : res = false := by
      refine Bool.eq_false_iff.mpr fun yes => ?_
      rw [caughtIf seesX clash] at right
      simpa using (right.mp yes).1
    exact forklessCause_at at₁ empty (no ▸ answer)
  · obtain ⟨vec, after, run, marks⟩ := getMergedHighestBefore_at at₁ received inJudge
    exact ⟨vec, after, run, (marks 4 (by decide)).mpr clash⟩

end Crowd

/-- With one validator of four forking, the answers and the detected forks depend on the
order of arrival: a full set of forks before the two that matter hides them. -/
theorem branch_cap_splits : ∃ few : maxBranchesPerValidator < 2 ^ 32, ∃ vi vi',
    LightForks (crowdedDag few).events fourValidators ∧
    Reached (crowdedDag few) ⟨10, 10, 10⟩ (forksOf maxBranchesPerValidator ++ duelEvents) vi ∧
    Reached (crowdedDag few) ⟨10, 10, 10⟩ (duelEvents ++ forksOf maxBranchesPerValidator) vi' ∧
    (∃ after after', vi.forklessCause 4#256 1#256 = .ok (true, after) ∧
      vi'.forklessCause 4#256 1#256 = .ok (false, after')) ∧
    ∃ vec vec' after after', vi.getMergedHighestBefore 4#256 = .ok (vec, after) ∧
      vi'.getMergedHighestBefore 4#256 = .ok (vec', after') ∧
      vec.isForkDetected (fourValidators.getIdx 4) = false ∧
      vec'.isForkDetected (fourValidators.getIdx 4) = true := by
  have few : maxBranchesPerValidator < 2 ^ 32 := by decide
  obtain ⟨vi, reached, ⟨after, yes⟩, vec, merged, hidden, unmarked⟩ :=
    crowd_hides few rfl ⟨10, 10, 10⟩
  obtain ⟨vi', reached', ⟨after', no⟩, vec', merged', shown, marked⟩ :=
    duel_shows few ⟨10, 10, 10⟩
  exact ⟨few, vi, vi', crowded_light few, reached, reached', ⟨after, after', yes, no⟩, vec, vec', merged, merged',
    hidden, shown, unmarked, marked⟩

end Lachesis.Vecfc
