import Lachesis.Kvdb.Flushable

/-!
The merge of the tree and the parent's iterator. `Live` are the pairs that are still to be
yielded; a step either keeps them or yields the lowest one.
-/

namespace Lachesis.Kvdb

open SearchTree

theorem nextNode_eq (tree : Modified) {node : Bytes} {val : Option Bytes}
    (member : (node, val) ∈ tree.toList) :
    nextNode tree node = (tree.tree.above node).head?.map Prod.fst := by
  obtain ⟨left, right, own, found, first⟩ := tree.tree.locate_spec tree.ordered member []
  rw [nextNode, found, first, List.append_nil]
  dsimp only
  cases right.leftmost <;> rfl

namespace FlushableIterator

variable {it it' : FlushableIterator}

def treeRest (it : FlushableIterator) : List (Bytes × Option Bytes) :=
  match it.treeOk, it.treeNode with
  | true, some node => it.tree.tree.since node
  | _, _ => []

def parentRest (it : FlushableIterator) : List (Bytes × Bytes) :=
  if it.parentOk then it.parentIt.pair :: it.parentIt.rest else []

structure Valid (it : FlushableIterator) : Prop where
  node : it.treeOk = true → ∃ node val, it.treeNode = some node ∧ (node, val) ∈ it.tree.toList
  ascending : it.parentRest.Pairwise fun a b => a.1 < b.1
  prefixed : ∀ x ∈ it.parentRest, it.pre <+: x.1
  after : ∀ x ∈ it.treeRest, it.pre ≤ x.1
  treeAhead : ∀ prev, it.prevKey = some prev → ∀ x ∈ it.treeRest, prev < x.1
  parentAhead : ∀ prev, it.prevKey = some prev → ∀ x ∈ it.parentRest, prev ≤ x.1

structure Live (it : FlushableIterator) (k v : Bytes) : Prop where
  prefixed : it.pre <+: k
  ahead : ∀ prev, it.prevKey = some prev → prev < k
  stored : (k, some v) ∈ it.treeRest ∨ (∀ x ∈ it.treeRest, x.1 ≠ k) ∧ (k, v) ∈ it.parentRest

def size (it : FlushableIterator) : Nat := it.treeRest.length + it.parentRest.length

structure Moves (it it' : FlushableIterator) : Prop where
  valid : it'.Valid
  live : ∀ k v, it'.Live k v ↔ it.Live k v
  size : it'.size ≤ it.size

structure Yields (it it' : FlushableIterator) : Prop where
  valid : it'.Valid
  live : ∀ k v, it.Live k v ↔ (k = it'.key ∧ v = it'.val) ∨ it'.Live k v
  above : ∀ k v, it'.Live k v → it'.key < k
  size : it'.size < it.size

variable {it'' : FlushableIterator}

theorem Moves.trans (first : Moves it it') (second : Moves it' it'') : Moves it it'' :=
  ⟨second.valid, fun k v => (second.live k v).trans (first.live k v), second.size.trans first.size⟩

theorem Moves.yields (first : Moves it it') (second : Yields it' it'') : Yields it it'' :=
  ⟨second.valid, fun k v => (first.live k v).symm.trans (second.live k v), second.above,
    second.size.trans_le first.size⟩

def Outcome (it : FlushableIterator) (Quiet : FlushableIterator → Prop) :
    Bool × FlushableIterator → Prop
  | (true, it') => Yields it it'
  | (false, it') => Quiet it'

section Tree

variable {node : Bytes} {val : Option Bytes}

theorem treeRest_at (at_ : it.treeNode = some node) (treeOk : it.treeOk = true)
    (member : (node, val) ∈ it.tree.toList) :
    it.treeRest = (node, val) :: it.tree.tree.above node := by
  rw [treeRest, at_, treeOk]
  exact Tree.since_of_mem it.tree.ordered member

section Frame

variable (it : FlushableIterator) (node : Bytes)

@[simp] theorem advanceTree_tree : (it.advanceTree node).tree = it.tree := by
  unfold advanceTree
  split <;> rfl

@[simp] theorem advanceTree_key : (it.advanceTree node).key = it.key := by
  unfold advanceTree
  split <;> rfl

@[simp] theorem advanceTree_val : (it.advanceTree node).val = it.val := by
  unfold advanceTree
  split <;> rfl

@[simp] theorem advanceTree_prevKey : (it.advanceTree node).prevKey = it.prevKey := by
  unfold advanceTree
  split <;> rfl

@[simp] theorem advanceTree_parentIt : (it.advanceTree node).parentIt = it.parentIt := by
  unfold advanceTree
  split <;> rfl

@[simp] theorem advanceTree_parentOk : (it.advanceTree node).parentOk = it.parentOk := by
  unfold advanceTree
  split <;> rfl

@[simp] theorem advanceTree_pre : (it.advanceTree node).pre = it.pre := by
  unfold advanceTree
  split <;> rfl

@[simp] theorem advanceTree_parentRest : (it.advanceTree node).parentRest = it.parentRest := by
  simp [parentRest]

end Frame

theorem advanceTree_node (treeOk : it.treeOk = true) (member : (node, val) ∈ it.tree.toList)
    (still : (it.advanceTree node).treeOk = true) : ∃ node' val',
      (it.advanceTree node).treeNode = some node' ∧ (node', val') ∈ it.tree.toList ∧
      it.tree.tree.above node = (node', val') :: it.tree.tree.above node' := by
  rw [advanceTree, if_pos treeOk, nextNode_eq it.tree member] at still ⊢
  cases above : it.tree.tree.above node with
  | nil => simp [above] at still
  | cons first rest =>
    have inside : first ∈ it.tree.tree.above node := by simp [above]
    refine ⟨first.1, first.2, by simp, (List.mem_filter.mp inside).1, ?_⟩
    rw [Tree.above_tail it.tree.ordered above]

theorem advanceTree_rest (treeOk : it.treeOk = true) (member : (node, val) ∈ it.tree.toList) :
    (it.advanceTree node).treeRest = it.tree.tree.above node := by
  have tree := advanceTree_tree it node
  by_cases still : (it.advanceTree node).treeOk = true
  · obtain ⟨node', val', at_, inside, above⟩ := advanceTree_node treeOk member still
    rw [treeRest_at at_ still (tree ▸ inside), above, tree]
  · have nothing : it.tree.tree.above node = [] := by
      rw [advanceTree, if_pos treeOk, nextNode_eq it.tree member] at still
      simpa using still
    rw [treeRest, nothing, Bool.eq_false_iff.mpr still]

structure Passes (it it' : FlushableIterator) (node : Bytes) (val : Option Bytes) : Prop where
  valid : it'.Valid
  live : ∀ k v, it.Live k v ↔ (k = node ∧ val = some v ∧ it.pre <+: node) ∨ it'.Live k v
  above : ∀ k v, it'.Live k v → node < k
  rest : it'.treeRest.length < it.treeRest.length

theorem passes (valid : it.Valid) (at_ : it.treeNode = some node) (treeOk : it.treeOk = true)
    (member : (node, val) ∈ it.tree.toList) (lower : ∀ x ∈ it.parentRest, node ≤ x.1)
    (key' val' : Bytes) :
    Passes it ({ it with key := key', val := val', prevKey := some node }.advanceTree node)
      node val := by
  let moved : FlushableIterator := { it with key := key', val := val', prevKey := some node }
  let it' := moved.advanceTree node
  have rest : it.treeRest = (node, val) :: it.tree.tree.above node := treeRest_at at_ treeOk member
  have rest' : it'.treeRest = it.tree.tree.above node := @advanceTree_rest moved _ _ treeOk member
  have parent : it'.parentRest = it.parentRest := advanceTree_parentRest moved node
  have pre : it'.pre = it.pre := advanceTree_pre moved node
  have prev : it'.prevKey = some node := advanceTree_prevKey moved node
  have higher : ∀ x ∈ it.tree.tree.above node, node < x.1 := fun x inside => by
    simpa using (List.mem_filter.mp inside).2
  refine ⟨⟨?_, ?_, ?_, ?_, ?_, ?_⟩, fun k v => ?_, fun k v live => live.ahead node prev, ?_⟩
  · intro still
    obtain ⟨node', val', next, inside, _⟩ := @advanceTree_node moved _ _ treeOk member still
    exact ⟨node', val', next, by rwa [advanceTree_tree]⟩
  · exact parent ▸ valid.ascending
  · rw [parent, pre]
    exact valid.prefixed
  · rw [rest', pre]
    exact fun x inside => valid.after x (rest ▸ List.mem_cons_of_mem _ inside)
  · rw [rest', prev]
    rintro _ ⟨⟩
    exact higher
  · rw [parent, prev]
    rintro _ ⟨⟩
    exact lower
  · constructor
    · intro live
      have other : k ≠ node → it'.Live k v := by
        intro different
        have stored : (k, some v) ∈ it'.treeRest ∨
            (∀ x ∈ it'.treeRest, x.1 ≠ k) ∧ (k, v) ∈ it'.parentRest := by
          rw [rest', parent]
          refine live.stored.imp (fun inside => ?_) fun ⟨free, inside⟩ => ⟨fun x later => ?_, inside⟩
          · grind
          · exact free x (rest ▸ List.mem_cons_of_mem _ later)
        refine ⟨pre ▸ live.prefixed, ?_, stored⟩
        rw [prev]
        rintro _ ⟨⟩
        rw [rest', parent] at stored
        rcases stored with inTree | ⟨_, inParent⟩
        · exact higher _ inTree
        · exact lt_of_le_of_ne (lower _ inParent) (Ne.symm different)
      by_cases same : k = node
      · subst same
        rcases live.stored with inTree | ⟨free, _⟩
        · rw [rest] at inTree
          rcases List.mem_cons.mp inTree with eq | later
          · exact .inl ⟨rfl, (congrArg Prod.snd eq).symm, live.prefixed⟩
          · exact absurd (higher _ later) (lt_irrefl k)
        · exact absurd rfl (free (k, val) (rest ▸ List.mem_cons_self))
      · exact .inr (other same)
    · rintro (⟨rfl, rfl, prefixed⟩ | live)
      · refine ⟨prefixed, fun prev was => ?_, .inl (rest ▸ List.mem_cons_self)⟩
        exact valid.treeAhead prev was (k, some v) (rest ▸ List.mem_cons_self)
      · have beyond := live.ahead node prev
        refine ⟨pre ▸ live.prefixed, fun p was => ?_, ?_⟩
        · exact (valid.treeAhead p was (node, val) (rest ▸ List.mem_cons_self)).trans beyond
        · have stored := live.stored
          rw [rest', parent] at stored
          rw [rest]
          refine stored.imp (List.mem_cons_of_mem _) fun ⟨free, inside⟩ => ⟨fun x later => ?_, inside⟩
          rcases List.mem_cons.mp later with rfl | deeper
          · exact beyond.ne
          · exact free x deeper
  · rw [show (moved.advanceTree node).treeRest = _ from rest', rest]
    exact Nat.lt_succ_self _

theorem stops (valid : it.Valid) (at_ : it.treeNode = some node) (treeOk : it.treeOk = true)
    (member : (node, val) ∈ it.tree.toList) (gap : ¬ it.pre <+: node) :
    Moves it { it with treeOk := false } := by
  have rest : it.treeRest = (node, val) :: it.tree.tree.above node := treeRest_at at_ treeOk member
  have outside : ∀ x ∈ it.treeRest, ¬ it.pre <+: x.1 := by
    intro x inside
    refine not_prefixed_of_le (valid.after (node, val) (rest ▸ List.mem_cons_self)) gap ?_
    rw [rest] at inside
    rcases List.mem_cons.mp inside with rfl | later
    · exact le_rfl
    · exact (by simpa using (List.mem_filter.mp later).2 : node < x.1).le
  have rest' : ({ it with treeOk := false } : FlushableIterator).treeRest = [] := rfl
  refine ⟨⟨nofun, valid.ascending, valid.prefixed, ?_, fun _ _ => ?_, valid.parentAhead⟩,
    fun k v => ⟨fun live => ⟨live.prefixed, live.ahead, ?_⟩, fun live =>
      ⟨live.prefixed, live.ahead, ?_⟩⟩, ?_⟩
  · rw [rest']
    exact fun _ absurd => (nomatch absurd)
  · rw [rest']
    exact fun _ absurd => (nomatch absurd)
  · have stored := live.stored
    rw [rest'] at stored
    rcases stored with inTree | ⟨_, inParent⟩
    · cases inTree
    · exact .inr ⟨fun x inside same => outside x inside (same ▸ live.prefixed), inParent⟩
  · rw [rest']
    rcases live.stored with inTree | ⟨_, inParent⟩
    · exact absurd live.prefixed (outside _ inTree)
    · exact .inr ⟨fun _ absurd => (nomatch absurd), inParent⟩
  · rw [size, size, rest']
    exact Nat.add_le_add_right (Nat.zero_le _) _

theorem isSuitable_prefixed (prefixed : it.pre <+: node)
    (ahead : ∀ prev, it.prevKey = some prev → prev < node) : it.isSuitable node = (true, true) := by
  rw [isSuitable, if_neg (not_not.mpr prefixed)]
  cases prev : it.prevKey with
  | none => rfl
  | some prevKey => simp [ahead prevKey prev]

structure Skips (it it' : FlushableIterator) : Prop extends Moves it it' where
  parentIt : it'.parentIt = it.parentIt
  parentOk : it'.parentOk = it.parentOk
  tree : it'.tree = it.tree

theorem treeStep_spec (valid : it.Valid) (at_ : it.treeNode = some node) (treeOk : it.treeOk = true)
    (member : (node, val) ∈ it.tree.toList) (lower : ∀ x ∈ it.parentRest, node ≤ x.1) :
    Outcome it (fun it' => Skips it it' ∧ it'.treeRest.length < it.treeRest.length)
      (it.treeStep node val) := by
  cases val with
  | none =>
    have passed := passes valid at_ treeOk member lower it.key it.val
    refine ⟨⟨⟨passed.valid, fun k v => ?_, ?_⟩, ?_, ?_, ?_⟩, passed.rest⟩
    · rw [passed.live k v]
      exact ⟨.inr, fun either => either.resolve_left fun ⟨_, wrong, _⟩ => (nomatch wrong)⟩
    · exact Nat.add_le_add passed.rest.le (by simp [parentRest])
    · simp
    · simp
    · simp
  | some v =>
    have ahead := fun prev was => valid.treeAhead prev was (node, some v)
      (treeRest_at at_ treeOk member ▸ List.mem_cons_self)
    by_cases prefixed : it.pre <+: node
    · have step : it.treeStep node (some v) =
          (true, { it with key := node, val := v, prevKey := some node }.advanceTree node) := by
        simp [treeStep, isSuitable_prefixed prefixed ahead, yield, treeOk]
      have passed := passes valid at_ treeOk member lower node v
      rw [step]
      refine ⟨passed.valid, fun k u => ?_, fun k u live => ?_, ?_⟩
      · rw [passed.live k u]
        simp [prefixed, eq_comm]
      · simpa using passed.above k u live
      · exact Nat.add_lt_add_of_lt_of_le passed.rest (by simp [parentRest])
    · have step : it.treeStep node (some v) = (false, { it with treeOk := false }) := by
        simp [treeStep, isSuitable, prefixed, advanceTree]
      rw [step]
      refine ⟨⟨stops valid at_ treeOk member prefixed, rfl, rfl, rfl⟩, ?_⟩
      rw [treeRest_at at_ treeOk member]
      exact Nat.succ_pos _

theorem Skips.refl (valid : it.Valid) : Skips it it :=
  ⟨⟨valid, fun _ _ => Iff.rfl, le_rfl⟩, rfl, rfl, rfl⟩

theorem Skips.trans {it'' : FlushableIterator} (first : Skips it it') (second : Skips it' it'') :
    Skips it it'' :=
  ⟨first.toMoves.trans second.toMoves, second.parentIt.trans first.parentIt,
    second.parentOk.trans first.parentOk, second.tree.trans first.tree⟩

theorem Valid.parent_first (valid : it.Valid) : ∀ x ∈ it.parentRest, it.parentIt.pair.1 ≤ x.1 := by
  intro x inside
  have ascending := valid.ascending
  rw [parentRest] at inside ascending
  split at inside
  · next parentOk =>
    rw [if_pos parentOk] at ascending
    rcases List.mem_cons.mp inside with rfl | later
    · exact le_rfl
    · exact ((List.pairwise_cons.mp ascending).1 x later).le
  · cases inside

theorem castToPair_at (member : (node, val) ∈ it.tree.toList) :
    castToPair it.tree (some node) = (node, val) := by
  rw [castToPair, (Tree.find_eq_some it.tree.ordered).mpr member]
  rfl

theorem scanTree_stopped (stopped : it.treeOk = false) : ∀ fuel, it.scanTree fuel = (false, it)
  | 0 => rfl
  | fuel + 1 => by simp [scanTree, stopped]

/-- The loop over the tree stops at a key above the parent's, or at the end. -/
structure Beyond (it it' : FlushableIterator) : Prop extends Skips it it' where
  higher : it'.parentOk = true → ∀ x ∈ it'.treeRest, it'.parentIt.pair.1 < x.1
  ended : it'.parentOk = false → it'.treeOk = false

theorem scanTree_spec : ∀ (fuel : Nat) {it : FlushableIterator}, it.Valid →
    it.treeRest.length < fuel → Outcome it (Beyond it) (it.scanTree fuel) := by
  intro fuel
  induction fuel with
  | zero => exact fun _ short => absurd short (Nat.not_lt_zero _)
  | succ fuel ih =>
    intro it valid short
    cases treeOk : it.treeOk with
    | false =>
      rw [scanTree_stopped treeOk]
      refine ⟨.refl valid, fun _ x inside => ?_, fun _ => treeOk⟩
      rw [treeRest, treeOk] at inside
      cases inside
    | true =>
      obtain ⟨node, val, at_, member⟩ := valid.node treeOk
      have rest := treeRest_at at_ treeOk member
      rw [scanTree, at_, castToPair_at member]
      dsimp only
      split
      · next lower =>
        have below : ∀ x ∈ it.parentRest, node ≤ x.1 := by
          intro x inside
          rcases lower.2 with gone | le
          · simp [parentRest, gone] at inside
          · exact le.trans (valid.parent_first x inside)
        have step := treeStep_spec valid at_ treeOk member below
        generalize it.treeStep node val = result at step ⊢
        obtain ⟨_ | _, it'⟩ := result
        · obtain ⟨skips, less⟩ := step
          have later := ih skips.valid (less.trans_le (Nat.lt_succ_iff.mp short))
          dsimp only
          generalize it'.scanTree fuel = result at later ⊢
          obtain ⟨_ | _, it''⟩ := result
          · exact ⟨skips.trans later.toSkips, later.higher, later.ended⟩
          · exact skips.toMoves.yields later
        · exact step
      · next higher =>
        have above : it.parentOk = true ∧ it.parentIt.pair.1 < node := by
          simpa [treeOk] using higher
        refine ⟨.refl valid, fun _ x inside => ?_, fun gone => ?_⟩
        · rw [rest] at inside
          rcases List.mem_cons.mp inside with rfl | later
          · exact above.2
          · exact above.2.trans (by simpa using (List.mem_filter.mp later).2)
        · exact absurd (above.1.symm.trans gone) (by simp)

end Tree

section Parent

theorem parentRest_next (parentIt : ParentIterator) :
    (if parentIt.next.1 then parentIt.next.2.pair :: parentIt.next.2.rest else []) =
      parentIt.rest := by
  unfold ParentIterator.next
  split
  · next nothing => simp [nothing]
  · next pair rest more => simp [more, ParentIterator.pair]

theorem parentRest_at (parentOk : it.parentOk = true) :
    it.parentRest = it.parentIt.pair :: it.parentIt.rest := by
  rw [parentRest, if_pos parentOk]

theorem parent_passes (valid : it.Valid) (parentOk : it.parentOk = true)
    (beyond : ∀ x ∈ it.treeRest, it.parentIt.pair.1 < x.1)
    (same : it'.tree = it.tree ∧ it'.treeOk = it.treeOk ∧ it'.treeNode = it.treeNode ∧
      it'.pre = it.pre) (rest : it'.parentRest = it.parentIt.rest)
    (ahead : ∀ prev, it'.prevKey = some prev → prev ≤ it.parentIt.pair.1) : it'.Valid := by
  obtain ⟨tree, treeOk, treeNode, pre⟩ := same
  have sameRest : it'.treeRest = it.treeRest := by
    rw [treeRest, treeRest, tree, treeOk, treeNode]
  have ascending := valid.ascending
  rw [parentRest_at parentOk] at ascending
  obtain ⟨first, later⟩ := List.pairwise_cons.mp ascending
  refine ⟨?_, rest ▸ later, ?_, ?_, ?_, ?_⟩
  · rw [treeOk, treeNode, tree]
    exact valid.node
  · rw [rest, pre]
    exact fun x inside => valid.prefixed x (parentRest_at parentOk ▸ List.mem_cons_of_mem _ inside)
  · rw [sameRest, pre]
    exact valid.after
  · rw [sameRest]
    exact fun prev was x inside => (ahead prev was).trans_lt (beyond x inside)
  · rw [rest]
    exact fun prev was x inside => (ahead prev was).trans (first x inside).le

theorem parentStep_spec (valid : it.Valid) (parentOk : it.parentOk = true)
    (beyond : ∀ x ∈ it.treeRest, it.parentIt.pair.1 < x.1) :
    Outcome it (fun it' => Moves it it' ∧ it'.parentRest = it.parentIt.rest ∧ it'.tree = it.tree)
      it.parentStep := by
  have here := parentRest_at parentOk
  have prefixed : it.pre <+: it.parentIt.pair.1 :=
    valid.prefixed _ (here ▸ List.mem_cons_self)
  have less : ∀ x ∈ it.parentIt.rest, it.parentIt.pair.1 < x.1 := by
    have ascending := valid.ascending
    rw [here] at ascending
    exact (List.pairwise_cons.mp ascending).1
  by_cases ahead : ∀ prev, it.prevKey = some prev → prev < it.parentIt.pair.1
  · let it' : FlushableIterator := { it with
      key := it.parentIt.pair.1, val := it.parentIt.pair.2, prevKey := some it.parentIt.pair.1
      parentOk := it.parentIt.next.1, parentIt := it.parentIt.next.2 }
    have step : it.parentStep = (true, it') := by
      simp [parentStep, isSuitable_prefixed prefixed ahead, yield, it']
    have rest : it'.parentRest = it.parentIt.rest := parentRest_next it.parentIt
    rw [step]
    refine ⟨parent_passes valid parentOk beyond ⟨rfl, rfl, rfl, rfl⟩ rest ?_,
      fun k v => ⟨fun live => ?_, ?_⟩, fun k v live => live.ahead _ rfl, ?_⟩
    · rintro _ ⟨⟩
      exact le_rfl
    · rcases live.stored with inTree | ⟨free, inParent⟩
      · refine .inr ⟨live.prefixed, ?_, .inl inTree⟩
        rintro _ ⟨⟩
        exact beyond _ inTree
      · rw [here] at inParent
        rcases List.mem_cons.mp inParent with eq | later
        · exact .inl ⟨congrArg Prod.fst eq, congrArg Prod.snd eq⟩
        · refine .inr ⟨live.prefixed, ?_, .inr ⟨free, rest ▸ later⟩⟩
          rintro _ ⟨⟩
          exact less _ later
    · rintro (⟨rfl, rfl⟩ | live)
      · exact ⟨prefixed, ahead, .inr ⟨fun x inside => (beyond x inside).ne', here ▸ List.mem_cons_self⟩⟩
      · refine ⟨live.prefixed, fun prev was => (ahead prev was).trans (live.ahead _ rfl), ?_⟩
        refine live.stored.imp_right fun ⟨free, inParent⟩ => ⟨free, ?_⟩
        rw [rest] at inParent
        exact here ▸ List.mem_cons_of_mem _ inParent
    · change it.treeRest.length + it'.parentRest.length < it.treeRest.length + it.parentRest.length
      rw [rest, here, List.length_cons]
      exact Nat.lt_succ_self _
  · let it' : FlushableIterator := { it with
      parentOk := it.parentIt.next.1, parentIt := it.parentIt.next.2 }
    obtain ⟨prev, was, notLess⟩ : ∃ prev, it.prevKey = some prev ∧ ¬ prev < it.parentIt.pair.1 := by
      simpa using ahead
    have step : it.parentStep = (false, it') := by
      simp [parentStep, isSuitable, prefixed, was, notLess, it']
    have rest : it'.parentRest = it.parentIt.rest := parentRest_next it.parentIt
    rw [step]
    refine ⟨⟨parent_passes valid parentOk beyond ⟨rfl, rfl, rfl, rfl⟩ rest ?_,
      fun k v => ⟨fun live => ⟨live.prefixed, live.ahead, ?_⟩, fun live =>
        ⟨live.prefixed, live.ahead, ?_⟩⟩, ?_⟩, rest, rfl⟩
    · exact fun prev was => valid.parentAhead prev was _ (here ▸ List.mem_cons_self)
    · refine live.stored.imp_right fun ⟨free, inParent⟩ => ⟨free, ?_⟩
      rw [rest] at inParent
      exact here ▸ List.mem_cons_of_mem _ inParent
    · refine live.stored.imp_right fun ⟨free, inParent⟩ => ⟨free, ?_⟩
      rw [here] at inParent
      rcases List.mem_cons.mp inParent with eq | later
      · obtain rfl : k = it.parentIt.pair.1 := congrArg Prod.fst eq
        exact absurd (live.ahead prev was) notLess
      · exact rest ▸ later
    · change it.treeRest.length + it'.parentRest.length ≤ it.treeRest.length + it.parentRest.length
      rw [rest, here, List.length_cons]
      exact Nat.le_succ _

end Parent

theorem treeRest_length (it : FlushableIterator) : it.treeRest.length < it.tree.toList.length + 1 := by
  unfold treeRest
  split
  · exact Nat.lt_succ_of_le (List.length_filter_le _ _)
  · exact Nat.succ_pos _

theorem not_live (treeOk : it.treeOk = false) (parentOk : it.parentOk = false) (k v : Bytes) :
    ¬ it.Live k v := by
  intro live
  rcases live.stored with inTree | ⟨_, inParent⟩
  · rw [treeRest, treeOk] at inTree
    cases inTree
  · rw [parentRest, parentOk] at inParent
    cases inParent

def rounds (it : FlushableIterator) : Nat :=
  if it.treeOk ∨ it.parentOk then it.parentRest.length + 2 else 1

theorem rounds_le (it : FlushableIterator) : it.rounds ≤ it.parentRest.length + 2 := by
  unfold rounds
  split <;> omega

theorem scan_spec : ∀ (fuel : Nat) {it : FlushableIterator}, it.Valid → it.rounds ≤ fuel →
    Outcome it (fun _ => ∀ k v, ¬ it.Live k v) (it.scan fuel) := by
  intro fuel
  induction fuel with
  | zero =>
    intro it _ short
    unfold rounds at short
    split at short <;> omega
  | succ fuel ih =>
    intro it valid short
    rw [scan]
    split
    · next going =>
      rw [rounds, if_pos going] at short
      have tree := scanTree_spec _ valid it.treeRest_length
      generalize it.scanTree _ = result at tree ⊢
      obtain ⟨_ | _, it'⟩ := result
      · have continues : ∀ {it''}, Moves it it'' → it''.rounds ≤ fuel →
            Outcome it (fun _ => ∀ k v, ¬ it.Live k v) (it''.scan fuel) := by
          intro it'' moves short
          have later := ih moves.valid short
          generalize it''.scan fuel = result at later ⊢
          obtain ⟨_ | _, last⟩ := result
          · exact fun k v live => later k v ((moves.live k v).mpr live)
          · exact moves.yields later
        dsimp only
        split
        · next parentOk =>
          have parent := parentStep_spec tree.valid parentOk (tree.higher parentOk)
          generalize it'.parentStep = result at parent ⊢
          obtain ⟨_ | _, it''⟩ := result
          · obtain ⟨moves, rest, _⟩ := parent
            refine continues (tree.toMoves.trans moves) ?_
            have before : it.parentRest.length = it.parentIt.rest.length + 1 := by
              rw [parentRest_at (tree.parentOk.symm.trans parentOk)]
              rfl
            have after := it''.rounds_le
            rw [rest, tree.parentIt] at after
            omega
          · exact tree.toMoves.yields parent
        · next parentOk =>
          have gone := Bool.eq_false_iff.mpr parentOk
          refine continues tree.toMoves ?_
          rw [rounds, if_neg (by simp [tree.ended gone, gone])]
          omega
      · exact tree
    · next stopped =>
      rw [not_or, Bool.not_eq_true, Bool.not_eq_true] at stopped
      exact fun k v => not_live stopped.1 stopped.2 k v

theorem next_spec (valid : it.Valid) : Outcome it (fun _ => ∀ k v, ¬ it.Live k v) it.next := by
  refine scan_spec _ valid ?_
  have parent : it.parentRest.length ≤ it.parentIt.rest.length + 1 := by
    rw [parentRest]
    split <;> simp
  exact it.rounds_le.trans (Nat.add_le_add_right parent 2)

theorem drain_spec : ∀ (fuel : Nat) {it : FlushableIterator}, it.Valid → it.size < fuel →
    (it.drain fuel).Pairwise (fun a b => a.1 < b.1) ∧
    ∀ k v, (k, v) ∈ it.drain fuel ↔ it.Live k v := by
  intro fuel
  induction fuel with
  | zero => exact fun _ short => absurd short (Nat.not_lt_zero _)
  | succ fuel ih =>
    intro it valid short
    have step := next_spec valid
    rw [drain]
    generalize it.next = result at step ⊢
    obtain ⟨_ | _, it'⟩ := result
    · exact ⟨.nil, fun k v => ⟨fun absurd => (nomatch absurd), fun live => absurd live (step k v)⟩⟩
    · obtain ⟨ascending, mem⟩ := ih step.valid (step.size.trans_le (Nat.lt_succ_iff.mp short))
      refine ⟨List.pairwise_cons.mpr ⟨fun x inside => ?_, ascending⟩, fun k v => ?_⟩
      · exact step.above x.1 x.2 ((mem x.1 x.2).mp inside)
      · rw [List.mem_cons, mem, step.live, Prod.mk.injEq]

def fresh (tree : Modified) (pairs : List (Bytes × Bytes)) (pre start : Bytes) :
    FlushableIterator where
  tree := tree
  key := []
  val := []
  prevKey := none
  parentIt := ⟨none, pairs⟩
  parentOk := false
  treeNode := none
  treeOk := false
  start := pre ++ start
  pre := pre

theorem init_treeRest (tree : Modified) (pairs : List (Bytes × Bytes)) (pre start : Bytes) :
    (fresh tree pairs pre start).init.treeRest = tree.tree.since (pre ++ start) ∧
    ((fresh tree pairs pre start).init.treeOk = true → ∃ node val,
      (fresh tree pairs pre start).init.treeNode = some node ∧ (node, val) ∈ tree.toList) := by
  have first : (if (pre ++ start).length ≠ 0 then tree.tree.ceiling (pre ++ start) none
      else tree.tree.leftmost) = (tree.tree.since (pre ++ start)).head? := by
    split
    · rw [Tree.ceiling_eq tree.ordered, Option.or_none]
    · next empty =>
      have empty : pre ++ start = [] := by simpa using empty
      rw [Tree.leftmost_eq, Tree.since, empty, List.filter_eq_self.mpr fun x _ => by simpa using nil_le x.1]
  have treeNode : (fresh tree pairs pre start).init.treeNode =
      (tree.tree.since (pre ++ start)).head?.map Prod.fst := congrArg (Option.map Prod.fst) first
  have treeOk : (fresh tree pairs pre start).init.treeOk =
      (tree.tree.since (pre ++ start)).head?.isSome := congrArg Option.isSome first
  have same : (fresh tree pairs pre start).init.tree = tree := rfl
  rw [treeRest, treeNode, treeOk, same]
  cases since : tree.tree.since (pre ++ start) with
  | nil => exact ⟨rfl, by simp⟩
  | cons x rest =>
    have inside : x ∈ tree.tree.since (pre ++ start) := by simp [since]
    have member := (List.mem_filter.mp inside).1
    refine ⟨?_, fun _ => ⟨x.1, x.2, rfl, member⟩⟩
    change tree.tree.since x.1 = x :: rest
    rw [Tree.since_of_mem tree.ordered member, ← Tree.since_tail tree.ordered since]

theorem init_spec (tree : Modified) {m : Contents} {pre start : Bytes}
    {pairs : List (Bytes × Bytes)} (listing : m.Listing pre start pairs) :
    (fresh tree pairs pre start).init.Valid ∧
    ∀ k v, (fresh tree pairs pre start).init.Live k v ↔
      ((tree.tree.find k).getD (m k) = some v ∧ pre <+: k ∧ pre ++ start ≤ k) := by
  obtain ⟨rest, node⟩ := init_treeRest tree pairs pre start
  have parent : (fresh tree pairs pre start).init.parentRest = pairs := parentRest_next ⟨none, pairs⟩
  have since : ∀ x ∈ tree.tree.since (pre ++ start), pre ++ start ≤ x.1 := fun x inside => by
    simpa using (List.mem_filter.mp inside).2
  refine ⟨⟨node, ?_, ?_, ?_, nofun, nofun⟩, fun k v => ?_⟩
  · rw [parent]
    exact listing.ascending
  · rw [parent]
    exact fun x inside => ((listing.mem x.1 x.2).mp inside).2.1
  · rw [rest]
    exact fun x inside => (le_of_prefixed (List.prefix_append pre start)).trans (since x inside)
  · constructor
    · intro live
      have stored := live.stored
      rw [rest, parent] at stored
      rcases stored with inTree | ⟨free, inParent⟩
      · rw [(Tree.find_eq_some tree.ordered).mpr (List.mem_filter.mp inTree).1]
        exact ⟨rfl, live.prefixed, since _ inTree⟩
      · obtain ⟨value, prefixed, le⟩ := (listing.mem k v).mp inParent
        have absent : tree.tree.find k = none :=
          (Tree.find_eq_none tree.ordered).mpr fun x inside same =>
            free x (List.mem_filter.mpr ⟨inside, by simpa [same] using le⟩) same
        rw [absent]
        exact ⟨value, prefixed, le⟩
    · rintro ⟨value, prefixed, le⟩
      refine ⟨prefixed, nofun, ?_⟩
      rw [rest, parent]
      cases found : tree.tree.find k with
      | some entry =>
        rw [found] at value
        have inside := (Tree.find_eq_some tree.ordered).mp found
        exact .inl (List.mem_filter.mpr ⟨value ▸ inside, by simpa using le⟩)
      | none =>
        rw [found] at value
        refine .inr ⟨fun x inside => ?_, (listing.mem k v).mpr ⟨value, prefixed, le⟩⟩
        exact (Tree.find_eq_none tree.ordered).mp found x (List.mem_filter.mp inside).1

end FlushableIterator

end Lachesis.Kvdb
