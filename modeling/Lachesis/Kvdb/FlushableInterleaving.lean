import Lachesis.Kvdb.Snapshots
import Lachesis.Library.Transition

/-!
An iterator of a flushable while the flushable is written. `Next` and the writes exclude each
other by the lock. The iterator walks the nodes of the tree it was created on: `Put` keeps
them, wherever it moves them, and `Clear` detaches them as they are.
-/

namespace Lachesis.Kvdb

open SearchTree Transition

namespace FlushableIterator

section Frame

variable {it it' : FlushableIterator}

structure Frame (it : FlushableIterator) (result : Bool × FlushableIterator) : Prop where
  tree : result.2.tree = it.tree
  pre : result.2.pre = it.pre
  yielded : result.1 = true → result.2.prevKey = some result.2.key

theorem treeStep_frame (node : Bytes) (val : Option Bytes) : Frame it (it.treeStep node val) := by
  cases val with
  | none => exact ⟨by simp [treeStep], by simp [treeStep], fun wrong => (nomatch wrong)⟩
  | some val =>
    rcases suitable : it.isSuitable node with ⟨ok, going⟩
    cases ok with
    | true => exact ⟨by simp [treeStep, suitable, yield], by simp [treeStep, suitable, yield],
        fun _ => by simp [treeStep, suitable, yield]⟩
    | false => exact ⟨by simp [treeStep, suitable], by simp [treeStep, suitable],
        fun wrong => by simp [treeStep, suitable] at wrong⟩

theorem Frame.trans {result : Bool × FlushableIterator} (first : Frame it (false, it'))
    (second : Frame it' result) : Frame it result :=
  ⟨second.tree.trans first.tree, second.pre.trans first.pre, second.yielded⟩

theorem Frame.refl (it : FlushableIterator) : Frame it (false, it) :=
  ⟨rfl, rfl, fun wrong => (nomatch wrong)⟩

theorem scanTree_frame (fuel : Nat) (it : FlushableIterator) : Frame it (it.scanTree fuel) := by
  induction fuel generalizing it with
  | zero => exact .refl it
  | succ fuel ih =>
    rw [scanTree]
    dsimp only
    split
    · have step := @treeStep_frame it (castToPair it.tree it.treeNode).1
        (castToPair it.tree it.treeNode).2
      generalize it.treeStep _ _ = result at step ⊢
      obtain ⟨_ | _, it'⟩ := result
      · exact step.trans (ih it')
      · exact step
    · exact .refl it

theorem parentStep_frame (it : FlushableIterator) : Frame it it.parentStep := by
  rcases suitable : it.isSuitable it.parentIt.pair.1 with ⟨ok, going⟩
  cases ok <;> cases going <;> refine ⟨?_, ?_, ?_⟩ <;> simp [parentStep, suitable, yield]

theorem scan_frame (fuel : Nat) (it : FlushableIterator) : Frame it (it.scan fuel) := by
  induction fuel generalizing it with
  | zero => exact .refl it
  | succ fuel ih =>
    rw [scan]
    split
    · have tree := scanTree_frame (it.tree.toList.length + 1) it
      generalize it.scanTree _ = result at tree ⊢
      obtain ⟨_ | _, it'⟩ := result
      · dsimp only
        split
        · have parent := parentStep_frame it'
          generalize it'.parentStep = result at parent ⊢
          obtain ⟨_ | _, it''⟩ := result
          · exact tree.trans (parent.trans (ih it''))
          · exact tree.trans parent
        · exact tree.trans (ih it')
      · exact tree
    · exact .refl it

theorem next_frame (it : FlushableIterator) : Frame it it.next := scan_frame _ it

end Frame

section Retree

variable {it : FlushableIterator} {tree : Modified}

theorem mem_treeRest {k : Bytes} {e : Option Bytes} : (k, e) ∈ it.treeRest ↔
    it.treeOk = true ∧ ∃ node, it.treeNode = some node ∧ node ≤ k ∧
      it.tree.tree.find k = some e := by
  rw [treeRest]
  cases it.treeOk with
  | false => simp
  | true =>
    cases it.treeNode with
    | none => simp
    | some node => simp [Tree.since, Tree.find_eq_some it.tree.ordered, and_comm]

def Keeps (before after : Modified) : Prop :=
  ∀ k v, before.tree.find k = some v → ∃ v', after.tree.find k = some v'

theorem Valid.retree (valid : it.Valid) (keeps : Keeps it.tree tree) :
    ({ it with tree := tree } : FlushableIterator).Valid := by
  -- what follows in the new tree follows the node the iterator is at
  have above : ∀ x ∈ ({ it with tree := tree } : FlushableIterator).treeRest,
      ∃ y ∈ it.treeRest, y.1 ≤ x.1 := by
    intro x inside
    obtain ⟨treeOk, node, at_, le, _⟩ := mem_treeRest.mp inside
    obtain ⟨node', val, at_', member⟩ := valid.node treeOk
    cases at_.symm.trans at_'
    exact ⟨(node, val), mem_treeRest.mpr
      ⟨treeOk, node, at_, le_rfl, (Tree.find_eq_some it.tree.ordered).mpr member⟩, le⟩
  constructor
  · intro treeOk
    obtain ⟨node, val, at_, member⟩ := valid.node treeOk
    obtain ⟨val', found⟩ := keeps node val ((Tree.find_eq_some it.tree.ordered).mpr member)
    exact ⟨node, val', at_, (Tree.find_eq_some tree.ordered).mp found⟩
  · exact valid.ascending
  · exact valid.prefixed
  · intro x inside
    obtain ⟨y, member, le⟩ := above x inside
    exact (valid.after y member).trans le
  · intro prev was x inside
    obtain ⟨y, member, le⟩ := above x inside
    exact (valid.treeAhead prev was y member).trans_le le
  · exact valid.parentAhead

theorem Live.retree {k v : Bytes} (live : it.Live k v)
    (same : tree.tree.find k = it.tree.tree.find k) :
    ({ it with tree := tree } : FlushableIterator).Live k v := by
  have entries : ∀ e, (k, e) ∈ ({ it with tree := tree } : FlushableIterator).treeRest ↔
      (k, e) ∈ it.treeRest := by
    intro e
    rw [mem_treeRest, mem_treeRest, same]
  refine ⟨live.prefixed, live.ahead, ?_⟩
  refine live.stored.imp (entries _).mpr fun ⟨free, inParent⟩ => ⟨?_, inParent⟩
  rintro ⟨k', e⟩ inside rfl
  exact free _ ((entries e).mp inside) rfl

end Retree

end FlushableIterator

open FlushableIterator

namespace Flushable

def Call.Touches (k : Bytes) : Call → Prop
  | .put key _ => key = k
  | .delete key => key = k
  | .write writes => ∃ kv ∈ writes, kv.key = k
  | _ => False

variable {S : Type} {store : Store S} {map : ReadMap store}
  {putting : Putting Bytes (Option Bytes)} {w : Flushable S} {tree : Modified}

structure Written (touches : Bytes → Prop) (before after : Modified) : Prop where
  keeps : Keeps before after
  same : ∀ k, ¬ touches k → after.tree.find k = before.tree.find k

theorem written_put (tree : Modified) (kv : Write) :
    Written (fun k => kv.key = k) tree (putting.put tree kv.key kv.value) := by
  constructor
  · intro k v found
    rw [Putting.find_put]
    split
    · exact ⟨_, rfl⟩
    · exact ⟨v, found⟩
  · intro k other
    rw [Putting.find_put, if_neg (Ne.symm other)]

theorem modifyAll_written (writes : List Write) : ∀ {w : Flushable S} {tree : Modified},
    w.Opened map tree → ∃ w' tree', writes.foldlM (fun w kv => w.modify putting kv) w = .ok w' ∧
      w'.Opened map tree' ∧ Written (fun k => ∃ kv ∈ writes, kv.key = k) tree tree' := by
  induction writes with
  | nil =>
    intro w tree opened
    exact ⟨w, tree, rfl, opened, fun k v found => ⟨v, found⟩, fun _ _ => rfl⟩
  | cons kv rest ih =>
    intro w tree opened
    obtain ⟨w₁, done, _, opened₁, _⟩ := modify_opened putting opened kv
    obtain ⟨w₂, tree₂, later, opened₂, written⟩ := ih opened₁
    have first := @written_put putting tree kv
    refine ⟨w₂, tree₂, ?_, opened₂, ?_, ?_⟩
    · rw [List.foldlM_cons, done]
      exact later
    · intro k v found
      obtain ⟨v₁, found₁⟩ := first.keeps k v found
      exact written.keeps k v₁ found₁
    · intro k free
      rw [written.same k fun ⟨x, inside, eq⟩ => free ⟨x, List.mem_cons_of_mem _ inside, eq⟩]
      exact first.same k fun eq => free ⟨kv, List.mem_cons_self, eq⟩

end Flushable

open Flushable

/-- A flushable and one of its iterators. The iterator is attached as long as its nodes are
those of the tree in use. -/
structure Iterating (S : Type) where
  db : Flushable S
  it : FlushableIterator
  attached : Bool
  ended : Bool

namespace Iterating

inductive Act where
  | next
  | call (call : Call)

def Act.Touches (k : Bytes) : Act → Prop
  | .next => False
  | .call made => made.Touches k

variable {S : Type} (store : Store S) (putting : Putting Bytes (Option Bytes))

def follow (s : Iterating S) (db : Flushable S) : Iterating S :=
  { s with
    db := db
    it := match s.attached, db.modified with
      | true, some tree => { s.it with tree := tree }
      | _, _ => s.it }

def step (s : Iterating S) : Act → Option (Iterating S)
  | .next =>
    if s.ended then none
    else some { s with it := s.it.next.2, ended := !s.it.next.1 }
  | .call (.flush fault) =>
    match s.db.flushFaulty store fault with
    | (some _, db) => some { s with db := db }
    | (none, db) => some { s with db := db, attached := false }
  | .call .dropNotFlushed =>
    some { s with db := Call.dropNotFlushed.after store putting s.db, attached := false }
  | .call call => some (s.follow (call.after store putting s.db))

def yields (s : Iterating S) : Act → List (Bytes × Bytes)
  | .next => if s.it.next.1 then [(s.it.next.2.key, s.it.next.2.val)] else []
  | .call _ => []

section Runs

variable {store} {putting} {map : OrderedMap store} {s t : Iterating S} {tree : Modified}

variable {w : Flushable S} {made : Call} {v k : Bytes} {a : Act}

theorem flushFaulty_opened (opened : w.Opened map.toReadMap tree) (fault : Nat → Option Fault) :
    ∃ tree', (w.flushFaulty store fault).2.Opened map.toReadMap tree' ∧
      ((w.flushFaulty store fault).1 ≠ none → tree' = tree) := by
  have applied := @flushLoop_applied _ store fault map tree.toList 0 _ [] opened.1
  rw [flushFaulty, opened.2]
  dsimp only
  generalize flushLoop store fault 0 w.underlying [] tree.toList = result at applied ⊢
  obtain ⟨_ | err, u⟩ := result
  · exact ⟨.empty, ⟨applied.valid, rfl⟩, fun wrong => absurd rfl wrong⟩
  · exact ⟨tree, ⟨applied.valid, rfl⟩, fun _ => rfl⟩

structure Called (map : OrderedMap store) (made : Call) (s t : Iterating S) : Prop where
  opened : ∃ tree, t.db.Opened map.toReadMap tree ∧ (t.attached = true → t.it.tree = tree)
  ended : t.ended = s.ended
  it : t.it = s.it ∨ ∃ tree, t.it = { s.it with tree := tree } ∧
    Written (fun k => made.Touches k) s.it.tree tree

theorem called_follow {tree' : Modified} (attached : s.attached = true → s.it.tree = tree)
    {db : Flushable S} (opened : db.Opened map.toReadMap tree')
    (written : Written (fun k => made.Touches k) tree tree') : Called map made s (s.follow db) := by
  cases here : s.attached with
  | true =>
    have it : (s.follow db).it = { s.it with tree := tree' } := by
      simp only [follow, here, opened.2]
    refine ⟨⟨tree', opened, fun _ => by rw [it]⟩, rfl, .inr ⟨tree', it, ?_⟩⟩
    rw [attached here]
    exact written
  | false =>
    have it : (s.follow db).it = s.it := by simp only [follow, here]
    exact ⟨⟨tree', opened, fun wrong => absurd (here.symm.trans wrong) (by simp)⟩, rfl, .inl it⟩

theorem step_call (opened : s.db.Opened map.toReadMap tree)
    (attached : s.attached = true → s.it.tree = tree)
    (move : step store putting s (.call made) = some t) : Called map made s t := by
  have one : ∀ (kv : Write), ∃ w', s.db.modify putting kv = .ok w' ∧
      w'.Opened map.toReadMap (putting.put tree kv.key kv.value) := by
    intro kv
    obtain ⟨w', done, _, after, _⟩ := modify_opened putting opened kv
    exact ⟨w', done, after⟩
  cases made with
  | put key value =>
    obtain ⟨w', done, after⟩ := one ⟨key, some value⟩
    have result : (Call.put key value).after store putting s.db = w' := by
      rw [Call.after, show s.db.put putting (some key) (some value) = .ok w' from done]
      rfl
    cases move
    rw [result]
    exact called_follow attached after (written_put tree ⟨key, some value⟩)
  | delete key =>
    obtain ⟨w', done, after⟩ := one ⟨key, none⟩
    have result : (Call.delete key).after store putting s.db = w' := by
      rw [Call.after, show s.db.delete putting key = .ok w' from done]
      rfl
    cases move
    rw [result]
    exact called_follow attached after (written_put tree ⟨key, none⟩)
  | write writes =>
    obtain ⟨w', tree', done, after, written⟩ := @modifyAll_written _ _ _ putting writes _ _ opened
    have result : (Call.write writes).after store putting s.db = w' := by
      rw [Call.after, Flushable.write, opened.2]
      exact congrArg (fun result => result.toOption.getD s.db) done
    cases move
    rw [result]
    exact called_follow attached after written
  | flush fault =>
    obtain ⟨tree', after, failed⟩ := flushFaulty_opened opened fault
    simp only [step] at move
    split at move
    · next err db eq =>
      rw [eq] at after failed
      cases move
      refine ⟨⟨tree', after, fun here => ?_⟩, rfl, .inl rfl⟩
      rw [failed (by simp)]
      exact attached here
    · next db eq =>
      rw [eq] at after
      cases move
      exact ⟨⟨tree', after, by simp⟩, rfl, .inl rfl⟩
  | dropNotFlushed =>
    cases move
    refine ⟨⟨.empty, ?_, by simp⟩, rfl, .inl rfl⟩
    change Opened _ (Call.after store putting s.db .dropNotFlushed) _
    rw [Call.after, dropNotFlushed, opened.2]
    exact ⟨opened.1, rfl⟩

/-- What was yielded ascends up to the last key, and the iterator can go on. -/
structure Ascending (map : OrderedMap store) (pre : Bytes) (s : Iterating S)
    (out : List (Bytes × Bytes)) : Prop where
  opened : ∃ tree, s.db.Opened map.toReadMap tree ∧ (s.attached = true → s.it.tree = tree)
  valid : s.ended = false → s.it.Valid
  asked : s.it.pre = pre
  ascending : out.Pairwise fun a b => a.1 < b.1
  last : s.ended = false → ∀ x ∈ out, ∃ prev, s.it.prevKey = some prev ∧ x.1 ≤ prev
  prefixed : ∀ x ∈ out, pre <+: x.1

def Due (k v : Bytes) (s : Iterating S) (out : List (Bytes × Bytes)) : Prop :=
  (k, v) ∈ out ∨ s.ended = false ∧ s.it.Live k v

variable {pre : Bytes} {out : List (Bytes × Bytes)}

theorem ascending_call (ascending : Ascending map pre s out)
    (move : step store putting s (.call made) = some t) : Ascending map pre t out := by
  obtain ⟨tree, opened, attached⟩ := ascending.opened
  have called := step_call opened attached move
  rcases called.it with same | ⟨tree', it, written⟩
  · refine ⟨called.opened, ?_, ?_, ascending.ascending, ?_, ascending.prefixed⟩
    · rw [called.ended, same]
      exact ascending.valid
    · rw [same]
      exact ascending.asked
    · rw [called.ended, same]
      exact ascending.last
  · refine ⟨called.opened, ?_, ?_, ascending.ascending, ?_, ascending.prefixed⟩
    · rw [called.ended, it]
      exact fun going => (ascending.valid going).retree written.keeps
    · rw [it]
      exact ascending.asked
    · rw [called.ended, it]
      exact ascending.last

theorem due_call (ascending : Ascending map pre s out) (due : Due k v s out)
    (untouched : ¬ made.Touches k) (move : step store putting s (.call made) = some t) :
    Due k v t out := by
  obtain ⟨tree, opened, attached⟩ := ascending.opened
  have called := step_call opened attached move
  refine due.imp_right fun ⟨going, live⟩ => ⟨called.ended.trans going, ?_⟩
  rcases called.it with same | ⟨tree', it, written⟩
  · rw [same]
    exact live
  · rw [it]
    exact live.retree (written.same k untouched)

theorem ascending_next (ascending : Ascending map pre s out)
    (move : step store putting s .next = some t) :
    Ascending map pre t (out ++ s.yields .next) ∧
    ∀ k v, Due k v s out → Due k v t (out ++ s.yields .next) := by
  cases ended : s.ended with
  | true => simp [step, ended] at move
  | false =>
    have next : t = { s with it := s.it.next.2, ended := !s.it.next.1 } := by
      simpa [step, ended] using move.symm
    have frame := next_frame s.it
    have outcome := next_spec (ascending.valid ended)
    have opened : ∃ tree, s.db.Opened map.toReadMap tree ∧
        (s.attached = true → s.it.next.2.tree = tree) := by
      rw [frame.tree]
      exact ascending.opened
    rw [yields, next]
    generalize s.it.next = result at frame outcome opened ⊢
    obtain ⟨_ | _, it'⟩ := result
    · rw [if_neg (by simp), List.append_nil]
      refine ⟨⟨opened, fun wrong => (nomatch wrong), frame.pre.trans ascending.asked,
        ascending.ascending, fun wrong => (nomatch wrong), ascending.prefixed⟩, fun k v due => ?_⟩
      exact .inl (due.resolve_right fun ⟨_, live⟩ => outcome k v live)
    · rw [if_pos rfl]
      have live : s.it.Live it'.key it'.val := (outcome.live _ _).mpr (.inl ⟨rfl, rfl⟩)
      have last : it'.prevKey = some it'.key := frame.yielded rfl
      have lower : ∀ x ∈ out, x.1 < it'.key := by
        intro x inside
        obtain ⟨prev, was, le⟩ := ascending.last ended x inside
        exact le.trans_lt (live.ahead prev was)
      refine ⟨⟨opened, fun _ => outcome.valid, frame.pre.trans ascending.asked, ?_, ?_, ?_⟩,
        fun k v due => ?_⟩
      · rw [List.pairwise_append]
        refine ⟨ascending.ascending, List.pairwise_singleton .., fun x inside y here => ?_⟩
        rw [List.mem_singleton.mp here]
        exact lower x inside
      · grind
      · intro x inside
        rcases List.mem_append.mp inside with old | here
        · exact ascending.prefixed x old
        · rw [List.mem_singleton.mp here, ← ascending.asked]
          exact live.prefixed
      · rcases due with old | ⟨_, live⟩
        · exact .inl (List.mem_append_left _ old)
        · rcases (outcome.live k v).mp live with ⟨rfl, rfl⟩ | later
          · exact .inl (List.mem_append_right _ List.mem_cons_self)
          · exact .inr ⟨rfl, later⟩

theorem ascending_step (ascending : Ascending map pre s out)
    (move : step store putting s a = some t) : Ascending map pre t (out ++ s.yields a) := by
  cases a with
  | next => exact (ascending_next ascending move).1
  | call made =>
    rw [yields, List.append_nil]
    exact ascending_call ascending move

theorem due_step (ascending : Ascending map pre s out) (due : Due k v s out)
    (untouched : ¬ a.Touches k) (move : step store putting s a = some t) :
    Due k v t (out ++ s.yields a) := by
  cases a with
  | next => exact (ascending_next ascending move).2 k v due
  | call made =>
    rw [yields, List.append_nil]
    exact due_call ascending due untouched move

theorem filter_key (ascending : out.Pairwise fun a b => a.1 < b.1) (member : (k, v) ∈ out) :
    out.filter (fun x => x.1 = k) = [(k, v)] := by
  induction out with
  | nil => cases member
  | cons first rest ih =>
    obtain ⟨higher, ascending⟩ := List.pairwise_cons.mp ascending
    rcases List.mem_cons.mp member with rfl | later
    · have others : rest.filter (fun x => x.1 = k) = [] := by
        rw [List.filter_eq_nil_iff]
        intro x inside
        simpa using (higher x inside).ne'
      rw [List.filter_cons_of_pos (by simp), others]
    · grind

theorem created_spec (opened : w.Opened map.toReadMap tree) {start : Bytes} {it : FlushableIterator}
    (created : w.iterator store pre start = .ok it) : Ascending map pre ⟨w, it, true, false⟩ [] ∧
    ∀ k v, w.contents map.toReadMap k = some v → pre <+: k → pre ++ start ≤ k →
      Due k v (⟨w, it, true, false⟩ : Iterating S) [] := by
  obtain ⟨parents, found, listing⟩ := map.newIterator opened.1 pre start
  obtain ⟨valid, live⟩ := FlushableIterator.init_spec tree listing
  have fresh : it = (FlushableIterator.fresh tree parents pre start).init := by
    simp only [iterator, opened.2, found] at created
    exact (Except.ok.inj created).symm
  subst fresh
  refine ⟨⟨⟨tree, opened, fun _ => rfl⟩, fun _ => valid, rfl, .nil, by simp, by simp⟩, ?_⟩
  intro k v shown prefixed le
  rw [contents_opened opened] at shown
  exact .inr ⟨rfl, (live k v).mpr ⟨shown, prefixed, le⟩⟩

end Runs

/-- However the calls of `Next` and the calls on the flushable interleave, the keys that are yielded
ascend, and every key of the range that was there all the time is yielded once, with its value. -/
theorem iteration_stable {store : Store S} (map : OrderedMap store)
    (putting : Putting Bytes (Option Bytes)) {w : Flushable S} {tree : Modified}
    (opened : w.Opened map.toReadMap tree) {pre start : Bytes} {it : FlushableIterator}
    (created : w.iterator store pre start = .ok it) {acts : List Act} {s : Iterating S}
    (run : Run (step store putting) (fun _ _ => True) ⟨w, it, true, false⟩ acts s) :
    let out := emitted (step store putting) yields ⟨w, it, true, false⟩ acts
    (out.Pairwise fun a b => a.1 < b.1) ∧ (∀ x ∈ out, pre <+: x.1) ∧
    (s.ended = true → ∀ k v, w.contents map.toReadMap k = some v → pre <+: k →
      pre ++ start ≤ k → (∀ a ∈ acts, ¬ a.Touches k) → out.filter (fun x => x.1 = k) = [(k, v)]) := by
  intro out
  obtain ⟨ready, due⟩ := created_spec opened created
  have ascending := @Run.emits _ _ (step store putting) _ _ yields (Ascending map pre)
    (fun _ _ _ _ ascending _ move => ascending_step ascending move) _ _ _ [] ready run
  refine ⟨ascending.ascending, ascending.prefixed, ?_⟩
  intro ended k v shown prefixed le untouched
  have both := @Run.emits _ _ (step store putting) _ _ yields
    (fun s out => Ascending map pre s out ∧ Due k v s out)
    (fun _ _ _ _ inv free move =>
      ⟨ascending_step inv.1 move, due_step inv.1 inv.2 free move⟩)
    _ _ _ [] ⟨ready, due k v shown prefixed le⟩ (run.restrict untouched)
  apply filter_key ascending.ascending
  exact both.2.resolve_right fun ⟨going, _⟩ => absurd (ended.symm.trans going) (by simp)

section Sample

def twoTree : Modified :=
  (Putting.plain _ _).put ((Putting.plain _ _).put .empty [1] (some [2])) [5] (some [6])

def twoPairs : Flushable (Flushable Unit) :=
  ⟨.wrap (), some twoTree, 260⟩

def twoPairsIterator : FlushableIterator :=
  (FlushableIterator.fresh twoTree [] [] []).init

def interleaved : List Act :=
  [.next, .call (.put [3] [4]), .call (.flush fun _ => none), .next, .call (.delete [1]), .next]

end Sample

theorem iteration_stable_twoPairs : ∃ s : Iterating (Flushable Unit),
    twoPairs.iterator memorydb [] [] = .ok twoPairsIterator ∧
    Run (step memorydb (.plain _ _)) (fun _ _ => True) ⟨twoPairs, twoPairsIterator, true, false⟩
      interleaved s ∧ s.ended = true ∧
    (emitted (step memorydb (.plain _ _)) yields ⟨twoPairs, twoPairsIterator, true, false⟩
      interleaved).filter (fun x => x.1 = [5]) = [([5], [6])] := by
  have run : Run (step memorydb (.plain _ _)) (fun _ _ => True)
      ⟨twoPairs, twoPairsIterator, true, false⟩ interleaved _ :=
    .of_foldlM (fun _ _ _ => trivial) rfl
  have created : twoPairs.iterator memorydb [] [] = .ok twoPairsIterator := rfl
  have stable := iteration_stable memorydb.orderedMap (.plain _ _)
    (w := twoPairs) ⟨⟨.empty, trivial, rfl⟩, rfl⟩ created run
  exact ⟨_, created, run, rfl, stable.2.2 rfl [5] [6] rfl (by decide) (by decide) (by
    simp [interleaved, Act.Touches, Call.Touches])⟩

end Iterating

end Lachesis.Kvdb
