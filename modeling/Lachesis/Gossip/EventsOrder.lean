import Lachesis.Gossip.EventsBuffer
import Lachesis.Library.Triples
import Lachesis.Graph

/-!
The buffer connects what it can. A push changes the buffer piece by piece; after it, no
event is buffered whose parents are all known. While nothing fails and nothing is spilled,
every event of a parent-closed set is thus checked and processed once, after its parents.
-/

namespace Lachesis.Gossip.Dagordering

open Dag Simplewlru Triples

variable {World Err : Type}

/-- `Get` and `Exists` tell what was processed successfully, and nothing else. -/
structure Callback.Reflects (callback : Callback World Err) : Prop where
  known : ∀ w id, callback.existsEvent w id = (callback.get w id).isSome
  processed : ∀ w e w', callback.process w e = (none, w') →
    ∀ id, callback.get w' id = if id = e.id then some e else callback.get w id
  failed : ∀ w e err w', callback.process w e = (some err, w') → callback.get w' = callback.get w
  checked : ∀ check, callback.check = some check →
    ∀ w e parents, callback.get (check w e parents).2 = callback.get w
  released : ∀ released, callback.released = some released →
    ∀ w e peer err, callback.get (released w e peer err) = callback.get w

structure Callback.NeverFails (callback : Callback World Err) : Prop where
  process : ∀ w e, (callback.process w e).1 = none
  check : ∀ check, callback.check = some check → ∀ w e parents, (check w e parents).1 = none

namespace EventsBuffer

def buffered (s : EventsBuffer World Err) : List Pushed := s.incompletes.evictList.map Entry.value

structure Keyed (s : EventsBuffer World Err) : Prop where
  key : ∀ ent ∈ s.incompletes.evictList, ent.key = ent.value.event.id
  nodup : s.incompletes.keys.Nodup

@[simp] theorem dropEvent_incompletes (s : EventsBuffer World Err) (e : Pushed)
    (err : DropError Err) : (s.dropEvent e err).incompletes = s.incompletes := by
  unfold dropEvent
  split <;> rfl

@[simp] theorem dropEvent_world (s : EventsBuffer World Err) (e : Pushed)
    (err : DropError Err) : (s.dropEvent e err).world = s.world := by
  unfold dropEvent
  split <;> rfl

@[simp] theorem dropEvent_calls (s : EventsBuffer World Err) (e : Pushed)
    (err : DropError Err) : (s.dropEvent e err).calls = s.calls := by
  unfold dropEvent
  split <;> rfl

variable {callback : Callback World Err}

@[simp] theorem releaseEvent_incompletes (s : EventsBuffer World Err) (e : Pushed) :
    (releaseEvent callback s e).incompletes = s.incompletes := by
  dsimp only [releaseEvent]
  split <;> rfl

theorem releaseEvent_calls (s : EventsBuffer World Err) (e : Pushed) :
    ∃ tail, (releaseEvent callback s e).calls = s.calls ++ tail ∧
      ∀ call ∈ tail, ∃ err, call = .released e err := by
  dsimp only [releaseEvent]
  split
  · exact ⟨[.released e (s.marks e.serial).err], rfl, by simp⟩
  · exact ⟨[], by simp, by simp⟩

theorem releaseEvent_get (reflects : callback.Reflects) (s : EventsBuffer World Err) (e : Pushed) :
    callback.get (releaseEvent callback s e).world = callback.get s.world := by
  dsimp only [releaseEvent]
  split
  · next _ _ released given _ => exact reflects.released released given ..
  · rfl

variable {p e : Pushed} {s t u : EventsBuffer World Err} {id : EventID} {parents : List Event}
  {push : Pushed → EventsBuffer World Err → Except Halt (Bool × EventsBuffer World Err)}
  {list : List Pushed} {ent : Entry EventID Pushed}

theorem mem_buffered_remove (keyed : s.Keyed) :
    p ∈ (s.remove id).buffered ↔ p ∈ s.buffered ∧ p.event.id ≠ id := by
  simp only [buffered, remove, Cache.remove, List.mem_map, List.mem_filter, decide_eq_true_eq]
  constructor
  · rintro ⟨ent, ⟨inside, other⟩, rfl⟩
    exact ⟨⟨ent, inside, rfl⟩, keyed.key ent inside ▸ other⟩
  · rintro ⟨⟨ent, inside, rfl⟩, other⟩
    exact ⟨ent, ⟨inside, (keyed.key ent inside).symm ▸ other⟩, rfl⟩

theorem checkEvent_spec (reflects : callback.Reflects) (s : EventsBuffer World Err) (e : Pushed)
    (parents : List Event) :
    (checkEvent callback s e parents).2.incompletes = s.incompletes ∧
    callback.get (checkEvent callback s e parents).2.world = callback.get s.world ∧
    (checkEvent callback s e parents).2.calls =
      s.calls ++ if callback.check.isSome then [.check e] else [] := by
  unfold checkEvent
  split
  · next absent => simp [absent]
  · next check given => exact ⟨rfl, reflects.checked check given .., by simp [given]⟩

theorem processCompleteEvent_ok (reflects : callback.Reflects)
    (run : processCompleteEvent callback s e parents = (true, t)) : t.incompletes = s.incompletes ∧
    (∀ id, callback.get t.world id = if id = e.event.id then some e.event else
      callback.get s.world id) ∧
    t.calls = s.calls ++ (if callback.check.isSome then [.check e] else []) ++ [.process e] := by
  have spec := checkEvent_spec reflects s e parents
  unfold processCompleteEvent at run
  generalize checkEvent callback s e parents = checked at spec run
  obtain ⟨_ | err, mid⟩ := checked
  · obtain ⟨same, get, calls⟩ := spec
    dsimp only at same get calls run
    generalize given : callback.process mid.world e.event = result at run
    obtain ⟨_ | err, world⟩ := result
    · cases run
      refine ⟨same, fun id => ?_, by rw [calls]⟩
      rw [reflects.processed _ _ _ given, get]
    · cases run
  · cases run

theorem processCompleteEvent_failed (reflects : callback.Reflects)
    (run : processCompleteEvent callback s e parents = (false, t)) :
    t.incompletes = s.incompletes ∧ callback.get t.world = callback.get s.world := by
  obtain ⟨same, get, _⟩ := checkEvent_spec reflects s e parents
  unfold processCompleteEvent at run
  generalize checkEvent callback s e parents = checked at same get run
  obtain ⟨_ | err, mid⟩ := checked
  · dsimp only at same get run
    generalize given : callback.process mid.world e.event = result at run
    obtain ⟨_ | err, world⟩ := result
    · cases run
    · cases run
      exact ⟨by simpa using same, by simpa using (reflects.failed _ _ _ _ given).trans get⟩
  · cases run
    exact ⟨by simpa using same, by simpa using get⟩

inductive Piece (callback : Callback World Err) (from_ : Pushed → Prop) :
    EventsBuffer World Err → EventsBuffer World Err → Prop where
  | release (s : EventsBuffer World Err) (e : Pushed) :
      Piece callback from_ s (releaseEvent callback s e)
  | drop (s : EventsBuffer World Err) (e : Pushed) (err : DropError Err) :
      Piece callback from_ s (s.dropEvent e err)
  | forget {s : EventsBuffer World Err} {id : EventID} (known : callback.get s.world id ≠ none) :
      Piece callback from_ s (s.remove id)
  | connect {s t : EventsBuffer World Err} {e : Pushed} {parents : List Event} (origin : from_ e)
      (unknown : callback.get s.world e.event.id = none)
      (complete : completeEventParents callback s e = some parents)
      (run : processCompleteEvent callback s e parents = (true, t)) : Piece callback from_ s t
  | fail {s t : EventsBuffer World Err} {e : Pushed} {parents : List Event}
      (run : processCompleteEvent callback s e parents = (false, t)) :
      Piece callback from_ s ((releaseEvent callback t e).remove e.event.id)

abbrev Pieces (callback : Callback World Err) (from_ : Pushed → Prop) :
    EventsBuffer World Err → EventsBuffer World Err → Prop :=
  Relation.ReflTransGen (Piece callback from_)

variable {from_ : Pushed → Prop}

theorem Piece.evictList_sublist (reflects : callback.Reflects) (piece : Piece callback from_ s t) :
    t.incompletes.evictList.Sublist s.incompletes.evictList := by
  cases piece with
  | release e => rw [releaseEvent_incompletes]
  | drop e err => rw [dropEvent_incompletes]
  | forget _ => exact List.filter_sublist
  | connect _ _ _ run => rw [(processCompleteEvent_ok reflects run).1]
  | @fail mid e _ run =>
    have same : (releaseEvent callback mid e).incompletes = s.incompletes :=
      (releaseEvent_incompletes mid e).trans (processCompleteEvent_failed reflects run).1
    rw [← same]
    exact List.filter_sublist

theorem Piece.get_mono (reflects : callback.Reflects) (piece : Piece callback from_ s t)
    (known : callback.get s.world id ≠ none) : callback.get t.world id ≠ none := by
  cases piece with
  | release e => rwa [releaseEvent_get reflects]
  | drop e err => rwa [dropEvent_world]
  | forget _ => exact known
  | connect _ _ _ run =>
    rw [(processCompleteEvent_ok reflects run).2.1]
    split
    · exact Option.some_ne_none _
    · exact known
  | @fail mid e _ run =>
    change callback.get (releaseEvent callback mid e).world id ≠ none
    rwa [releaseEvent_get reflects, (processCompleteEvent_failed reflects run).2]

theorem Pieces.evictList_sublist (reflects : callback.Reflects) (pieces : Pieces callback from_ s t) :
    t.incompletes.evictList.Sublist s.incompletes.evictList := by
  induction pieces with
  | refl => exact .refl _
  | tail _ piece ih => exact (piece.evictList_sublist reflects).trans ih

theorem Pieces.get_mono (reflects : callback.Reflects) (pieces : Pieces callback from_ s t)
    (known : callback.get s.world id ≠ none) : callback.get t.world id ≠ none := by
  induction pieces with
  | refl => exact known
  | tail _ piece ih => exact piece.get_mono reflects ih

theorem Keyed.sublist (keyed : s.Keyed)
    (fewer : t.incompletes.evictList.Sublist s.incompletes.evictList) : t.Keyed where
  key ent inside := keyed.key ent (fewer.subset inside)
  nodup := (fewer.map Entry.key).nodup keyed.nodup

theorem mapM_eq_none {A B : Type} (f : A → Option B) :
    ∀ items : List A, items.mapM f = none ↔ ∃ x ∈ items, f x = none := by
  intro items
  induction items with
  | nil => simp
  | cons x rest ih =>
    rw [List.mapM_cons]
    cases head : f x with
    | none => simp [head]
    | some b =>
      cases tail : rest.mapM f with
      | none => simpa [tail] using .inr (ih.mp tail)
      | some bs => simpa [head, tail] using ih

theorem completeEventParents_none : completeEventParents callback s e = none ↔
      ∃ p ∈ e.event.parents, callback.get s.world p = none :=
  mapM_eq_none _ _

theorem visitChildren_invariant {Inv : EventsBuffer World Err → Prop} (id : EventID) :
    ∀ (list : List Pushed) (s : EventsBuffer World Err),
    (∀ child ∈ list, ∀ u, Inv u → Ensures (push child u) fun r => Inv r.2) → Inv s →
      Ensures (list.foldlM (visitChild push id) s) Inv := by
  intro list
  induction list with
  | nil => exact fun s _ holds => ensures_ok holds
  | cons child rest ih =>
    intro s each holds
    have first : Ensures (visitChild push id s child) Inv := by
      unfold visitChild
      split
      · exact ensures_bind (each child List.mem_cons_self s holds) fun r later => ensures_ok later
      · exact ensures_ok holds
    rw [List.foldlM_cons]
    exact ensures_bind first fun u =>
      ih u fun child member => each child (List.mem_cons_of_mem _ member)

theorem visitChildren_pieces (id : EventID) (list : List Pushed) (s : EventsBuffer World Err)
    (each : ∀ child ∈ list, ∀ u, Ensures (push child u) fun r => Pieces callback from_ u r.2) :
    Ensures (list.foldlM (visitChild push id) s) (Pieces callback from_ s) :=
  visitChildren_invariant id list s (fun child member u sofar =>
    ensures_mono (each child member u) fun _ later => sofar.trans later) .refl

theorem pushEventInner_pieces (reflects : callback.Reflects) :
    ∀ (fuel : Nat) (e : Pushed) (list : Option (List Pushed)) (recheck : Bool)
      (s : EventsBuffer World Err), from_ e →
      (∀ child ∈ list.getD s.getIncompleteEventsList, from_ child) →
      Ensures (pushEventInner callback fuel e list recheck s) fun r =>
        Pieces callback from_ s r.2 ∨ (recheck = false ∧ callback.get s.world e.event.id = none ∧
          completeEventParents callback s e = none ∧ r.2 = s.buffer callback e) := by
  intro fuel
  induction fuel with
  | zero => exact fun _ _ _ _ _ _ => ensures_error
  | succ fuel ih =>
    intro e list recheck s origin origins
    rw [pushEventInner]
    split
    · next isKnown =>
      refine ensures_ok (.inl ?_)
      rw [reflects.known] at isKnown
      have forgotten : Pieces callback from_ s (s.remove e.event.id) :=
        .single (.forget (Option.isSome_iff_ne_none.mp isKnown))
      cases recheck with
      | true => exact forgotten.tail (.release _ e)
      | false => exact (forgotten.tail (.drop _ e _)).tail (.release _ e)
    · next notKnown =>
      rw [reflects.known, Option.not_isSome_iff_eq_none] at notKnown
      split
      · next missing =>
        refine ensures_ok ?_
        cases recheck with
        | true => exact .inl .refl
        | false => exact .inr ⟨rfl, notKnown, missing, rfl⟩
      · next parents complete =>
        split
        · next t run => exact ensures_ok (.inl (.single (.fail run)))
        · next t run =>
          have connected : Pieces callback from_ s (releaseEvent callback t e) :=
            (Relation.ReflTransGen.single (.connect origin notKnown complete run)).tail (.release t e)
          have isKnown : callback.get (releaseEvent callback t e).world e.event.id ≠ none := by
            rw [releaseEvent_get reflects, (processCompleteEvent_ok reflects run).2.1, if_pos rfl]
            exact Option.some_ne_none _
          have same : (releaseEvent callback t e).getIncompleteEventsList =
              s.getIncompleteEventsList := by
            rw [getIncompleteEventsList, releaseEvent_incompletes,
              (processCompleteEvent_ok reflects run).1]
            rfl
          simp only [same]
          have nested : ∀ child ∈ list.getD s.getIncompleteEventsList, ∀ u,
              Ensures (pushEventInner callback fuel child
                (some (list.getD s.getIncompleteEventsList)) true u)
                fun r => Pieces callback from_ u r.2 := fun child member u =>
            ensures_mono (ih child _ true u (origins child member) origins) fun r ended =>
              ended.resolve_right fun added => Bool.noConfusion added.1
          refine ensures_bind (visitChildren_pieces _ _ _ nested) fun u later =>
            ensures_ok (.inl ?_)
          exact (connected.trans later).tail (.forget (later.get_mono reflects isKnown))

theorem pushEventInner_recheck (reflects : callback.Reflects) (fuel : Nat)
    (s : EventsBuffer World Err) (origins : ∀ child ∈ list, from_ child) (listed : e ∈ list) :
    Ensures (pushEventInner callback fuel e (some list) true s) fun r => Pieces callback from_ s r.2 :=
  ensures_mono (pushEventInner_pieces reflects fuel e _ true s (origins e listed) origins) fun _ ended =>
    ended.resolve_right fun added => Bool.noConfusion added.1

def Ready (callback : Callback World Err) (s : EventsBuffer World Err) (p : Pushed) : Prop :=
  p ∈ s.buffered ∧ ∀ q ∈ p.event.parents, callback.get s.world q ≠ none

theorem Ready.of_remove (keyed : s.Keyed) (left : u.incompletes = s.incompletes.remove id)
    (get : callback.get u.world = callback.get s.world) (ready : Ready callback u p) :
    Ready callback s p ∧ p.event.id ≠ id := by
  obtain ⟨inside, known⟩ := ready
  rw [get] at known
  rw [buffered, left] at inside
  obtain ⟨before, other⟩ := (mem_buffered_remove keyed).mp inside
  exact ⟨⟨before, known⟩, other⟩

theorem known_ready (reflects : callback.Reflects) (keyed : s.Keyed) (recheck : Bool)
    (ready : Ready callback (releaseEvent callback
      (if recheck then s.remove e.event.id
        else (s.remove e.event.id).dropEvent e .alreadyConnectedEvent) e) p) :
    Ready callback s p ∧ p.event.id ≠ e.event.id := by
  refine Ready.of_remove keyed ?_ ?_ ready
  · rw [releaseEvent_incompletes]
    split
    · rfl
    · exact dropEvent_incompletes ..
  · rw [releaseEvent_get reflects]
    split
    · rfl
    · exact congrArg callback.get (dropEvent_world ..)

theorem failed_ready (reflects : callback.Reflects) (keyed : s.Keyed)
    (run : processCompleteEvent callback s e parents = (false, t))
    (ready : Ready callback ((releaseEvent callback t e).remove e.event.id) p) :
    Ready callback s p ∧ p.event.id ≠ e.event.id := by
  obtain ⟨same, get⟩ := processCompleteEvent_failed reflects run
  refine Ready.of_remove keyed ?_ ?_ ready
  · rw [remove, releaseEvent_incompletes, same]
  · exact (releaseEvent_get reflects t e).trans get

def unknown (callback : Callback World Err) (s : EventsBuffer World Err) (list : List Pushed) : Nat :=
  list.countP fun p => (callback.get s.world p.event.id).isNone

theorem unknown_mono (grows : ∀ id, callback.get s.world id ≠ none → callback.get t.world id ≠ none)
    (list : List Pushed) : unknown callback t list ≤ unknown callback s list := by
  refine List.countP_mono_left fun p _ absent => ?_
  rw [Option.isNone_iff_eq_none] at absent ⊢
  by_contra present
  exact grows _ present absent

theorem unknown_lt (grows : ∀ id, callback.get s.world id ≠ none → callback.get t.world id ≠ none)
    (listed : e ∈ list) (before : callback.get s.world e.event.id = none)
    (after : callback.get t.world e.event.id ≠ none) :
    unknown callback t list < unknown callback s list := by
  obtain ⟨left, right, rfl⟩ := List.append_of_mem listed
  have known : (callback.get t.world e.event.id).isNone = false := by
    simpa [Option.isSome_iff_ne_none] using after
  have first := unknown_mono grows left
  have second := unknown_mono grows right
  simp only [unknown] at first second
  simp only [unknown, List.countP_append, List.countP_cons, before, known, Option.isNone_none,
    ↓reduceIte, Bool.false_eq_true]
  omega

structure Visited (callback : Callback World Err) (s : EventsBuffer World Err) (id : EventID)
    (done : List Pushed) (u : EventsBuffer World Err) : Prop where
  pieces : Pieces callback (fun _ => True) s u
  ready : ∀ p, Ready callback u p → Ready callback s p ∧
    ∀ c ∈ done, id ∈ c.event.parents → p.event.id ≠ c.event.id

theorem visitChildren_settle
    (each : ∀ child ∈ list, ∀ u, Pieces callback (fun _ => True) s u →
      Yields (push child u) fun r =>
      (∀ p, Ready callback r.2 p → Ready callback u p ∧ p.event.id ≠ child.event.id) ∧
      Pieces callback (fun _ => True) u r.2)
    (id : EventID) : Yields (list.foldlM (visitChild push id) s) (Visited callback s id list) := by
  have start : Visited callback s id [] s :=
    ⟨.refl, fun p ready => ⟨ready, fun _ member => absurd member List.not_mem_nil⟩⟩
  refine yields_foldlM start fun before child after u split visited => ?_
  have grow : ∀ v, Pieces callback (fun _ => True) s v →
      (∀ p, Ready callback v p → Ready callback u p) →
      (∀ p, Ready callback v p → id ∈ child.event.parents → p.event.id ≠ child.event.id) →
      Visited callback s id ([] ++ before ++ [child]) v := by
    intro v pieces fewer settled
    refine ⟨pieces, fun p ready => ?_⟩
    obtain ⟨first, others⟩ := visited.ready p (fewer p ready)
    refine ⟨first, fun c member isChild => ?_⟩
    rcases List.mem_append.mp member with old | new
    · exact others c old isChild
    · rw [List.mem_singleton.mp new] at isChild ⊢
      exact settled p ready isChild
  unfold visitChild
  split
  · have inside : child ∈ list := by simp [split]
    refine yields_bind (each child inside u visited.pieces) fun r ended => yields_ok ?_
    exact grow r.2 (visited.pieces.trans ended.2) (fun p ready => (ended.1 p ready).1)
      fun p ready _ => (ended.1 p ready).2
  · next notChild =>
    exact yields_ok (grow u visited.pieces (fun _ ready => ready) fun _ _ isChild => absurd isChild notChild)

theorem buffered_mem_of_pieces (reflects : callback.Reflects)
    (pieces : Pieces callback (fun _ => True) s t) (inside : p ∈ t.buffered) : p ∈ s.buffered :=
  ((pieces.evictList_sublist reflects).map Entry.value).subset inside

theorem connected_ready (reflects : callback.Reflects) (keyed : s.Keyed)
    (covered : ∀ p ∈ s.buffered, p ∈ list)
    (run : processCompleteEvent callback s e parents = (true, t))
    (visited : Visited callback (releaseEvent callback t e) e.event.id list u)
    (ready : Ready callback (u.remove e.event.id) p) :
    Ready callback s p ∧ p.event.id ≠ e.event.id := by
  obtain ⟨same, get, _⟩ := processCompleteEvent_ok reflects run
  have still : (releaseEvent callback t e).incompletes = s.incompletes :=
    (releaseEvent_incompletes t e).trans same
  have keyed' : u.Keyed := by
    refine keyed.sublist ?_
    rw [← still]
    exact visited.pieces.evictList_sublist reflects
  obtain ⟨inside, other⟩ := (mem_buffered_remove keyed').mp ready.1
  obtain ⟨first, settled⟩ := visited.ready p ⟨inside, ready.2⟩
  have before : p ∈ s.buffered := by
    have member := first.1
    rwa [buffered, still] at member
  refine ⟨⟨before, fun q parent => ?_⟩, other⟩
  have notChild : e.event.id ∉ p.event.parents := fun isChild =>
    settled p (covered p before) isChild rfl
  have otherParent : q ≠ e.event.id := by
    rintro rfl
    exact notChild parent
  have known := first.2 q parent
  rwa [releaseEvent_get reflects, get, if_neg otherParent] at known

/-- A nested call comes to an end, and makes nothing ready; its own event is not any more. -/
theorem pushEventInner_settles (reflects : callback.Reflects)
    (distinct : ∀ p ∈ list, ∀ q ∈ list, p.event.id = q.event.id → p = q) :
    ∀ (fuel : Nat) (e : Pushed) (s : EventsBuffer World Err), e ∈ list → s.Keyed →
      (∀ p ∈ s.buffered, p ∈ list) → unknown callback s list < fuel →
      Yields (pushEventInner callback fuel e (some list) true s) fun r =>
        ∀ p, Ready callback r.2 p → Ready callback s p ∧ p.event.id ≠ e.event.id := by
  intro fuel
  induction fuel with
  | zero => exact fun _ _ _ _ _ enough => absurd enough (Nat.not_lt_zero _)
  | succ fuel ih =>
    intro e s listed keyed covered enough
    rw [pushEventInner]
    split
    · exact yields_ok fun p => known_ready reflects keyed true
    · next notKnown =>
      rw [reflects.known, Option.not_isSome_iff_eq_none] at notKnown
      split
      · next missing =>
        refine yields_ok fun p ready => ⟨ready, fun same => ?_⟩
        obtain rfl : p = e := distinct p (covered p ready.1) e listed same
        obtain ⟨q, parent, absent⟩ := completeEventParents_none.mp missing
        exact ready.2 q parent absent
      · next parents complete =>
        split
        · next t run => exact yields_ok fun p => failed_ready reflects keyed run
        · next t run =>
          have connected : Pieces callback (fun _ => True) s (releaseEvent callback t e) :=
            (Relation.ReflTransGen.single (.connect trivial notKnown complete run)).tail (.release t e)
          have isKnown : callback.get (releaseEvent callback t e).world e.event.id ≠ none := by
            rw [releaseEvent_get reflects, (processCompleteEvent_ok reflects run).2.1, if_pos rfl]
            exact Option.some_ne_none _
          refine yields_bind (visitChildren_settle (fun child member u pieces => ?_) _)
            fun u visited => yields_ok fun p => connected_ready reflects keyed covered run visited
          have whole : Pieces callback (fun _ => True) s u := connected.trans pieces
          have fewer : unknown callback u list < fuel :=
            (unknown_lt (fun _ => whole.get_mono reflects) listed notKnown
              (pieces.get_mono reflects isKnown)).trans_le (Nat.lt_succ_iff.mp enough)
          refine yields_and (ih child u member (keyed.sublist (whole.evictList_sublist reflects))
            (fun p inside => covered p (buffered_mem_of_pieces reflects whole inside)) fewer) ?_
          exact pushEventInner_recheck reflects fuel u (fun _ _ => trivial) member

theorem find_of_mem {entries : List (Entry EventID Pushed)} (nodup : (entries.map Entry.key).Nodup)
    (inside : ent ∈ entries) : entries.find? (fun other => other.key = ent.key) = some ent := by
  induction entries with
  | nil => cases inside
  | cons head rest ih => grind

theorem Keyed.peek (keyed : s.Keyed) (inside : ent ∈ s.incompletes.evictList) :
    s.incompletes.peek ent.key = some ent.value := by
  rw [Cache.peek, find_of_mem keyed.nodup inside]
  rfl

theorem Keyed.mem_getIncompleteEventsList (keyed : s.Keyed) :
    p ∈ s.getIncompleteEventsList ↔ p ∈ s.buffered := by
  simp only [getIncompleteEventsList, buffered, Cache.keys, List.mem_filterMap, List.mem_map]
  constructor
  · rintro ⟨_, ⟨ent, inside, rfl⟩, found⟩
    rw [keyed.peek inside] at found
    exact ⟨ent, inside, Option.some.inj found⟩
  · rintro ⟨ent, inside, rfl⟩
    exact ⟨ent.key, ⟨ent, inside, rfl⟩, keyed.peek inside⟩

theorem Keyed.distinct (keyed : s.Keyed) {q : Pushed} (first : p ∈ s.buffered)
    (second : q ∈ s.buffered) (same : p.event.id = q.event.id) : p = q := by
  obtain ⟨left, leftIn, rfl⟩ := List.mem_map.mp first
  obtain ⟨right, rightIn, rfl⟩ := List.mem_map.mp second
  have keys : left.key = right.key := by rw [keyed.key left leftIn, keyed.key right rightIn, same]
  have found := keyed.peek leftIn
  rw [keys, keyed.peek rightIn] at found
  exact (Option.some.inj found).symm

theorem mem_buffered_buffer (inside : p ∈ (s.buffer callback e).buffered) :
    p ∈ s.buffered ∨ p = e := by
  obtain ⟨ent, member, rfl⟩ := List.mem_map.mp inside
  rcases List.mem_append.mp (Cache.mem_of_mem_normalize member) with old | new
  · exact .inl (List.mem_map.mpr ⟨ent, (List.mem_filter.mp old).1, rfl⟩)
  · exact .inr (by rw [List.mem_singleton.mp new])

theorem getIncompleteEventsList_length (s : EventsBuffer World Err) :
    s.getIncompleteEventsList.length ≤ s.incompletes.len := by
  refine (List.length_filterMap_le _ _).trans ?_
  rw [Cache.keys, List.length_map]
  exact le_rfl

theorem buffer_keyed (keyed : s.Keyed) (e : Pushed) : (s.buffer callback e).Keyed := by
  have whole := (Cache.normalize_suffix s.incompletes.maxWeight s.incompletes.maxSize
    (s.incompletes.evictList.filter (fun ent => ent.key ≠ e.event.id) ++
      [⟨e.event.id, e, callback.size e.event⟩])).sublist
  constructor
  · intro ent member
    rcases List.mem_append.mp (whole.subset member) with old | new
    · exact keyed.key ent (List.mem_filter.mp old).1
    · rw [List.mem_singleton.mp new]
  · refine (whole.map Entry.key).nodup ?_
    rw [List.map_append, List.nodup_append]
    refine ⟨(List.filter_sublist.map Entry.key).nodup keyed.nodup, List.nodup_singleton _, ?_⟩
    intro key old _ new
    obtain ⟨ent, member, rfl⟩ := List.mem_map.mp old
    have other := (List.mem_filter.mp member).2
    rw [List.map_singleton, List.mem_singleton] at new
    rw [new]
    simpa using other

/-- The cache takes `e` in without losing an older entry. -/
def CacheRoom (callback : Callback World Err) (s : EventsBuffer World Err) (e : Event) : Prop :=
  s.incompletes.len + 1 ≤ s.incompletes.maxSize ∧
    s.incompletes.weight + callback.size e ≤ s.incompletes.maxWeight

theorem Keyed.absent (keyed : s.Keyed) (absent : s.incompletes.peek id = none) :
    ∀ p ∈ s.buffered, p.event.id ≠ id := by
  intro p member same
  obtain ⟨ent, inside, rfl⟩ := List.mem_map.mp member
  have found := keyed.peek inside
  rw [keyed.key ent inside, same, absent] at found
  cases found

theorem buffer_evictList (keyed : s.Keyed) (absent : s.incompletes.peek e.event.id = none)
    (room : CacheRoom callback s e.event) : (s.buffer callback e).incompletes.evictList =
      s.incompletes.evictList ++ [⟨e.event.id, e, callback.size e.event⟩] := by
  have others : s.incompletes.evictList.filter (fun ent => ent.key ≠ e.event.id) =
      s.incompletes.evictList := by
    refine List.filter_eq_self.mpr fun ent member => ?_
    have other := keyed.absent absent ent.value (List.mem_map.mpr ⟨ent, member, rfl⟩)
    simpa [keyed.key ent member] using other
  rw [buffer, Cache.add]
  dsimp only
  rw [others]
  refine Cache.normalize_of_fits ?_ ?_
  · rw [List.map_append, List.sum_append]
    simpa [Cache.weight] using room.2
  · rw [List.length_append]
    exact room.1

theorem pushEventInner_new (reflects : callback.Reflects) (keyed : s.Keyed)
    (idle : ∀ p, ¬ Ready callback s p) (e : Pushed) :
    Yields (pushEventInner callback (s.incompletes.len + 2) e none false s) fun r =>
      ∀ p, ¬ Ready callback r.2 p := by
  rw [pushEventInner]
  split
  · exact yields_ok fun p ready => idle p (known_ready reflects keyed false ready).1
  · next notKnown =>
    rw [reflects.known, Option.not_isSome_iff_eq_none] at notKnown
    split
    · next missing =>
      refine yields_ok fun p ready => ?_
      rcases mem_buffered_buffer ready.1 with old | rfl
      · exact idle p ⟨old, ready.2⟩
      · obtain ⟨q, parent, absent⟩ := completeEventParents_none.mp missing
        exact ready.2 q parent absent
    · next parents complete =>
      split
      · next t run => exact yields_ok fun p ready => idle p (failed_ready reflects keyed run ready).1
      · next t run =>
        have still : (releaseEvent callback t e).incompletes = s.incompletes :=
          (releaseEvent_incompletes t e).trans (processCompleteEvent_ok reflects run).1
        have keyed' : (releaseEvent callback t e).Keyed := keyed.sublist (by rw [still])
        have covered : ∀ p, p ∈ (releaseEvent callback t e).getIncompleteEventsList ↔
            p ∈ s.buffered := by
          intro p
          rw [keyed'.mem_getIncompleteEventsList, buffered, still]
          rfl
        refine yields_bind (visitChildren_settle (fun child member u pieces => ?_) _)
          fun u visited => yields_ok fun p ready => idle p (connected_ready reflects keyed
            (fun p inside => (covered p).mpr inside) run visited ready).1
        refine yields_and (pushEventInner_settles reflects ?_ _ child u member
          (keyed'.sublist (Pieces.evictList_sublist reflects pieces)) ?_ ?_)
          (pushEventInner_recheck reflects _ u (fun _ _ => trivial) member)
        · intro p first q second
          exact keyed.distinct ((covered p).mp first) ((covered q).mp second)
        · intro p inside
          have before := buffered_mem_of_pieces reflects pieces inside
          rw [buffered, still] at before
          exact (covered p).mpr before
        · refine Nat.lt_succ_of_le (List.countP_le_length.trans ?_)
          refine (getIncompleteEventsList_length _).trans ?_
          rw [still]

end EventsBuffer

end Lachesis.Gossip.Dagordering
