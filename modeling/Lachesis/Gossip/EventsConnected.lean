import Lachesis.Gossip.EventsOrder

/-!
Runs of the buffer. In any run nothing that could be connected stays behind; in a run over
a parent-closed set, with callbacks that never fail and within the limits, everything is
connected.
-/

namespace Lachesis.Gossip.Dagordering.EventsBuffer

open Dag Simplewlru Triples

variable {World Err : Type} {callback : Callback World Err}

structure Settled (callback : Callback World Err) (s : EventsBuffer World Err) : Prop where
  keyed : s.Keyed
  idle : ∀ p, ¬ Ready callback s p

theorem new_settled (world : World) : Settled callback (new world) where
  keyed := ⟨fun _ member => absurd member List.not_mem_nil, List.nodup_nil⟩
  idle _ ready := absurd ready.1 List.not_mem_nil

variable {t s start : EventsBuffer World Err} {tail : List (Call Err)} {events : List Event}
  {e : Pushed} {limit : Metric}

theorem Settled.of_sublist (settled : Settled callback s)
    (fewer : t.incompletes.evictList.Sublist s.incompletes.evictList)
    (get : callback.get t.world = callback.get s.world) : Settled callback t where
  keyed := settled.keyed.sublist fewer
  idle p ready := settled.idle p ⟨(fewer.map Entry.value).subset ready.1, get ▸ ready.2⟩

theorem evict_sublist (s : EventsBuffer World Err) (ent : Entry EventID Pushed) :
    (s.evict callback ent).incompletes.evictList.Sublist s.incompletes.evictList := by
  rw [evict, releaseEvent_incompletes, dropEvent_incompletes]
  exact List.filter_sublist

theorem evict_get (reflects : callback.Reflects) (s : EventsBuffer World Err)
    (ent : Entry EventID Pushed) :
    callback.get (s.evict callback ent).world = callback.get s.world := by
  rw [evict, releaseEvent_get reflects, dropEvent_world]
  rfl

theorem spillRounds_settled (reflects : callback.Reflects) (limit : Metric) :
    ∀ (rounds : Nat) (s : EventsBuffer World Err), Settled callback s →
      Settled callback (spillRounds callback limit rounds s) := by
  intro rounds
  induction rounds with
  | zero => exact fun _ settled => settled
  | succ rounds ih =>
    intro s settled
    rw [spillRounds]
    split
    · split
      · exact settled
      · next ent _ =>
        exact ih _ (settled.of_sublist (evict_sublist s ent) (evict_get reflects s ent))
    · exact settled

theorem pushEvent_settled (reflects : callback.Reflects) (limit : Metric)
    (settled : Settled callback s) (de : Event) (peer : String) :
    Yields (s.pushEvent callback limit de peer) fun r => Settled callback r.2 := by
  have start : Settled callback (s.instantiate de peer).2 := settled.of_sublist (.refl _) rfl
  unfold pushEvent
  generalize s.instantiate de peer = instantiated at start ⊢
  obtain ⟨e, s⟩ := instantiated
  dsimp only at start ⊢
  split
  · refine yields_ok (start.of_sublist ?_ ?_)
    · rw [releaseEvent_incompletes, dropEvent_incompletes]
    · rw [releaseEvent_get reflects, dropEvent_world]
  · have keyed : Ensures (pushEventInner callback (s.incompletes.len + 2) e none false s)
        fun r => r.2.Keyed := by
      have origins : ∀ p ∈ (none : Option (List Pushed)).getD s.getIncompleteEventsList,
          (fun _ => True) p := fun _ _ => trivial
      refine ensures_mono (pushEventInner_pieces reflects _ e none false s trivial origins) ?_
      rintro r (pieces | ⟨_, _, _, added⟩)
      · exact start.keyed.sublist (Pieces.evictList_sublist reflects pieces)
      · rw [added]
        exact buffer_keyed start.keyed e
    refine yields_bind (yields_and (pushEventInner_new reflects start.keyed start.idle e) keyed)
      fun r ended => yields_ok (spillRounds_settled reflects limit _ _ ⟨ended.2, ended.1⟩)

theorem step_settled (reflects : callback.Reflects) (limit : Metric) (settled : Settled callback s)
    (a : Action) : Yields (s.step callback limit a) (Settled callback) := by
  cases a with
  | push de peer =>
    exact yields_bind (pushEvent_settled reflects limit settled de peer) fun _ => yields_ok
  | clear => exact yields_ok (spillRounds_settled reflects _ _ _ settled)

def processed (calls : List (Call Err)) : List Event :=
  calls.filterMap fun call => match call with
    | .process e => some e.event
    | _ => none

def checked (calls : List (Call Err)) : List Event :=
  calls.filterMap fun call => match call with
    | .check e => some e.event
    | _ => none

def ParentsDone (calls : List (Call Err)) : Prop :=
  ∀ front call back, calls = front ++ call :: back → ∀ e, call = .check e ∨ call = .process e →
    ∀ q ∈ e.event.parents, ∃ x ∈ processed front, x.id = q

theorem ParentsDone.snoc {calls : List (Call Err)} (done : ParentsDone calls) {call : Call Err}
    (parents : ∀ e, call = .check e ∨ call = .process e →
      ∀ q ∈ e.event.parents, ∃ x ∈ processed calls, x.id = q) : ParentsDone (calls ++ [call]) := by
  intro front last back split
  rcases List.eq_nil_or_concat back with rfl | ⟨rest, final, rfl⟩
  · obtain ⟨rfl, same⟩ := List.append_inj' split rfl
    obtain rfl : call = last := List.singleton_inj.mp same
    exact parents
  · rw [List.concat_eq_append, ← List.cons_append, ← List.append_assoc] at split
    obtain ⟨earlier, _⟩ := List.append_inj' split rfl
    exact done front last rest earlier

theorem ParentsDone.append {calls : List (Call Err)} (done : ParentsDone calls)
    (parents : ∀ call ∈ tail, ∀ e, call = .check e ∨ call = .process e → ∀ q ∈ e.event.parents,
      ∃ x ∈ processed calls, x.id = q) :
    ParentsDone (calls ++ tail) := by
  induction tail using List.reverseRecOn with
  | nil => rwa [List.append_nil]
  | append_singleton tail call ih =>
    rw [← List.append_assoc]
    refine (ih fun c member => parents c (List.mem_append_left _ member)).snoc fun e which q parent => ?_
    obtain ⟨x, member, same⟩ := parents call (by simp) e which q parent
    refine ⟨x, ?_, same⟩
    rw [processed, List.filterMap_append]
    exact List.mem_append_left _ member

theorem processCompleteEvent_succeeds (never : callback.NeverFails) (s : EventsBuffer World Err)
    (e : Pushed) (parents : List Event) : (processCompleteEvent callback s e parents).1 = true := by
  have passes : (checkEvent callback s e parents).1 = none := by
    unfold checkEvent
    split
    · rfl
    · next check given => exact never.check check given ..
  unfold processCompleteEvent
  generalize checkEvent callback s e parents = result at passes ⊢
  obtain ⟨_ | err, mid⟩ := result
  · have accepted := never.process mid.world e.event
    dsimp only
    generalize callback.process mid.world e.event = result at accepted ⊢
    obtain ⟨_ | err, world⟩ := result
    · rfl
    · cases accepted
  · cases passes

structure Logged (callback : Callback World Err) (events : List Event)
    (s : EventsBuffer World Err) : Prop where
  keyed : s.Keyed
  named : ∀ id x, callback.get s.world id = some x → x.id = id
  known : ∀ x, callback.get s.world x.id = some x ↔ x ∈ processed s.calls
  nodup : (processed s.calls).Nodup
  checks : callback.check.isSome → checked s.calls = processed s.calls
  ordered : ParentsDone s.calls
  inside : ∀ x ∈ processed s.calls, x ∈ events
  buffered : ∀ p ∈ s.buffered, p.event ∈ events

theorem Logged.of_quiet (logged : Logged callback events s)
    (fewer : t.incompletes.evictList.Sublist s.incompletes.evictList)
    (get : callback.get t.world = callback.get s.world) (calls : t.calls = s.calls ++ tail)
    (quiet : ∀ call ∈ tail, ∃ e err, call = .released e err) : Logged callback events t := by
  have noProcess : processed tail = [] := by
    refine List.filterMap_eq_nil_iff.mpr fun call member => ?_
    obtain ⟨e, err, rfl⟩ := quiet call member
    rfl
  have noCheck : checked tail = [] := by
    refine List.filterMap_eq_nil_iff.mpr fun call member => ?_
    obtain ⟨e, err, rfl⟩ := quiet call member
    rfl
  have sameProcessed : processed t.calls = processed s.calls := by
    rw [calls, processed, List.filterMap_append]
    exact (congrArg _ noProcess).trans (List.append_nil _)
  have sameChecked : checked t.calls = checked s.calls := by
    rw [calls, checked, List.filterMap_append]
    exact (congrArg _ noCheck).trans (List.append_nil _)
  constructor
  · exact logged.keyed.sublist fewer
  · rw [get]
    exact logged.named
  · rw [get, sameProcessed]
    exact logged.known
  · rw [sameProcessed]
    exact logged.nodup
  · rw [sameProcessed, sameChecked]
    exact logged.checks
  · rw [calls]
    refine logged.ordered.append fun call member e which => ?_
    obtain ⟨_, _, rfl⟩ := quiet call member
    rcases which with wrong | wrong <;> cases wrong
  · rw [sameProcessed]
    exact logged.inside
  · exact fun p member => logged.buffered p ((fewer.map Entry.value).subset member)

theorem Logged.connect (reflects : callback.Reflects) (logged : Logged callback events s)
    {parents : List Event} (origin : e.event ∈ events)
    (unknown : callback.get s.world e.event.id = none)
    (complete : completeEventParents callback s e = some parents)
    (run : processCompleteEvent callback s e parents = (true, t)) : Logged callback events t := by
  obtain ⟨same, get, calls⟩ := processCompleteEvent_ok reflects run
  have fresh : e.event ∉ processed s.calls := fun member => by
    rw [(logged.known e.event).mpr member] at unknown
    cases unknown
  have parentsDone : ∀ q ∈ e.event.parents, ∃ x ∈ processed s.calls, x.id = q := by
    intro q parent
    have present : callback.get s.world q ≠ none := fun absent => by
      rw [completeEventParents_none.mpr ⟨q, parent, absent⟩] at complete
      cases complete
    obtain ⟨x, found⟩ := Option.ne_none_iff_exists'.mp present
    have name := logged.named q x found
    exact ⟨x, (logged.known x).mp (name ▸ found), name⟩
  have nowProcessed : processed t.calls = processed s.calls ++ [e.event] := by
    rw [calls]
    simp only [processed, List.filterMap_append]
    split <;> simp
  have nowChecked : callback.check.isSome → checked t.calls = checked s.calls ++ [e.event] := by
    intro given
    rw [calls, if_pos given]
    simp [checked]
  constructor
  · exact logged.keyed.sublist (by rw [same])
  · intro id x found
    rw [get] at found
    split at found
    · next eq =>
      cases found
      exact eq.symm
    · exact logged.named id x found
  · intro x
    rw [get, nowProcessed, List.mem_append, List.mem_singleton, ← logged.known x]
    split
    · next eq =>
      rw [eq, unknown]
      simp [eq_comm]
    · grind
  · rw [nowProcessed, List.nodup_append]
    refine ⟨logged.nodup, List.nodup_singleton _, ?_⟩
    rintro x member y last rfl
    exact fresh (List.mem_singleton.mp last ▸ member)
  · intro given
    rw [nowChecked given, nowProcessed, logged.checks given]
  · rw [calls, List.append_assoc]
    refine logged.ordered.append fun call member p which => ?_
    have own : p = e := by grind
    rw [own]
    exact parentsDone
  · intro x member
    rw [nowProcessed] at member
    rcases List.mem_append.mp member with old | new
    · exact logged.inside x old
    · exact List.mem_singleton.mp new ▸ origin
  · rw [EventsBuffer.buffered, same]
    exact logged.buffered

theorem Piece.logged (reflects : callback.Reflects) (never : callback.NeverFails)
    (logged : Logged callback events s) (piece : Piece callback (fun p => p.event ∈ events) s t) :
    Logged callback events t := by
  have fewer := piece.evictList_sublist reflects
  cases piece with
  | release e =>
    obtain ⟨tail, calls, quiet⟩ := @releaseEvent_calls _ _ callback s e
    exact logged.of_quiet fewer (releaseEvent_get reflects s e) calls fun call member =>
      ⟨e, quiet call member⟩
  | drop e err =>
    exact logged.of_quiet fewer (by rw [dropEvent_world])
      ((dropEvent_calls s e err).trans (List.append_nil _).symm) fun _ member => by cases member
  | forget _ =>
    exact logged.of_quiet fewer rfl (List.append_nil _).symm fun _ member => by cases member
  | connect origin unknown complete run => exact logged.connect reflects origin unknown complete run
  | fail run =>
    have succeeds := congrArg Prod.fst run
    rw [processCompleteEvent_succeeds never] at succeeds
    cases succeeds

theorem Piece.kept (reflects : callback.Reflects) (never : callback.NeverFails)
    {from_ : Pushed → Prop} (keyed : s.Keyed) (piece : Piece callback from_ s t) {p : Pushed}
    (inside : p ∈ s.buffered) : p ∈ t.buffered ∨ callback.get t.world p.event.id ≠ none := by
  cases piece with
  | release e => exact .inl (by rwa [buffered, releaseEvent_incompletes])
  | drop e err => exact .inl (by rwa [buffered, dropEvent_incompletes])
  | @forget id known =>
    by_cases own : p.event.id = id
    · exact .inr (own ▸ known)
    · exact .inl ((mem_buffered_remove keyed).mpr ⟨inside, own⟩)
  | connect _ _ _ run => exact .inl (by rwa [buffered, (processCompleteEvent_ok reflects run).1])
  | fail run =>
    have succeeds := congrArg Prod.fst run
    rw [processCompleteEvent_succeeds never] at succeeds
    cases succeeds

/-- The invariant of a run in which nothing fails and nothing is spilled. -/
structure Progress (callback : Callback World Err) (limit : Metric) (events : List Event)
    (s : EventsBuffer World Err) : Prop where
  logged : Logged callback events s
  count : s.incompletes.len ≤ limit.num
  size : s.incompletes.weight ≤ limit.size

def Kept (callback : Callback World Err) (s t : EventsBuffer World Err) (id : EventID) : Prop :=
  (∃ p ∈ s.buffered, p.event.id = id) ∨ callback.get s.world id ≠ none →
    (∃ p ∈ t.buffered, p.event.id = id) ∨ callback.get t.world id ≠ none

theorem weight_mono {left right : List (Entry EventID Pushed)} (fewer : left.Sublist right) :
    (left.map Entry.weight).sum ≤ (right.map Entry.weight).sum :=
  (fewer.map Entry.weight).sum_le_sum fun _ _ => Nat.zero_le _

theorem Piece.progress (reflects : callback.Reflects) (never : callback.NeverFails)
    (progress : Progress callback limit events s)
    (piece : Piece callback (fun p => p.event ∈ events) s t) :
    Progress callback limit events t where
  logged := piece.logged reflects never progress.logged
  count := (piece.evictList_sublist reflects).length_le.trans progress.count
  size := (weight_mono (piece.evictList_sublist reflects)).trans progress.size

theorem Pieces.progress (reflects : callback.Reflects) (never : callback.NeverFails)
    (progress : Progress callback limit events s)
    (pieces : Pieces callback (fun p => p.event ∈ events) s t) :
    Progress callback limit events t ∧ ∀ id, Kept callback s t id := by
  induction pieces with
  | refl => exact ⟨progress, fun _ kept => kept⟩
  | tail _ piece ih =>
    obtain ⟨middle, kept⟩ := ih
    refine ⟨piece.progress reflects never middle, fun id before => ?_⟩
    rcases kept id before with ⟨p, inside, rfl⟩ | known
    · exact (piece.kept reflects never middle.logged.keyed inside).imp_left fun inside =>
        ⟨p, inside, rfl⟩
    · exact .inr (piece.get_mono reflects known)

/-- `e` fits under the limit, and in the cache itself, which has a bound of its own (`maxInt32`). -/
def Room (callback : Callback World Err) (limit : Metric) (s : EventsBuffer World Err) (e : Event) :
    Prop :=
  s.incompletes.len + 1 ≤ limit.num ∧ s.incompletes.weight + callback.size e ≤ limit.size ∧
    CacheRoom callback s e

def WithinLimits (callback : Callback World Err) (limit : Metric) (s : EventsBuffer World Err)
    (e : Event) : Prop :=
  s.isBuffered e.id = false → (∃ q ∈ e.parents, callback.get s.world q = none) →
    Room callback limit s e

theorem buffer_progress (progress : Progress callback limit events s) (inside : e.event ∈ events)
    (absent : s.incompletes.peek e.event.id = none) (room : Room callback limit s e.event) :
    Progress callback limit events (s.buffer callback e) ∧
      (∀ p, p ∈ (s.buffer callback e).buffered ↔ p ∈ s.buffered ∨ p = e) := by
  have list := buffer_evictList progress.logged.keyed absent room.2.2
  have members : ∀ p, p ∈ (s.buffer callback e).buffered ↔ p ∈ s.buffered ∨ p = e := by
    intro p
    rw [buffered, list, List.map_append, List.mem_append]
    simp [buffered]
  obtain ⟨logged, count, size⟩ := progress
  refine ⟨⟨⟨buffer_keyed logged.keyed e, logged.named, logged.known, logged.nodup, logged.checks,
    logged.ordered, logged.inside, fun p member => ?_⟩, ?_, ?_⟩, members⟩
  · rcases (members p).mp member with old | rfl
    · exact logged.buffered p old
    · exact inside
  · rw [Cache.len, list, List.length_append]
    exact room.1
  · rw [Cache.weight, list, List.map_append, List.sum_append]
    simpa [Cache.weight] using room.2.1

theorem pushEventInner_new_known (reflects : callback.Reflects) (never : callback.NeverFails)
    (fuel : Nat) (e : Pushed) (s : EventsBuffer World Err) :
    Ensures (pushEventInner callback (fuel + 1) e none false s) fun r =>
      callback.get r.2.world e.event.id ≠ none ∨
        (completeEventParents callback s e = none ∧ r.2 = s.buffer callback e) := by
  rw [pushEventInner]
  split
  · next isKnown =>
    rw [reflects.known] at isKnown
    refine ensures_ok (.inl ?_)
    rw [releaseEvent_get reflects, if_neg Bool.false_ne_true, dropEvent_world]
    exact Option.isSome_iff_ne_none.mp isKnown
  · split
    · next missing => exact ensures_ok (.inr ⟨missing, rfl⟩)
    · next parents _ =>
      split
      · next t run =>
        have succeeds := congrArg Prod.fst run
        rw [processCompleteEvent_succeeds never] at succeeds
        cases succeeds
      · next t run =>
        have isKnown : callback.get (releaseEvent callback t e).world e.event.id ≠ none := by
          rw [releaseEvent_get reflects, (processCompleteEvent_ok reflects run).2.1, if_pos rfl]
          exact Option.some_ne_none _
        have nested : ∀ list : List Pushed, ∀ child ∈ list, ∀ u,
            Ensures (pushEventInner callback fuel child (some list) true u)
              fun r => Pieces callback (fun _ => True) u r.2 := fun list child member u =>
          pushEventInner_recheck reflects fuel u (fun _ _ => trivial) member
        refine ensures_bind (visitChildren_pieces _ _ _ (nested _)) fun u later =>
          ensures_ok (.inl ?_)
        have stays := Pieces.get_mono reflects later isKnown
        exact stays

theorem spillIncompletes_of_within (count : s.incompletes.len ≤ limit.num)
    (size : s.incompletes.weight ≤ limit.size) : s.spillIncompletes callback limit = s := by
  unfold spillIncompletes
  cases s.incompletes.len with
  | zero => rfl
  | succ rounds => rw [spillRounds, if_neg (by omega)]

theorem pushEvent_progress (reflects : callback.Reflects) (never : callback.NeverFails)
    (progress : Progress callback limit events s) {de : Event} (inside : de ∈ events)
    (within : WithinLimits callback limit s de) (peer : String) :
    Ensures (s.pushEvent callback limit de peer) fun r => Progress callback limit events r.2 ∧
      (∀ id, Kept callback s r.2 id) ∧
      ((∃ p ∈ r.2.buffered, p.event.id = de.id) ∨ callback.get r.2.world de.id ≠ none) := by
  let s' := (s.instantiate de peer).2
  let e : Pushed := ⟨s.pushes, de, peer⟩
  have start : Progress callback limit events s' :=
    ⟨progress.logged.of_quiet (.refl _) rfl (List.append_nil _).symm nofun, progress.count,
      progress.size⟩
  refine pushEvent_cases (Ensures · _) (fun p found => ?_) fun absent => ?_
  · have pieces : Pieces callback (fun p => p.event ∈ events) s'
        (releaseEvent callback (s'.dropEvent e .duplicateEvent) e) :=
      (Relation.ReflTransGen.single (.drop s' e _)).tail (.release _ e)
    obtain ⟨after, kept⟩ := pieces.progress reflects never start
    refine ensures_ok ⟨after, kept, kept de.id (.inl ?_)⟩
    obtain ⟨ent, hit, rfl⟩ := Option.map_eq_some_iff.mp found
    have member := List.mem_of_find?_eq_some hit
    have key : ent.key = de.id := by simpa using List.find?_some hit
    exact ⟨ent.value, List.mem_map.mpr ⟨ent, member, rfl⟩,
      (start.logged.keyed.key ent member).symm.trans key⟩
  · have origins : ∀ p ∈ (none : Option (List Pushed)).getD s'.getIncompleteEventsList,
        p.event ∈ events := fun p member =>
      start.logged.buffered p (start.logged.keyed.mem_getIncompleteEventsList.mp member)
    have inner : Ensures (pushEventInner callback (s'.incompletes.len + 2) e none false s') fun r =>
        Progress callback limit events r.2 ∧ (∀ id, Kept callback s r.2 id) ∧
        ((∃ p ∈ r.2.buffered, p.event.id = de.id) ∨ callback.get r.2.world de.id ≠ none) := by
      intro r run
      have buffers : completeEventParents callback s' e = none → r.2 = s'.buffer callback e →
          Progress callback limit events r.2 ∧ (∀ id, Kept callback s r.2 id) ∧
          ((∃ p ∈ r.2.buffered, p.event.id = de.id) ∨ callback.get r.2.world de.id ≠ none) := by
        intro missing added
        have room : Room callback limit s' e.event :=
          within (by rw [isBuffered]; exact congrArg Option.isSome absent)
            (completeEventParents_none.mp missing)
        obtain ⟨after, members⟩ := buffer_progress start (e := e) inside absent room
        rw [added]
        refine ⟨after, fun id before => before.imp_left ?_,
          .inl ⟨e, (members e).mpr (.inr rfl), rfl⟩⟩
        rintro ⟨p, member, same⟩
        exact ⟨p, (members p).mpr (.inl member), same⟩
      rcases pushEventInner_pieces reflects _ e none false s' inside origins r run with
        pieces | ⟨_, _, missing, added⟩
      · rcases pushEventInner_new_known reflects never _ e s' r run with known | ⟨missing, added⟩
        · obtain ⟨after, kept⟩ := Pieces.progress reflects never start pieces
          exact ⟨after, kept, .inr known⟩
        · exact buffers missing added
      · exact buffers missing added
    refine ensures_bind inner fun r ended => ensures_ok ?_
    dsimp only
    rw [spillIncompletes_of_within ended.1.count ended.1.size]
    exact ended

def pushAll (callback : Callback World Err) (limit : Metric) (s : EventsBuffer World Err)
    (pushes : List (Event × String)) : Except Halt (EventsBuffer World Err) :=
  pushes.foldlM (fun s pushed => s.step callback limit (.push pushed.1 pushed.2)) s

structure Arrived (callback : Callback World Err) (limit : Metric) (events : List Event)
    (start : EventsBuffer World Err) (before : List (Event × String)) (s : EventsBuffer World Err) :
    Prop where
  reached : pushAll callback limit start before = .ok s
  settled : Settled callback s
  progress : Progress callback limit events s
  arrived : ∀ pushed ∈ before, (∃ p ∈ s.buffered, p.event.id = pushed.1.id) ∨
    callback.get s.world pushed.1.id ≠ none

theorem arrived_step (reflects : callback.Reflects) (never : callback.NeverFails)
    {before : List (Event × String)} (arrived : Arrived callback limit events start before s)
    {pushed : Event × String} (inside : pushed.1 ∈ events)
    (within : WithinLimits callback limit s pushed.1) :
    Yields (s.step callback limit (.push pushed.1 pushed.2))
      (Arrived callback limit events start (before ++ [pushed])) := by
  have push := yields_and (pushEvent_settled reflects limit arrived.settled pushed.1 pushed.2)
    (pushEvent_progress reflects never arrived.progress inside within pushed.2)
  obtain ⟨r, run, settled, progress, kept, own⟩ := push
  have step : s.step callback limit (.push pushed.1 pushed.2) = .ok r.2 := by
    simp only [EventsBuffer.step, run]
    rfl
  refine ⟨r.2, step, ?_, settled, progress, fun other member => ?_⟩
  · rw [pushAll, List.foldlM_append, ← pushAll, arrived.reached]
    simp only [List.foldlM_cons, List.foldlM_nil]
    change (s.step callback limit (.push pushed.1 pushed.2) >>= fun t => pure t) = _
    rw [step]
    rfl
  · rcases List.mem_append.mp member with old | new
    · exact kept _ (arrived.arrived other old)
    · rw [List.mem_singleton.mp new]
      exact own

/-- With all of a parent-closed set arrived, all of it is known: the first event that was not
would have all its parents. -/
theorem Arrived.known {pushes : List (Event × String)}
    (arrived : Arrived callback limit events start pushes s) (ordered : ParentsFirst [] events)
    (all : ∀ e ∈ events, ∃ peer, (e, peer) ∈ pushes) :
    ∀ e ∈ events, callback.get s.world e.id ≠ none := by
  have grow : ∀ earlier rest, events = earlier ++ rest → ParentsFirst earlier rest →
      (∀ x ∈ earlier, callback.get s.world x.id ≠ none) →
      ∀ x ∈ rest, callback.get s.world x.id ≠ none := by
    intro earlier rest
    induction rest generalizing earlier with
    | nil => exact fun _ _ _ x member => absurd member List.not_mem_nil
    | cons e rest ih =>
      rintro split ⟨parents, _, tail⟩ known
      have inside : e ∈ events := by simp [split]
      have own : callback.get s.world e.id ≠ none := by
        obtain ⟨peer, pushed⟩ := all e inside
        refine (arrived.arrived _ pushed).resolve_left ?_
        rintro ⟨p, buffered, same⟩
        obtain rfl : p.event = e := parentsFirst_ids ordered p.event
          (arrived.progress.logged.buffered p buffered) e inside same
        refine arrived.settled.idle p ⟨buffered, fun q parent => ?_⟩
        obtain ⟨x, member, rfl⟩ := parents q parent
        exact known x member
      have later := ih (earlier ++ [e]) (by simp [split]) tail fun x member => by grind
      intro x member
      rcases List.mem_cons.mp member with rfl | after
      · exact own
      · exact later x after
  exact grow [] events rfl ordered fun _ member => absurd member List.not_mem_nil

theorem new_progress (limit : Metric) (events : List Event) {world : World}
    (empty : ∀ id, callback.get world id = none) :
    Progress callback limit events (new world) where
  logged :=
    { keyed := ⟨nofun, List.nodup_nil⟩
      named := fun id x found => by
        rw [new, empty] at found
        cases found
      known := fun x => by simp [new, empty, processed]
      nodup := List.nodup_nil
      checks := fun _ => rfl
      ordered := fun front call back split => by simp [new] at split
      inside := nofun
      buffered := nofun }
  count := Nat.zero_le _
  size := Nat.zero_le _

/-- After each call every buffered event lacks a parent. If `Check` and `Process` never fail and the
limits are kept, each event of a parent-closed set is processed once, after its parents. -/
theorem events_connected (reflects : callback.Reflects) (limit : Metric) :
    (∀ (world : World) (actions : List Action), ∃ s,
      actions.foldlM (step callback limit) (new world) = .ok s ∧
      ∀ p ∈ s.buffered, ∃ q ∈ p.event.parents, callback.get s.world q = none) ∧
    (callback.NeverFails → ∀ world : World, (∀ id, callback.get world id = none) →
      ∀ (events : List Event) (pushes : List (Event × String)), ParentsFirst [] events →
      (∀ e, e ∈ events ↔ ∃ peer, (e, peer) ∈ pushes) →
      (∀ before e peer after s, pushes = before ++ (e, peer) :: after →
        pushAll callback limit (new world) before = .ok s → WithinLimits callback limit s e) →
      ∃ s, pushAll callback limit (new world) pushes = .ok s ∧ s.buffered = [] ∧
        (processed s.calls).Perm events ∧
        (callback.check.isSome → (checked s.calls).Perm events) ∧ ParentsDone s.calls) := by
  constructor
  · intro world actions
    have run : Yields (actions.foldlM (step callback limit) (new world)) fun s =>
        Settled callback s :=
      @yields_foldlM _ _ _ _ (fun _ => Settled callback) actions [] _ (new_settled world)
        fun _ a _ s _ settled => step_settled reflects limit settled a
    obtain ⟨s, reached, settled⟩ := run
    refine ⟨s, reached, fun p member => ?_⟩
    by_contra none
    exact settled.idle p ⟨member, fun q parent absent => none ⟨q, parent, absent⟩⟩
  · intro never world empty events pushes ordered same within
    have start : Arrived callback limit events (new world) [] (new world) :=
      ⟨rfl, new_settled world, new_progress limit events empty, nofun⟩
    have run : Yields (pushAll callback limit (new world) pushes)
        (Arrived callback limit events (new world) ([] ++ pushes)) := by
      refine yields_foldlM start fun before pushed after s split arrived => ?_
      exact arrived_step reflects never arrived
        ((same _).mpr ⟨pushed.2, by simp [split]⟩)
        (within before pushed.1 pushed.2 after s split arrived.reached)
    obtain ⟨s, reached, arrived⟩ := run
    have known := arrived.known ordered fun e member => (same e).mp member
    have logged := arrived.progress.logged
    have perm : (processed s.calls).Perm events := by
      refine (List.perm_ext_iff_of_nodup logged.nodup (parentsFirst_nodup ordered)).mpr fun e => ?_
      refine ⟨logged.inside e, fun member => ?_⟩
      obtain ⟨x, found⟩ := Option.ne_none_iff_exists'.mp (known e member)
      have name := logged.named _ _ found
      have done := (logged.known x).mp (name.symm ▸ found)
      exact parentsFirst_ids ordered x (logged.inside x done) e member name ▸ done
    refine ⟨s, reached, ?_, perm, fun given => (logged.checks given).symm ▸ perm, logged.ordered⟩
    refine List.eq_nil_iff_forall_not_mem.mpr fun p member => arrived.settled.idle p ⟨member, ?_⟩
    intro q parent
    obtain ⟨x, inside, rfl⟩ := parentsFirst_closed ordered p.event (logged.buffered p member) q parent
    exact known x inside

section Sample

def keeper : Callback (List Event) Unit where
  size e := e.parents.length + 1
  process kept e := (none, e :: kept)
  released := some fun kept _ _ _ => kept
  get kept id := kept.find? fun e => e.id == id
  existsEvent kept id := (kept.find? fun e => e.id == id).isSome
  check := some fun kept _ _ => (none, kept)
  isImportant := none

theorem keeper_reflects : keeper.Reflects where
  known _ _ := rfl
  processed kept e kept' run id := by
    cases run
    by_cases own : id = e.id
    · subst own
      simp [keeper]
    · have other : (e.id == id) = false := by simpa using Ne.symm own
      simp [keeper, own, other]
  failed _ _ _ _ run := by cases run
  checked check given _ _ _ := by
    cases given
    rfl
  released released given _ _ _ _ := by
    cases given
    rfl

theorem keeper_never : keeper.NeverFails where
  process _ _ := rfl
  check check given _ _ _ := by
    cases given
    rfl

def parentEvent : Event := ⟨1, 1, 1, 1, [], 1, 1⟩

def childEvent : Event := ⟨1, 2, 1, 1, [1], 2, 2⟩

end Sample

theorem events_connected_backwards :
    ∃ s, pushAll keeper ⟨1, 2⟩ (new []) [(childEvent, "a"), (parentEvent, "b"), (childEvent, "c")] =
      .ok s ∧ s.buffered = [] ∧ (processed s.calls).Perm [parentEvent, childEvent] := by
  have same : ∀ e, e ∈ [parentEvent, childEvent] ↔
      ∃ peer, (e, peer) ∈ [(childEvent, "a"), (parentEvent, "b"), (childEvent, "c")] := by
    grind
  obtain ⟨s, reached, empty, perm, _⟩ := (events_connected keeper_reflects ⟨1, 2⟩).2 keeper_never []
    (fun _ => rfl) [parentEvent, childEvent] _ (by decide) same (by
      intro before e peer after s split reached
      -- only the first push has a parent missing, and finds the buffer empty
      rcases before with _ | ⟨_, _ | ⟨_, _ | ⟨_, rest⟩⟩⟩
      · cases split
        cases reached
        exact fun _ _ => ⟨by decide, by decide, by decide, by decide⟩
      · cases split
        rintro _ ⟨_, parent, _⟩
        cases parent
      · cases split
        cases reached
        rintro _ ⟨q, parent, absent⟩
        obtain rfl : q = 1 := by simpa [childEvent] using parent
        cases absent
      · simp at split)
  exact ⟨s, reached, empty, perm⟩

end Lachesis.Gossip.Dagordering.EventsBuffer
