import Lachesis.Gossip.EventsSpill

/-!
The account of each push. An instance of an event is released once and for all, or it is buffered;
while the children of an event are being visited, the event itself may be both.
-/

namespace Lachesis.Gossip.Dagordering.EventsBuffer

open Dag Simplewlru Triples

variable {World Err : Type} {callback : Callback World Err}

def releasesOf (n : Nat) (calls : List (Call Err)) : Nat :=
  calls.countP fun call => match call with
    | .released e _ => e.serial == n
    | _ => false

theorem releasesOf_eq (n : Nat) (calls : List (Call Err)) :
    releasesOf n calls = (delivered calls).countP fun e => e.serial == n := by
  rw [releasesOf, delivered, List.countP_filterMap]
  refine List.countP_congr fun call _ => ?_
  cases call <;> simp

theorem releaseEvent_releasesOf (notify : callback.released.isSome) (s : EventsBuffer World Err)
    (e : Pushed) (n : Nat) :
    releasesOf n (releaseEvent callback s e).calls = releasesOf n s.calls +
      if n = e.serial ∧ (s.marks e.serial).released = false then 1 else 0 := by
  rw [releasesOf_eq, releasesOf_eq, releaseEvent_delivered notify, List.countP_append]
  cases (s.marks e.serial).released with
  | true => simp
  | false =>
    by_cases own : n = e.serial
    · simp [own]
    · simp [own, Ne.symm own]

structure Accounts (callback : Callback World Err) (pushed : List Pushed) (stack : List EventID)
    (s : EventsBuffer World Err) : Prop where
  aged : Aged s
  serials : (pushed.map Pushed.serial).Nodup
  earlier : ∀ p ∈ pushed, p.serial < s.pushes
  counts : callback.released.isSome → ∀ n, releasesOf n s.calls = if (s.marks n).released then 1 else 0
  known : ∀ p ∈ s.buffered, p ∈ pushed
  held : ∀ p ∈ pushed, p ∈ s.buffered ∨ (s.marks p.serial).released = true
  stacked : ∀ p ∈ s.buffered, (s.marks p.serial).released = true → p.event.id ∈ stack
  fresh : ∀ n, (∀ p ∈ pushed, p.serial ≠ n) → (s.marks n).released = false
  weighed : ∀ ent ∈ s.incompletes.evictList, ent.weight = callback.size ent.value.event

variable {pushed : List Pushed} {stack : List EventID} {s t : EventsBuffer World Err}

theorem Accounts.quiet (accounts : Accounts callback pushed stack s) (same : SameBooks s t) :
    Accounts callback pushed stack t where
  aged := accounts.aged.of_sublist (by rw [same.incompletes]) same.frame
  serials := accounts.serials
  earlier := same.pushes ▸ accounts.earlier
  counts notify n := by
    rw [releasesOf_eq, same.calls, ← releasesOf_eq, accounts.counts notify, same.marks]
  known := by
    rw [same.buffered]
    exact accounts.known
  held p listed := by
    rw [same.buffered, same.marks]
    exact accounts.held p listed
  stacked p inside done := by
    rw [same.buffered] at inside
    rw [same.marks] at done
    exact accounts.stacked p inside done
  fresh n other := by
    rw [same.marks]
    exact accounts.fresh n other
  weighed := by
    rw [same.incompletes]
    exact accounts.weighed

theorem Accounts.unique (accounts : Accounts callback pushed stack s) {p q : Pushed}
    (first : p ∈ pushed) (second : q ∈ pushed) (same : p.serial = q.serial) : p = q :=
  List.inj_on_of_nodup_map accounts.serials first second same

theorem Accounts.dropEvent (accounts : Accounts callback pushed stack s) (e : Pushed)
    (err : DropError Err) : Accounts callback pushed stack (s.dropEvent e err) :=
  accounts.quiet (dropEvent_books s e err)

section Release

variable {e : Pushed}

theorem Accounts.release (accounts : Accounts callback pushed stack s) (listed : e ∈ pushed)
    (on : e ∈ s.buffered → e.event.id ∈ stack) :
    Accounts callback pushed stack (releaseEvent callback s e) where
  aged := accounts.aged.of_sublist (by rw [releaseEvent_incompletes]) (releaseEvent_frame s e)
  serials := accounts.serials
  earlier := (releaseEvent_frame s e).1.symm ▸ accounts.earlier
  counts notify n := by
    rw [releaseEvent_releasesOf notify, releaseEvent_marks, accounts.counts notify]
    by_cases own : n = e.serial
    · subst own
      cases (s.marks e.serial).released <;> simp
    · simp [own]
  known := by
    rw [buffered_release]
    exact accounts.known
  held p inside := by
    rw [buffered_release, releaseEvent_marks]
    split
    · exact .inr rfl
    · exact accounts.held p inside
  stacked p inside done := by
    rw [buffered_release] at inside
    rw [releaseEvent_marks] at done
    split at done
    · next same =>
      obtain rfl := accounts.unique (accounts.known p inside) listed same
      exact on inside
    · exact accounts.stacked p inside done
  fresh n other := by
    rw [releaseEvent_marks, if_neg fun same => other e listed same.symm]
    exact accounts.fresh n other
  weighed := by
    rw [releaseEvent_incompletes]
    exact accounts.weighed

theorem Accounts.remove (accounts : Accounts callback pushed stack s) {id : EventID}
    {stack' : List EventID} (below : ∀ x ∈ stack, x ≠ id → x ∈ stack')
    (gone : ∀ p ∈ s.buffered, p.event.id = id → (s.marks p.serial).released = true) :
    Accounts callback pushed stack' (s.remove id) where
  aged := accounts.aged.of_sublist List.filter_sublist (remove_frame s id)
  serials := accounts.serials
  earlier := accounts.earlier
  counts := accounts.counts
  known p inside := accounts.known p ((mem_buffered_remove accounts.aged.keyed).mp inside).1
  held p listed := by
    rcases accounts.held p listed with inside | done
    · by_cases own : p.event.id = id
      · exact .inr (gone p inside own)
      · exact .inl ((mem_buffered_remove accounts.aged.keyed).mpr ⟨inside, own⟩)
    · exact .inr done
  stacked p inside done := by
    obtain ⟨before, other⟩ := (mem_buffered_remove accounts.aged.keyed).mp inside
    exact below _ (accounts.stacked p before done) other
  fresh := accounts.fresh
  weighed ent member := accounts.weighed ent (List.mem_filter.mp member).1

theorem Accounts.push (accounts : Accounts callback pushed stack s) (id : EventID) :
    Accounts callback pushed (id :: stack) s :=
  have on : ∀ p ∈ s.buffered, (s.marks p.serial).released = true → p.event.id ∈ id :: stack :=
    fun p inside done => List.mem_cons_of_mem id (accounts.stacked p inside done)
  { accounts with stacked := on }

theorem Accounts.leave (accounts : Accounts callback pushed stack s) (listed : e ∈ pushed)
    (only : ∀ p ∈ s.buffered, p.event.id = e.event.id → p = e) :
    Accounts callback pushed stack ((releaseEvent callback s e).remove e.event.id) := by
  have released := (accounts.push e.event.id).release listed fun _ => List.mem_cons_self
  refine released.remove (fun x inside other => (List.mem_cons.mp inside).resolve_left other) ?_
  intro p inside same
  rw [buffered_release] at inside
  rw [only p inside same, releaseEvent_marks, if_pos rfl]

end Release

section Push

structure Visiting (callback : Callback World Err) (pushed list : List Pushed)
    (stack : List EventID) (s t : EventsBuffer World Err) : Prop where
  accounts : Accounts callback pushed stack t
  covered : ∀ p ∈ t.buffered, p ∈ list
  marks : ∀ n, (s.marks n).released = true → (t.marks n).released = true

variable {list : List Pushed}

theorem visitChildren_visiting
    {push : Pushed → EventsBuffer World Err → Except Halt (Bool × EventsBuffer World Err)} (id : EventID)
    (accounts : Accounts callback pushed stack s) (covered : ∀ p ∈ s.buffered, p ∈ list)
    (each : ∀ child ∈ list, ∀ u, Accounts callback pushed stack u → (∀ p ∈ u.buffered, p ∈ list) →
      Ensures (push child u) fun r => Visiting callback pushed list stack u r.2) :
    Ensures (list.foldlM (visitChild push id) s) (Visiting callback pushed list stack s) :=
  visitChildren_invariant id list s (fun child member u sofar =>
    ensures_mono (each child member u sofar.accounts sofar.covered) fun _ later =>
      ⟨later.accounts, later.covered, fun n done => later.marks n (sofar.marks n done)⟩)
    ⟨accounts, covered, fun _ done => done⟩

variable (part : ∀ p ∈ list, p ∈ pushed)
  (distinct : ∀ p ∈ list, ∀ q ∈ list, p.event.id = q.event.id → p = q)

include part distinct in
theorem pushEventInner_visiting : ∀ (fuel : Nat) (e : Pushed) (stack : List EventID)
    (s : EventsBuffer World Err), e ∈ list → Accounts callback pushed stack s →
    (∀ p ∈ s.buffered, p ∈ list) →
    Ensures (pushEventInner callback fuel e (some list) true s) fun r =>
      Visiting callback pushed list stack s r.2 := by
  intro fuel
  induction fuel with
  | zero => exact fun _ _ _ _ _ _ => ensures_error
  | succ fuel ih =>
    intro e stack s listed accounts covered
    -- released, and then removed
    have leaves : ∀ {t : EventsBuffer World Err}, SameBooks s t →
        Visiting callback pushed list stack s ((releaseEvent callback t e).remove e.event.id) := by
      intro t same
      have buffered := same.buffered
      refine ⟨(accounts.quiet same).leave (part e listed) ?_, ?_, fun n done => ?_⟩
      · grind
      · intro p inside
        have before := ((mem_buffered_remove ((accounts.quiet same).aged.keyed.sublist
          (by rw [releaseEvent_incompletes]))).mp inside).1
        rw [buffered_release, buffered] at before
        exact covered p before
      · change ((releaseEvent callback t e).marks n).released = true
        rw [releaseEvent_marks, same.marks, done, ite_self]
    rw [pushEventInner]
    split
    · refine ensures_ok ?_
      dsimp only
      rw [if_pos rfl, releaseEvent_remove]
      exact leaves ⟨rfl, fun _ => rfl, rfl, rfl⟩
    · split
      · exact ensures_ok ⟨accounts, covered, fun _ done => done⟩
      · next parents _ =>
        have same := @processCompleteEvent_books _ _ callback s e parents
        split
        · next t run =>
          rw [run] at same
          exact ensures_ok (leaves same)
        · next t run =>
          rw [run] at same
          have start : Visiting callback pushed list (e.event.id :: stack) s
              (releaseEvent callback t e) := by
            refine ⟨((accounts.quiet same).push e.event.id).release (part e listed)
              fun _ => List.mem_cons_self, ?_, fun n done => ?_⟩
            · rw [buffered_release, same.buffered]
              exact covered
            · rw [releaseEvent_marks, same.marks, done, ite_self]
          have own : ((releaseEvent callback t e).marks e.serial).released = true := by
            rw [releaseEvent_marks, if_pos rfl]
          refine ensures_bind (visitChildren_visiting _ start.accounts start.covered
            fun child member u => ih child _ u member) fun u visited => ensures_ok ?_
          refine ⟨visited.accounts.remove
            (fun x inside other => (List.mem_cons.mp inside).resolve_left other) ?_, ?_,
            fun n done => visited.marks n (start.marks n done)⟩
          · intro p inside same
            rw [distinct p (visited.covered p inside) e listed same]
            exact visited.marks _ own
          · intro p inside
            exact visited.covered p
              ((mem_buffered_remove visited.accounts.aged.keyed).mp inside).1

theorem Accounts.instantiate (accounts : Accounts callback pushed stack s) (de : Event)
    (peer : String) : Accounts callback pushed stack (s.instantiate de peer).2 := by
  have unused := accounts.fresh s.pushes fun p listed => (accounts.earlier p listed).ne
  have marks : ∀ n, ((s.instantiate de peer).2.marks n).released = (s.marks n).released := by
    intro n
    by_cases own : n = s.pushes
    · subst own
      rw [unused]
      simp [EventsBuffer.instantiate]
    · simp [EventsBuffer.instantiate, own]
  refine ⟨instantiate_aged accounts.aged de peer, accounts.serials,
    fun p listed => Nat.lt_succ_of_lt (accounts.earlier p listed), fun notify n => ?_, accounts.known,
    fun p listed => ?_, fun p inside done => ?_, fun n other => ?_, accounts.weighed⟩
  · rw [marks]
    exact accounts.counts notify n
  · rw [marks]
    exact accounts.held p listed
  · rw [marks] at done
    exact accounts.stacked p inside done
  · rw [marks]
    exact accounts.fresh n other

variable {e : Pushed}

theorem serials_snoc (accounts : Accounts callback pushed stack s)
    (unused : ∀ p ∈ pushed, p.serial ≠ e.serial) :
    ((pushed ++ [e]).map Pushed.serial).Nodup := by
  rw [List.map_append, List.nodup_append]
  refine ⟨accounts.serials, List.nodup_singleton _, fun n old _ new same => ?_⟩
  obtain ⟨p, listed, rfl⟩ := List.mem_map.mp old
  rw [List.map_singleton, List.mem_singleton] at new
  exact unused p listed (same.trans new)

theorem Accounts.releaseNew (accounts : Accounts callback pushed stack s)
    (unused : ∀ p ∈ pushed, p.serial ≠ e.serial) (own : e.serial < s.pushes) :
    Accounts callback (pushed ++ [e]) stack (releaseEvent callback s e) := by
  have unreleased := accounts.fresh e.serial unused
  refine ⟨accounts.aged.of_sublist (by rw [releaseEvent_incompletes]) (releaseEvent_frame s e),
    serials_snoc accounts unused, fun p listed => ?_, fun notify n => ?_, fun p inside => ?_, fun p listed => ?_, fun p inside done => ?_, fun n other => ?_, ?_⟩
  · rw [releaseEvent_pushes]
    rcases List.mem_append.mp listed with old | new
    · exact accounts.earlier p old
    · exact List.mem_singleton.mp new ▸ own
  · rw [releaseEvent_releasesOf notify, releaseEvent_marks, accounts.counts notify]
    by_cases same : n = e.serial
    · subst same
      simp [unreleased]
    · simp [same]
  · rw [buffered_release] at inside
    exact List.mem_append_left _ (accounts.known p inside)
  · rw [buffered_release, releaseEvent_marks]
    split
    · exact .inr rfl
    · next other =>
      rcases List.mem_append.mp listed with old | new
      · exact accounts.held p old
      · exact absurd (congrArg Pushed.serial (List.mem_singleton.mp new)) other
  · rw [buffered_release] at inside
    rw [releaseEvent_marks, if_neg (unused p (accounts.known p inside))] at done
    exact accounts.stacked p inside done
  · rw [releaseEvent_marks, if_neg fun same => other e (by simp) same.symm]
    exact accounts.fresh n fun p old => other p (List.mem_append_left _ old)
  · rw [releaseEvent_incompletes]
    exact accounts.weighed

theorem Accounts.buffer (accounts : Accounts callback pushed stack s)
    (unused : ∀ p ∈ pushed, p.serial ≠ e.serial) (own : e.serial < s.pushes)
    (newest : ∀ p ∈ s.buffered, p.serial < e.serial)
    (absent : s.incompletes.peek e.event.id = none) (room : CacheRoom callback s e.event) :
    Accounts callback (pushed ++ [e]) stack (s.buffer callback e) := by
  have unreleased := accounts.fresh e.serial unused
  have entries := buffer_evictList accounts.aged.keyed absent room
  have grows : (s.buffer callback e).buffered = s.buffered ++ [e] := by
    rw [buffered, entries, List.map_append]
    rfl
  refine ⟨accounts.aged.grown absent own newest (by rw [entries]) ⟨rfl, rfl, rfl⟩,
    serials_snoc accounts unused, fun p listed => ?_, accounts.counts, fun p inside => ?_,
    fun p listed => ?_, fun p inside done => ?_, fun n other => ?_, fun ent inside => ?_⟩
  · rcases List.mem_append.mp listed with old | new
    · exact accounts.earlier p old
    · exact List.mem_singleton.mp new ▸ own
  · rw [grows] at inside
    exact (List.mem_append.mp inside).elim (fun old => List.mem_append_left _ (accounts.known p old))
      fun new => List.mem_append_right _ new
  · rw [grows]
    rcases List.mem_append.mp listed with old | new
    · exact (accounts.held p old).imp_left (List.mem_append_left _)
    · exact .inl (List.mem_append_right _ new)
  · rw [grows] at inside
    rcases List.mem_append.mp inside with old | new
    · exact accounts.stacked p old done
    · change (s.marks p.serial).released = true at done
      rw [List.mem_singleton.mp new, unreleased] at done
      cases done
  · exact accounts.fresh n fun p old => other p (List.mem_append_left _ old)
  · rw [entries] at inside
    rcases List.mem_append.mp inside with old | new
    · exact accounts.weighed ent old
    · rw [List.mem_singleton.mp new]

theorem pushEventInner_accounts (accounts : Accounts callback pushed [] s)
    (unused : ∀ p ∈ pushed, p.serial ≠ e.serial) (own : e.serial < s.pushes)
    (newest : ∀ p ∈ s.buffered, p.serial < e.serial)
    (absent : s.incompletes.peek e.event.id = none) (room : CacheRoom callback s e.event)
    (fuel : Nat) :
    Ensures (pushEventInner callback fuel e none false s) fun r =>
      Accounts callback (pushed ++ [e]) [] r.2 := by
  have noEntry := accounts.aged.keyed.absent absent
  cases fuel with
  | zero => exact ensures_error
  | succ fuel =>
    rw [pushEventInner]
    split
    · refine ensures_ok ?_
      dsimp only
      rw [if_neg Bool.false_ne_true, remove_of_absent accounts.aged.keyed noEntry]
      exact (accounts.dropEvent e _).releaseNew unused ((dropEvent_frame s e _).1.symm ▸ own)
    · split
      · exact ensures_ok (accounts.buffer unused own newest absent room)
      · next parents _ =>
        have same := @processCompleteEvent_books _ _ callback s e parents
        have after := (accounts.quiet same).releaseNew unused (same.pushes.symm ▸ own)
        have still : (releaseEvent callback (processCompleteEvent callback s e parents).2 e).buffered =
            s.buffered := (buffered_release _ e).trans same.buffered
        split
        · next t run =>
          rw [run] at after still
          refine ensures_ok ?_
          dsimp only
          rw [remove_of_absent after.aged.keyed (still ▸ noEntry)]
          exact after
        · next t run =>
          rw [run] at after still
          dsimp only [Option.getD_none] at after still ⊢
          have members : ∀ p, p ∈ (releaseEvent callback t e).getIncompleteEventsList ↔
              p ∈ s.buffered := fun p => by
            rw [after.aged.keyed.mem_getIncompleteEventsList, still]
          have part : ∀ p ∈ (releaseEvent callback t e).getIncompleteEventsList,
              p ∈ pushed ++ [e] := fun p listed =>
            List.mem_append_left _ (accounts.known p ((members p).mp listed))
          have distinct : ∀ p ∈ (releaseEvent callback t e).getIncompleteEventsList,
              ∀ q ∈ (releaseEvent callback t e).getIncompleteEventsList,
              p.event.id = q.event.id → p = q := fun p first q second =>
            accounts.aged.keyed.distinct ((members p).mp first) ((members q).mp second)
          refine ensures_bind (visitChildren_visiting _ after
            (fun p inside => (members p).mpr (still ▸ inside)) fun child member u =>
              pushEventInner_visiting part distinct fuel child [] u member)
            fun u visited => ensures_ok ?_
          dsimp only
          rw [remove_of_absent visited.accounts.aged.keyed fun p inside =>
            noEntry p ((members p).mp (visited.covered p inside))]
          exact visited.accounts

theorem Spills.accounts {limit : Metric} {evicted : List Pushed}
    (spills : Spills callback limit s evicted t) (accounts : Accounts callback pushed [] s) :
    Accounts callback pushed [] t := by
  induction spills with
  | done => exact accounts
  | @evict s t ent rest _ chosen _ ih =>
    refine ih ?_
    have inside : ent.value ∈ s.buffered := List.mem_map.mpr ⟨ent, chosen.inside, rfl⟩
    have order : s.evict callback ent =
        (releaseEvent callback (s.dropEvent ent.value .spilledEvent) ent.value).remove
          ent.value.event.id := by
      rw [EventsBuffer.evict, dropEvent_remove, releaseEvent_remove,
        accounts.aged.keyed.key ent chosen.inside]
    rw [order]
    refine (accounts.dropEvent ent.value _).leave (accounts.known _ inside) fun p other => ?_
    rw [(dropEvent_books s ent.value .spilledEvent).buffered] at other
    exact accounts.aged.keyed.distinct other inside

end Push

section Runs

def Action.pushes : Action → Option (Event × String)
  | .push de peer => some (de, peer)
  | .clear => none

def instances (actions : List Action) : List Pushed :=
  (actions.filterMap Action.pushes).mapIdx fun n item => ⟨n, item.1, item.2⟩

theorem instances_push (actions : List Action) (de : Event) (peer : String) :
    instances (actions ++ [.push de peer]) =
      instances actions ++ [⟨(instances actions).length, de, peer⟩] := by
  simp [instances, Action.pushes, List.mapIdx_append]

theorem instances_clear (actions : List Action) :
    instances (actions ++ [.clear]) = instances actions := by
  have nothing : [Action.clear].filterMap Action.pushes = [] := rfl
  rw [instances, List.filterMap_append, nothing, List.append_nil]
  rfl

theorem accounts_new (world : World) :
    Accounts callback [] [] (new world : EventsBuffer World Err) := by
  obtain ⟨aged, _⟩ := @run_aged _ _ callback ⟨0, 0⟩ world [] _ rfl
  exact ⟨aged, List.nodup_nil, nofun, fun _ _ => rfl, nofun, nofun, nofun, fun _ _ => rfl, nofun⟩

variable {limit : Metric} {largest : Nat}

/-- The account of a push before it spills. -/
def Booked (callback : Callback World Err) (pushed : List Pushed) (s : EventsBuffer World Err) (de : Event)
    (peer : String) (mid : EventsBuffer World Err) : Prop :=
  Accounts callback (pushed ++ [⟨s.pushes, de, peer⟩]) [] mid ∧ mid.pushes = s.pushes + 1

theorem known_booked (accounts : Accounts callback pushed [] s) (de : Event) (peer : String) :
    Booked callback pushed s de peer (releaseEvent callback ((s.instantiate de peer).2.dropEvent
      ⟨s.pushes, de, peer⟩ .duplicateEvent) ⟨s.pushes, de, peer⟩) := by
  refine ⟨((accounts.instantiate de peer).dropEvent _ _).releaseNew
    (fun p listed => (accounts.earlier p listed).ne) ?_,
    ((dropEvent_frame _ _ _).trans (releaseEvent_frame _ _)).1⟩
  rw [(dropEvent_frame _ _ _).1]
  exact Nat.lt_succ_self _

theorem fresh_booked (accounts : Accounts callback pushed [] s) {de : Event}
    (room : CacheRoom callback s de) (peer : String) (absent : s.incompletes.peek de.id = none) :
    Ensures (pushEventInner callback (s.incompletes.len + 2) ⟨s.pushes, de, peer⟩ none false
      (s.instantiate de peer).2) fun r => Booked callback pushed s de peer r.2 := by
  have inner := pushEventInner_accounts (e := ⟨s.pushes, de, peer⟩) (accounts.instantiate de peer)
    (fun p listed => (accounts.earlier p listed).ne) (Nat.lt_succ_self _) accounts.aged.used absent room
    (s.incompletes.len + 2)
  exact ensures_mono (ensures_and inner (pushEventInner_fewer _ _ _ _ _)) fun r after =>
    ⟨after.1, after.2.2.1⟩

theorem within_room (num : limit.num < maxInt32) (size : limit.size + largest ≤ maxInt32)
    (aged : Aged s) (within : ¬ Exceeds limit s) {de : Event} (fits : callback.size de ≤ largest) :
    CacheRoom callback s de := by
  obtain ⟨few, light⟩ := not_or.mp within
  rw [not_lt] at few light
  refine ⟨?_, ?_⟩
  · rw [aged.limits.2]
    exact (Nat.succ_le_succ few).trans num
  · rw [aged.limits.1]
    exact (Nat.add_le_add light fits).trans size

theorem run_accounts (num : limit.num < maxInt32) (size : limit.size + largest ≤ maxInt32)
    (world : World) (actions : List Action)
    (fits : ∀ p ∈ instances actions, callback.size p.event ≤ largest) :
    Ensures (actions.foldlM (step callback limit) (new world)) fun s =>
      Accounts callback (instances actions) [] s ∧ (instances actions).length = s.pushes := by
  induction actions using List.reverseRecOn with
  | nil =>
    exact ensures_ok ⟨accounts_new world, rfl⟩
  | append_singleton actions a ih =>
    simp only [List.foldlM_append, List.foldlM_cons, List.foldlM_nil, bind_pure]
    cases a with
    | push de peer =>
      rw [instances_push] at fits ⊢
      have before := ih fun p listed => fits p (List.mem_append_left _ listed)
      refine ensures_bind (ensures_and before (run_aged limit world actions)) fun s held => ?_
      obtain ⟨⟨accounts, number⟩, aged, within⟩ := held
      have room := within_room num size aged within
        (fits ⟨_, de, peer⟩ (List.mem_append_right _ (List.mem_singleton_self _)))
      refine ensures_bind (pushEvent_mid within (known_booked accounts de peer)
        (fresh_booked accounts room peer)) fun r after => ensures_ok ?_
      obtain ⟨mid, ⟨settled, more⟩, is, _⟩ := after
      obtain ⟨evicted, spills⟩ := spillIncompletes_spills callback limit settled.aged
      rw [is]
      refine ⟨number ▸ spills.accounts settled, ?_⟩
      rw [List.length_append, spills.frame.1, more, number]
      rfl
    | clear =>
      rw [instances_clear] at fits ⊢
      refine ensures_bind (ih fits) fun s held => ?_
      obtain ⟨accounts, number⟩ := held
      obtain ⟨evicted, spills⟩ := spillIncompletes_spills callback ⟨0, 0⟩ accounts.aged
      exact ensures_ok ⟨spills.accounts accounts, number.trans spills.frame.1.symm⟩

end Runs

section Returns

theorem pushEventInner_ends {fuel : Nat} {e : Pushed} {given : Option (List Pushed)} {recheck : Bool}
    (loop : ∀ t, t.incompletes = s.incompletes →
      Yields ((given.getD t.getIncompleteEventsList).foldlM (visitChild (fun child u =>
        pushEventInner callback fuel child (some (given.getD t.getIncompleteEventsList)) true u)
        e.event.id) t) fun _ => True) :
    Yields (pushEventInner callback (fuel + 1) e given recheck s) fun _ => True := by
  rw [pushEventInner]
  split
  · exact yields_ok trivial
  · split
    · exact yields_ok trivial
    · next parents _ =>
      have same := @processCompleteEvent_books _ _ callback s e parents
      split
      · exact yields_ok trivial
      · next t run =>
        rw [run] at same
        exact yields_bind (loop _ ((releaseEvent_incompletes t e).trans same.incompletes))
          fun _ _ => yields_ok trivial

variable {rank : EventID → Nat}

def higher (rank : EventID → Nat) (list : List Pushed) (id : EventID) : List Pushed :=
  list.filter fun p => rank id < rank p.event.id

variable {id : EventID} {list : List Pushed}

theorem higher_lt {child : Pushed} (listed : child ∈ list) (above : rank id < rank child.event.id) :
    (higher rank list child.event.id).length < (higher rank list id).length := by
  have inside : child ∈ higher rank list id := List.mem_filter.mpr ⟨listed, by simpa using above⟩
  have fewer : higher rank list child.event.id =
      (higher rank list id).filter fun p => rank child.event.id < rank p.event.id := by
    rw [higher, higher, List.filter_filter]
    refine List.filter_congr fun p _ => ?_
    rw [← Bool.decide_and, decide_eq_decide]
    exact ⟨fun more => ⟨more, above.trans more⟩, And.left⟩
  rw [fewer]
  exact List.length_filter_lt_length_iff_exists.mpr ⟨child, inside, by simp⟩

theorem visitChildren_returns
    {push : Pushed → EventsBuffer World Err → Except Halt (Bool × EventsBuffer World Err)}
    (each : ∀ child ∈ list, id ∈ child.event.parents → ∀ u, Yields (push child u) fun _ => True) :
    Yields (list.foldlM (visitChild push id) s) fun _ => True := by
  refine @yields_foldlM _ _ _ _ (fun _ _ => True) list [] s trivial fun before child after u split _ => ?_
  unfold visitChild
  split
  · next isChild =>
    exact yields_bind (each child (by simp [split]) isChild u) fun _ _ => yields_ok trivial
  · exact yields_ok trivial

/-- Each nested call is for an event of higher rank. -/
theorem pushEventInner_returns
    (acyclic : ∀ p ∈ list, ∀ q ∈ p.event.parents, rank q < rank p.event.id) :
    ∀ (fuel : Nat) (e : Pushed) (s : EventsBuffer World Err),
      (higher rank list e.event.id).length < fuel →
      Yields (pushEventInner callback fuel e (some list) true s) fun _ => True := by
  intro fuel
  induction fuel with
  | zero => exact fun _ _ enough => absurd enough (Nat.not_lt_zero _)
  | succ fuel ih =>
    intro e s enough
    refine pushEventInner_ends fun t _ => visitChildren_returns fun child listed isChild u => ?_
    have fewer := higher_lt listed (acyclic child listed _ isChild)
    exact ih child u (fewer.trans_le (Nat.lt_succ_iff.mp enough))

theorem pushEvent_returns (limit : Metric) (keyed : s.Keyed)
    (acyclic : ∀ p ∈ s.buffered, ∀ q ∈ p.event.parents, rank q < rank p.event.id) (de : Event)
    (peer : String) : Yields (s.pushEvent callback limit de peer) fun _ => True := by
  refine pushEvent_cases (Yields · _) (fun _ _ => ?_) fun _ => ?_
  · exact yields_ok trivial
  · refine yields_bind (pushEventInner_ends fun t same => ?_) fun _ _ => yields_ok trivial
    change t.incompletes = s.incompletes at same
    have keyed' : t.Keyed := keyed.sublist (by rw [same])
    refine visitChildren_returns fun child listed _ u => ?_
    refine pushEventInner_returns (fun p member => acyclic p ?_) _ child u ?_
    · rwa [Option.getD_none, keyed'.mem_getIncompleteEventsList, buffered, same] at member
    · refine Nat.lt_succ_of_le ((List.length_filter_le _ _).trans ?_)
      rw [Option.getD_none]
      refine (getIncompleteEventsList_length t).trans ?_
      rw [same]

theorem run_returns {limit : Metric} {largest : Nat}
    (num : limit.num < maxInt32) (size : limit.size + largest ≤ maxInt32) (world : World)
    (actions : List Action) (fits : ∀ p ∈ instances actions, callback.size p.event ≤ largest)
    (acyclic : ∀ p ∈ instances actions, ∀ q ∈ p.event.parents, rank q < rank p.event.id) :
    Yields (actions.foldlM (step callback limit) (new world)) fun _ => True := by
  induction actions using List.reverseRecOn with
  | nil => exact yields_ok trivial
  | append_singleton actions a ih =>
    simp only [List.foldlM_append, List.foldlM_cons, List.foldlM_nil, bind_pure]
    cases a with
    | push de peer =>
      rw [instances_push] at fits acyclic
      have small := fun p listed => fits p (List.mem_append_left _ listed)
      have lower := fun p listed => acyclic p (List.mem_append_left _ listed)
      refine yields_bind (yields_and (ih small lower)
        (run_accounts num size world actions small)) fun s held => ?_
      obtain ⟨_, accounts, _⟩ := held
      exact yields_bind (pushEvent_returns limit accounts.aged.keyed
        (fun p inside => lower p (accounts.known p inside)) de peer) fun _ _ => yields_ok trivial
    | clear =>
      rw [instances_clear] at fits acyclic
      exact yields_bind (ih fits acyclic) fun _ _ => yields_ok trivial

end Returns

def unreleased (pushed : List Pushed) (s : EventsBuffer World Err) : List Pushed :=
  pushed.filter fun p => releasesOf p.serial s.calls = 0

section Waiting

variable (notify : callback.released.isSome)

include notify

theorem Accounts.waiting (accounts : Accounts callback pushed [] s) :
    s.buffered.Perm (unreleased pushed s) := by
  refine (List.perm_ext_iff_of_nodup ?_ ?_).mpr fun p => ?_
  · exact accounts.aged.ascending.imp fun before same => absurd (congrArg Pushed.serial same) before.ne
  · exact (List.Nodup.of_map _ accounts.serials).filter _
  · simp only [unreleased, List.mem_filter, decide_eq_true_eq, accounts.counts notify]
    constructor
    · intro inside
      refine ⟨accounts.known p inside, if_neg fun done => ?_⟩
      cases accounts.stacked p inside done
    · rintro ⟨listed, none_⟩
      refine (accounts.held p listed).resolve_right fun done => ?_
      rw [if_pos done] at none_
      cases none_

theorem Accounts.total (accounts : Accounts callback pushed [] s) :
    s.total = ⟨(unreleased pushed s).length,
      ((unreleased pushed s).map fun p => callback.size p.event).sum⟩ := by
  have same := accounts.waiting notify
  have count : s.incompletes.len = (unreleased pushed s).length := by
    rw [← same.length_eq, buffered, List.length_map]
    rfl
  have weight : s.incompletes.weight =
      ((unreleased pushed s).map fun p => callback.size p.event).sum := by
    rw [← (same.map _).sum_eq, buffered, List.map_map, Cache.weight]
    exact congrArg List.sum (List.map_congr_left accounts.weighed)
  rw [EventsBuffer.total, count, weight]

theorem Accounts.isBuffered (accounts : Accounts callback pushed [] s) {p : Pushed}
    (waiting : p ∈ unreleased pushed s) : s.isBuffered p.event.id := by
  obtain ⟨ent, inside, rfl⟩ := List.mem_map.mp ((accounts.waiting notify).mem_iff.mpr waiting)
  rw [EventsBuffer.isBuffered, ← accounts.aged.keyed.key ent inside, accounts.aged.keyed.peek inside]
  rfl

end Waiting

/-- Every run returns if no event is its own ancestor, and each push was released at most once; one that
was not is buffered and counted by `Total`. -/
theorem pushes_released_once (notify : callback.released.isSome) {limit : Metric} {largest : Nat}
    (num : limit.num < maxInt32) (size : limit.size + largest ≤ maxInt32) (world : World)
    (actions : List Action) (fits : ∀ p ∈ instances actions, callback.size p.event ≤ largest) :
    (∀ rank : EventID → Nat,
      (∀ p ∈ instances actions, ∀ q ∈ p.event.parents, rank q < rank p.event.id) →
      ∃ s, actions.foldlM (step callback limit) (new world) = .ok s) ∧
    ∀ s, actions.foldlM (step callback limit) (new world) = .ok s →
      (∀ calls, calls <+: s.calls → ∀ n, releasesOf n calls ≤ 1) ∧
      (∀ p ∈ unreleased (instances actions) s, s.isBuffered p.event.id) ∧
      s.total = ⟨(unreleased (instances actions) s).length,
        ((unreleased (instances actions) s).map fun p => callback.size p.event).sum⟩ ∧
      ∀ p ∈ instances actions, releasesOf p.serial (s.clear callback).calls = 1 := by
  refine ⟨fun rank acyclic => ?_, fun s reached => ?_⟩
  · obtain ⟨s, run, _⟩ := run_returns num size world actions fits acyclic
    exact ⟨s, run⟩
  · obtain ⟨accounts, _⟩ := run_accounts num size world actions fits s reached
    refine ⟨fun calls first n => ?_, fun p => accounts.isBuffered notify,
      accounts.total notify, fun p listed => ?_⟩
    · refine (first.sublist.countP_le).trans ?_
      change releasesOf n s.calls ≤ 1
      rw [accounts.counts notify]
      split <;> omega
    · obtain ⟨evicted, spills⟩ := spillIncompletes_spills callback ⟨0, 0⟩ accounts.aged
      have after := spills.accounts accounts
      have empty : (s.clear callback).incompletes.evictList = [] := spillRounds_empty _ _ le_rfl
      refine (after.counts notify p.serial).trans (if_pos ((after.held p listed).resolve_left ?_))
      change p ∉ (s.clear callback).incompletes.evictList.map Entry.value
      rw [empty]
      exact List.not_mem_nil

/-- After a push the buffer is within its limits. What it evicted went one by one while a limit was
exceeded, an important event only when all were, and the oldest first; within the bound of the cache
nothing else leaves the buffer unreleased. -/
theorem spilling_respects_limits (limit : Metric) (world : World) {actions : List Action}
    {s t : EventsBuffer World Err}
    (reached : actions.foldlM (step callback limit) (new world) = .ok s) {de : Event}
    {peer : String} {complete : Bool}
    (pushed : s.pushEvent callback limit de peer = .ok (complete, t)) :
    (t.total.num ≤ limit.num ∧ t.total.size ≤ limit.size) ∧
    ∃ mid evicted, Spills callback limit mid evicted t ∧
      (s.incompletes.peek de.id = none →
        pushEventInner callback (s.incompletes.len + 2) ⟨s.pushes, de, peer⟩ none false
          (s.instantiate de peer).2 = .ok (complete, mid)) ∧
      (callback.isImportant = none → t = spillFast callback limit mid.incompletes.len mid) ∧
      (∀ isImportant, callback.isImportant = some isImportant →
        t = spillSlow callback isImportant limit mid.incompletes.len mid) ∧
      (∀ isImportant, (∀ e, isImportant e = false) → ∀ limit rounds,
        spillSlow callback isImportant limit rounds mid = spillFast callback limit rounds mid) ∧
      ∀ largest, limit.num < maxInt32 → limit.size + largest ≤ maxInt32 →
        (∀ p ∈ instances (actions ++ [.push de peer]), callback.size p.event ≤ largest) →
        ∀ p ∈ instances (actions ++ [.push de peer]),
          p ∈ mid.buffered ∨ (mid.marks p.serial).released = true := by
  obtain ⟨aged, within⟩ := run_aged limit world actions s reached
  obtain ⟨mid, ⟨before, held⟩, is, inner⟩ := pushEvent_mid (P := fun mid => Aged mid ∧
      (Accounts callback (instances actions) [] s → CacheRoom callback s de →
        Accounts callback (instances actions ++ [⟨s.pushes, de, peer⟩]) [] mid)) within
    ⟨known_aged aged de peer, fun accounts _ => (known_booked accounts de peer).1⟩
    (fun absent r run => ⟨fresh_aged aged peer absent r run, fun accounts room =>
      (fresh_booked accounts room peer absent r run).1⟩) _ pushed
  obtain ⟨evicted, spills⟩ := spillIncompletes_spills callback limit before
  dsimp only at is inner
  subst is
  have fits := not_or.mp spills.within
  refine ⟨⟨not_lt.mp fits.1, not_lt.mp fits.2⟩, mid, evicted, spills, inner, fun plain => ?_,
    fun isImportant given => ?_, fun isImportant never limit rounds => ?_,
    fun largest num size fits => ?_⟩
  · exact spillRounds_fast plain limit _ mid before.keyed
  · exact spillRounds_slow given limit _ mid before.keyed
  · exact spillSlow_eq_spillFast never limit rounds mid before.keyed
  · rw [instances_push] at fits ⊢
    obtain ⟨accounts, number⟩ := run_accounts num size world actions
      (fun p listed => fits p (List.mem_append_left _ listed)) s reached
    have room := within_room num size aged within
      (fits ⟨_, de, peer⟩ (List.mem_append_right _ (List.mem_singleton_self _)))
    exact number ▸ (held accounts room).held

section Sample

def guarded : Callback (List Event) Unit where
  size e := e.parents.length + 1
  process kept e := (none, e :: kept)
  released := some fun kept _ _ _ => kept
  get kept id := kept.find? fun e => e.id == id
  existsEvent kept id := (kept.find? fun e => e.id == id).isSome
  check := none
  isImportant := some fun e => e.creator == 1

def orphan (creator id : Nat) : Event := ⟨1, 2, 1, creator, [100], 2, id⟩

def bulky : Callback (List Event) Unit := { guarded with size := fun _ => 2 ^ 30 - 1 }

end Sample

/-- The third event is too many for the cache itself, which drops the important one and tells nobody. -/
theorem important_lost : ∃ s : EventsBuffer (List Event) Unit,
    [.push (orphan 1 1) "a", .push (orphan 2 2) "b", .push (orphan 2 3) "c"].foldlM
      (step bulky ⟨10, 2 ^ 40⟩) (new []) = .ok s ∧
    s.buffered.map Pushed.event = [orphan 2 2, orphan 2 3] ∧ delivered s.calls = [] :=
  ⟨_, rfl, rfl, rfl⟩

/-- There is room for one event: the important one stays although it is older, and the other one has been
in the buffer. -/
theorem spilling_respects_limits_important : ∃ (s t mid : EventsBuffer (List Event) Unit) (evicted : _),
    [Action.push (orphan 1 1) "a"].foldlM (step guarded ⟨1, 10⟩) (new []) = .ok s ∧
    s.pushEvent guarded ⟨1, 10⟩ (orphan 2 2) "b" = .ok (false, t) ∧
    t.buffered.map Pushed.event = [orphan 1 1] ∧ t.total.num ≤ 1 ∧ t.total.size ≤ 10 ∧
    Spills guarded ⟨1, 10⟩ mid evicted t ∧ ∀ p ∈ instances [.push (orphan 1 1) "a", .push (orphan 2 2) "b"],
      p ∈ mid.buffered ∨ (mid.marks p.serial).released = true := by
  obtain ⟨s, t, reached, pushed, kept⟩ : ∃ s t : EventsBuffer (List Event) Unit,
      [Action.push (orphan 1 1) "a"].foldlM (step guarded ⟨1, 10⟩) (new []) = .ok s ∧
      s.pushEvent guarded ⟨1, 10⟩ (orphan 2 2) "b" = .ok (false, t) ∧
      t.buffered.map Pushed.event = [orphan 1 1] := ⟨_, _, rfl, rfl, rfl⟩
  obtain ⟨within, mid, evicted, spills, _, _, _, _, held⟩ :=
    spilling_respects_limits ⟨1, 10⟩ [] reached pushed
  exact ⟨s, t, mid, evicted, reached, pushed, kept, within.1, within.2, spills,
    held 2 (by norm_num [maxInt32]) (by norm_num [maxInt32]) (by decide)⟩

section Sample

def crowd : List Action :=
  [.push (orphan 1 1) "a", .push (orphan 1 1) "b", .push (orphan 2 2) "c"]

theorem instances_crowd : instances crowd =
    [⟨0, orphan 1 1, "a"⟩, ⟨1, orphan 1 1, "b"⟩, ⟨2, orphan 2 2, "c"⟩] := rfl

end Sample

/-- There is room for one event. -/
theorem pushes_released_once_spilled : ∃ s : EventsBuffer (List Event) Unit,
    crowd.foldlM (step guarded ⟨1, 10⟩) (new []) = .ok s ∧ s.total.num = 1 ∧
    ∀ p ∈ instances crowd, releasesOf p.serial s.calls ≤ 1 ∧
      releasesOf p.serial (s.clear guarded).calls = 1 := by
  have small : ∀ p ∈ instances crowd, guarded.size p.event ≤ 2 := by
    rw [instances_crowd]
    decide
  have lower : ∀ p ∈ instances crowd, ∀ q ∈ p.event.parents,
      (if q = 100 then 0 else 1) < if p.event.id = 100 then 0 else 1 := by
    simp [instances_crowd, orphan]
  have results := @pushes_released_once _ _ guarded rfl ⟨1, 10⟩ 2 (by norm_num [maxInt32])
    (by norm_num [maxInt32]) [] crowd small
  obtain ⟨s, reached⟩ := results.1 (fun id => if id = 100 then 0 else 1) lower
  obtain ⟨once, _, _, cleared⟩ := results.2 s reached
  have one : s.total.num = 1 := by
    obtain rfl := Except.ok.inj reached
    rfl
  exact ⟨s, reached, one, fun p listed => ⟨once _ ⟨[], List.append_nil _⟩ _, cleared p listed⟩⟩

end Lachesis.Gossip.Dagordering.EventsBuffer
