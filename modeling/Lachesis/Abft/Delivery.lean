import Lachesis.Abft.Cheaters
import Lachesis.Abft.Lives

/-!
What the application is told. A block is delivered by a walk from its Atropos over the events that no
earlier block confirmed; it goes through each of them once, whatever order the stack gives.
-/

namespace Lachesis.Abft

open Dag Pos Triples Vecfc Vecengine

section Walk

variable {App : Type} {input : EventSource} {marks : List (EventID × Nat)} {frame : Nat}
  {atropos : EventID}

def applyEvents (applyEvent : Option (App → Event → App)) (app : App) (events : List Event) : App :=
  match applyEvent with
  | none => app
  | some apply => events.foldl apply app

/-- The second identifier is that of an ancestor of the first, or the same. -/
def Reaches (input : EventSource) : EventID → EventID → Prop :=
  Relation.ReflTransGen fun i j => j ∈ parentsOf input i

def isConfirmed (marks : List (EventID × Nat)) (id : EventID) : Bool :=
  decide (Store.getEventConfirmedOn marks id ≠ 0)

@[simp] theorem getEventConfirmedOn_set (id id' : EventID) :
    Store.getEventConfirmedOn (Store.setEventConfirmedOn marks id frame) id' =
      if id' = id then frame else Store.getEventConfirmedOn marks id' := by
  unfold Store.getEventConfirmedOn Store.setEventConfirmedOn
  rw [List.lookup_cons]
  by_cases same : id' = id
  · simp [same]
  · rw [beq_false_of_ne same, if_neg same]

structure Marking (input : EventSource) (frame : Nat) (applyEvent : Option (App → Event → App))
    (marks : List (EventID × Nat)) (app : App) (s : Confirming App) (entered : List EventID) :
    Prop where
  marks : ∀ id, Store.getEventConfirmedOn s.confirmedEvent id =
    if id ∈ entered then frame else Store.getEventConfirmedOn marks id
  entered : s.confirmed.map Event.id = entered
  events : ∀ e ∈ s.confirmed, input.getEvent e.id = some e
  app : s.app = applyEvents applyEvent app s.confirmed

theorem applyEvents_snoc (applyEvent : Option (App → Event → App)) (app : App) (events : List Event)
    (e : Event) : applyEvents applyEvent app (events ++ [e]) =
      match applyEvent with
      | none => applyEvents applyEvent app events
      | some apply => apply (applyEvents applyEvent app events) e := by
  cases applyEvent with
  | none => rfl
  | some apply => rw [applyEvents, List.foldl_append]; rfl

variable {app : App} {applyEvent : Option (App → Event → App)} {seen : List EventID}
  {s : Confirming App} {id : EventID}

theorem confirmEvent_skips (positive : 0 < frame)
    (marking : Marking input frame applyEvent marks app s seen)
    (found : ∃ e, input.getEvent id = some e) (stop : isConfirmed marks id = true ∨ id ∈ seen) :
    ∃ s', confirmEvent input frame applyEvent s id = .ok (none, s') ∧
      Marking input frame applyEvent marks app s' seen := by
  obtain ⟨e, isE⟩ := found
  obtain rfl := getEvent_id isE
  have mark : Store.getEventConfirmedOn s.confirmedEvent e.id ≠ 0 := by
    rw [marking.marks]
    split
    · omega
    · next out => simpa [isConfirmed] using stop.resolve_right out
  exact ⟨s, by simp [confirmEvent, isE, mark], marking⟩

theorem confirmEvent_enters (marking : Marking input frame applyEvent marks app s seen)
    (found : ∃ e, input.getEvent id = some e) (isOpen : isConfirmed marks id = false)
    (fresh : id ∉ seen) :
    ∃ s', confirmEvent input frame applyEvent s id = .ok (some (parentsOf input id), s') ∧
      Marking input frame applyEvent marks app s' (seen ++ [id]) := by
  obtain ⟨e, isE⟩ := found
  obtain rfl := getEvent_id isE
  have blank : Store.getEventConfirmedOn s.confirmedEvent e.id = 0 := by
    rw [marking.marks, if_neg fresh]
    simpa [isConfirmed] using isOpen
  refine ⟨{ confirmedEvent := Store.setEventConfirmedOn s.confirmedEvent e.id frame
            app := applyEvents applyEvent app (s.confirmed ++ [e])
            confirmed := s.confirmed ++ [e] }, ?_, fun j => ?_, ?_, fun x inX => ?_, rfl⟩
  · simp only [confirmEvent, isE, blank, parentsOf, ne_eq, not_true_eq_false, ↓reduceIte]
    cases applyEvent <;> rw [applyEvents_snoc, ← marking.app]
  · rw [getEventConfirmedOn_set, marking.marks]
    by_cases same : j = e.id <;> simp [same]
  · rw [List.map_append, marking.entered]
    rfl
  · rcases List.mem_append.mp inX with old | new
    · exact marking.events x old
    · exact List.mem_singleton.mp new ▸ isE

theorem confirmFuel_enough (atropos : EventID) {nodes : Finset EventID}
    (known : ∀ id ∈ nodes, ∃ e, input.getEvent id = some e) :
    StackWalk.budget (parentsOf input) nodes [atropos] [] ≤ confirmFuel input := by
  classical
  let events := nodes.toList.filterMap input.getEvent
  have nodup : events.Nodup := by
    refine List.Nodup.filterMap (fun id id' e found found' => ?_) nodes.nodup_toList
    exact (getEvent_id found).symm.trans (getEvent_id found')
  have part : events ⊆ input.events := by
    intro e member
    obtain ⟨id, _, found⟩ := List.mem_filterMap.mp member
    exact getEvent_mem found
  have total : ∑ id ∈ nodes, (parentsOf input id).length =
      (events.map fun e => e.parents.length).sum := by
    rw [← Finset.sum_map_toList]
    have all : ∀ id ∈ nodes.toList, ∃ e, input.getEvent id = some e := fun id member =>
      known id (Finset.mem_toList.mp member)
    change _ = ((nodes.toList.filterMap input.getEvent).map _).sum
    generalize nodes.toList = ids at all
    induction ids with
    | nil => rfl
    | cons id rest ih =>
      obtain ⟨⟨e, found⟩, later⟩ := List.forall_mem_cons.mp all
      rw [List.filterMap_cons_some found, List.map_cons, List.map_cons, List.sum_cons,
        List.sum_cons, ih later, parentsOf, found]
  have more : (events.map fun e => e.parents.length).sum ≤
      (input.events.map fun e => e.parents.length).sum := by
    obtain ⟨picked, perm, sub⟩ := nodup.subperm part
    rw [← (perm.map _).sum_eq]
    exact (sub.map _).sum_le_sum fun _ _ => Nat.zero_le _
  simp only [StackWalk.budget, confirmFuel, List.length_singleton, List.toFinset_nil,
    Finset.sdiff_empty]
  omega

theorem exists_ancestors (known : ∀ id, Reaches input atropos id → ∃ e, input.getEvent id = some e) :
    ∃ nodes : Finset EventID, ∀ id, id ∈ nodes ↔ Reaches input atropos id := by
  classical
  refine ⟨(input.events.map Event.id).toFinset.filter (Reaches input atropos), fun id => ?_⟩
  rw [Finset.mem_filter, and_iff_right_iff_imp]
  intro reaches
  obtain ⟨e, found⟩ := known id reaches
  exact List.mem_toFinset.mpr (List.mem_map.mpr ⟨e, getEvent_mem found, getEvent_id found⟩)

/-- The walk returns when all ancestors of the Atropos are in the source. It goes through the ancestors
that are not confirmed, each once, if what is confirmed has confirmed parents. -/
theorem confirmEvents_walks (applyEvent : Option (App → Event → App))
    (marks : List (EventID × Nat)) (app : App) (positive : 0 < frame)
    (known : ∀ id, Reaches input atropos id → ∃ e, input.getEvent id = some e) :
    ∃ done entered, confirmEvents input frame atropos applyEvent marks app = .ok done ∧
      Marking input frame applyEvent marks app done entered ∧ entered.Nodup ∧
      ((∀ id, isConfirmed marks id = true → ∀ j ∈ parentsOf input id, isConfirmed marks j = true) →
        ∀ id, id ∈ entered ↔ isConfirmed marks id = false ∧ Reaches input atropos id) := by
  obtain ⟨nodes, ancestors⟩ := exists_ancestors known
  have found : ∀ id ∈ nodes, ∃ e, input.getEvent id = some e := fun id member =>
    known id ((ancestors id).mp member)
  have inside : ∀ id ∈ nodes, ∀ j ∈ parentsOf input id, j ∈ nodes := fun id member j parent =>
    (ancestors j).mpr (((ancestors id).mp member).tail parent)
  have start : ∀ id ∈ [atropos], id ∈ nodes := by
    simpa using (ancestors atropos).mpr .refl
  have enough := confirmFuel_enough atropos found
  obtain ⟨done, run, marking⟩ := StackWalk.walk_trail (parentsOf input) (isConfirmed marks)
    (confirmEvent input frame applyEvent) .outOfFuel (Marking input frame applyEvent marks app)
    inside
    (fun s seen id marking member stop => confirmEvent_skips positive marking (found id member) stop)
    (fun s seen id marking member => confirmEvent_enters marking (found id member))
    (confirmFuel input) [atropos] [] ⟨marks, app, []⟩
    ⟨by simp, rfl, by simp, by cases applyEvent <;> rfl⟩ start enough
  refine ⟨done, _, run, marking, StackWalk.trail_nodup _ _ _ _ _ List.nodup_nil, fun closed id => ?_⟩
  rw [StackWalk.mem_trail _ _ inside (fun id _ => closed id) start enough]
  simp [Reaches]

end Walk

section Deliveries

variable {App : Type} {input : EventSource} {frame : Nat}
  {beginBlock : App → Block → BlockCallbacks App × App}

def deliver (input : EventSource) (beginBlock : App → Block → BlockCallbacks App × App)
    (frame : Nat) (block : Block) (t : Told App) : Except Halt (Option Validators × Told App) := do
  let (blockCallback, app) := beginBlock t.app block
  let done ← confirmEvents input frame block.atropos blockCallback.applyEvent t.confirmedEvent app
  let (newValidators, app) := match blockCallback.endBlock with
    | none => (none, done.app)
    | some endBlock => endBlock done.app
  return (newValidators,
    ⟨done.confirmedEvent, app, t.blocks ++ [⟨frame, block, done.confirmed⟩]⟩)

/-- Without `BeginBlock` a decision is told to nobody. -/
def announce (input : EventSource) (cb : ConsensusCallbacks App) (frame : Nat) (block : Block)
    (t : Told App) : Except Halt (Option Validators × Told App) :=
  match cb.beginBlock with
  | none => .ok (none, t)
  | some beginBlock => deliver input beginBlock frame block t

/-- The blocks are delivered in turn, for the frames from the first on, and only the last may seal the
epoch. -/
inductive Replays (input : EventSource) (cb : ConsensusCallbacks App) (start : Told App) :
    List Block → Option Validators → Told App → Prop where
  | nil : Replays input cb start [] none start
  | snoc {blocks : List Block} {block : Block} {next : Option Validators} {t t' : Told App}
      (before : Replays input cb start blocks none t)
      (run : announce input cb (blocks.length + 1) block t = .ok (next, t')) :
      Replays input cb start (blocks ++ [block]) next t'

variable {vv : Validators} {D : EventDag vv}

variable {a x : Event} {block : Block} {b : EmittedBlock} {marks : List (EventID × Nat)}
  {start t : Told App} {blocks : List Block}

theorem reaches_iff (held : D.HeldBy input) (inA : a ∈ D.events) {id : EventID} :
    Reaches input a.id id ↔ ∃ x, Dag.Observes D.events a x ∧ x.id = id := by
  constructor
  · intro path
    induction path with
    | refl => exact ⟨a, .refl, rfl⟩
    | tail _ step ih =>
      obtain ⟨z, sees, rfl⟩ := ih
      have inZ := EventDag.received_events.observes inA sees
      rw [parentsOf_mem held inZ] at step
      obtain ⟨x, inX, rfl⟩ := parentsFirst_closed D.ordered z inZ _ step
      exact ⟨x, sees.tail ⟨inX, step⟩, rfl⟩
  · rintro ⟨x, sees, rfl⟩
    have inX := EventDag.received_events.observes inA sees
    exact (reach_iff held EventDag.received_events inA inX).mpr sees

theorem ancestors_held (held : D.HeldBy input) (inA : a ∈ D.events) :
    ∀ id, Reaches input a.id id → ∃ e, input.getEvent id = some e := by
  intro id reaches
  obtain ⟨x, sees, rfl⟩ := (reaches_iff held inA).mp reaches
  exact ⟨x, held x (EventDag.received_events.observes inA sees)⟩

theorem announce_total (held : D.HeldBy input) (cb : ConsensusCallbacks App) (positive : 0 < frame)
    (inA : a ∈ D.events) (atropos : a.id = block.atropos) (t : Told App) :
    ∃ next t', announce input cb frame block t = .ok (next, t') := by
  unfold announce
  split
  · exact ⟨_, _, rfl⟩
  · next beginBlock _ =>
    obtain ⟨done, _, run, _⟩ := confirmEvents_walks (beginBlock t.app block).1.applyEvent
      t.confirmedEvent (beginBlock t.app block).2 positive (atropos ▸ ancestors_held held inA)
    rw [deliver]
    dsimp only
    rw [run]
    exact ⟨_, _, rfl⟩

def Observed (D : EventDag vv) (b : EmittedBlock) (x : Event) : Prop :=
  ∃ a ∈ D.events, a.id = b.block.atropos ∧ Dag.Observes D.events a x

/-- The blocks partition what their Atropoi observe, and this is what is marked. -/
structure Partitioned (D : EventDag vv) (marks : List (EventID × Nat)) (blocks : List EmittedBlock) :
    Prop where
  marks : ∀ id, Store.getEventConfirmedOn marks id ≠ 0 ↔
    ∃ b ∈ blocks, ∃ x, Observed D b x ∧ x.id = id
  nodup : (blocks.flatMap EmittedBlock.confirmed).Nodup
  first : ∀ before b after, blocks = before ++ b :: after →
    ∀ x, x ∈ b.confirmed ↔ Observed D b x ∧ ∀ b' ∈ before, ¬ Observed D b' x

theorem observed_iff (inA : a ∈ D.events) (atropos : a.id = b.block.atropos) :
    Observed D b x ↔ Dag.Observes D.events a x := by
  constructor
  · rintro ⟨a', inA', same, sees⟩
    exact EventDag.ids inA' inA (same.trans atropos.symm) ▸ sees
  · exact fun sees => ⟨a, inA, atropos, sees⟩

theorem Observed.mem (observed : Observed D b x) : x ∈ D.events := by
  obtain ⟨a, inA, _, sees⟩ := observed
  exact EventDag.received_events.observes inA sees

theorem confirmEvents_confirms {blocks : List EmittedBlock} (parts : Partitioned D marks blocks)
    (held : D.HeldBy input) (positive : 0 < frame) (inA : a ∈ D.events)
    (applyEvent : Option (App → Event → App)) (app : App) :
    ∃ done, confirmEvents input frame a.id applyEvent marks app = .ok done ∧
      done.app = applyEvents applyEvent app done.confirmed ∧ done.confirmed.Nodup ∧
      (∀ x, x ∈ done.confirmed ↔ Dag.Observes D.events a x ∧ ∀ b ∈ blocks, ¬ Observed D b x) ∧
      ∀ id, Store.getEventConfirmedOn done.confirmedEvent id ≠ 0 ↔
        Store.getEventConfirmedOn marks id ≠ 0 ∨ ∃ x ∈ done.confirmed, x.id = id := by
  obtain ⟨done, entered, run, marking, nodup, all⟩ :=
    confirmEvents_walks applyEvent marks app positive (ancestors_held held inA)
  -- an ancestor of what is marked is marked
  have closed : ∀ id, isConfirmed marks id = true → ∀ j ∈ parentsOf input id,
      isConfirmed marks j = true := by
    simp only [isConfirmed, decide_eq_true_eq, parts.marks]
    rintro _ ⟨b, member, x, observed, rfl⟩ j parent
    obtain ⟨y, inY, rfl⟩ := parentsFirst_closed D.ordered x observed.mem j
      (parentsOf_mem held observed.mem ▸ parent)
    rw [parentsOf_mem held observed.mem] at parent
    obtain ⟨a, inA, same, sees⟩ := observed
    exact ⟨b, member, y, ⟨a, inA, same, sees.tail ⟨inY, parent⟩⟩, rfl⟩
  have isOpen : ∀ id, isConfirmed marks id = false ↔
      ∀ b ∈ blocks, ∀ x, Observed D b x → x.id ≠ id := by
    intro id
    have := parts.marks id
    simp only [isConfirmed, decide_eq_false_iff_not, this]
    push Not
    rfl
  -- the block holds the events behind the entered identifiers
  have confirmed : ∀ x, x ∈ done.confirmed ↔ Dag.Observes D.events a x ∧
      ∀ b ∈ blocks, ¬ Observed D b x := by
    intro x
    have ids : x.id ∈ entered ↔ ∃ e ∈ done.confirmed, e.id = x.id := by
      rw [← marking.entered, List.mem_map]
    constructor
    · intro member
      obtain ⟨unmarked, reaches⟩ := (all closed x.id).mp (ids.mpr ⟨x, member, rfl⟩)
      obtain ⟨y, sees, same⟩ := (reaches_iff held inA).mp reaches
      have inY := EventDag.received_events.observes inA sees
      have found := marking.events x member
      rw [← same, held y inY] at found
      cases found
      exact ⟨sees, fun b inB observed => (isOpen _).mp unmarked b inB _ observed rfl⟩
    · rintro ⟨sees, new⟩
      have inX := EventDag.received_events.observes inA sees
      have unmarked : isConfirmed marks x.id = false := by
        refine (isOpen x.id).mpr fun b inB y observed same => ?_
        exact new b inB (EventDag.ids observed.mem inX same ▸ observed)
      obtain ⟨e, member, same⟩ := ids.mp ((all closed x.id).mpr
        ⟨unmarked, (reaches_iff held inA).mpr ⟨x, sees, rfl⟩⟩)
      have found := marking.events e member
      rw [same, held x inX] at found
      cases found
      exact member
  refine ⟨done, run, marking.app, List.Nodup.of_map _ (marking.entered.symm ▸ nodup), confirmed,
    fun id => ?_⟩
  have ids : id ∈ entered ↔ ∃ x ∈ done.confirmed, x.id = id := by
    rw [← marking.entered, List.mem_map]
  rw [marking.marks, ← ids]
  split
  · next isIn => exact iff_of_true (by omega) (.inr isIn)
  · next out => rw [or_iff_left out]

theorem Partitioned.snoc {marks marks' : List (EventID × Nat)} {blocks : List EmittedBlock}
    (parts : Partitioned D marks blocks) {b : EmittedBlock} (nodup : b.confirmed.Nodup)
    (confirmed : ∀ x, x ∈ b.confirmed ↔ Observed D b x ∧ ∀ b' ∈ blocks, ¬ Observed D b' x)
    (marked : ∀ id, Store.getEventConfirmedOn marks' id ≠ 0 ↔
      Store.getEventConfirmedOn marks id ≠ 0 ∨ ∃ x ∈ b.confirmed, x.id = id) :
    Partitioned D marks' (blocks ++ [b]) := by
  constructor
  · intro id
    rw [marked, parts.marks]
    constructor
    · grind
    · rintro ⟨b', member, x, observed, rfl⟩
      -- what an earlier Atropos observes is in an earlier block
      by_cases old : ∃ b' ∈ blocks, Observed D b' x
      · obtain ⟨b'', member'', observed''⟩ := old
        exact .inl ⟨b'', member'', x, observed'', rfl⟩
      · rcases List.mem_append.mp member with before | last
        · exact absurd ⟨b', before, observed⟩ old
        · rw [List.mem_singleton.mp last] at observed
          exact .inr ⟨x, (confirmed x).mpr ⟨observed, fun b' inB seen => old ⟨b', inB, seen⟩⟩, rfl⟩
  · rw [List.flatMap_append, List.nodup_append]
    refine ⟨parts.nodup, by simpa using nodup, ?_⟩
    rintro x early y late rfl
    obtain ⟨b', member, inB'⟩ := List.mem_flatMap.mp early
    obtain ⟨before, after, split⟩ := List.append_of_mem member
    have observed := ((parts.first before b' after split x).mp inB').1
    exact ((confirmed x).mp (by simpa using late)).2 b' member observed
  · intro before b' after split x
    rcases List.eq_nil_or_concat after with rfl | ⟨rest, last, rfl⟩
    · simp_all
    · rw [List.concat_eq_append, ← List.cons_append, ← List.append_assoc] at split
      obtain ⟨same, _⟩ := List.append_inj' split rfl
      exact parts.first before b' rest same x

theorem partitioned_nil (blank : ∀ id, Store.getEventConfirmedOn marks id = 0) :
    Partitioned D marks [] where
  marks := fun id => by simp [blank]
  nodup := List.nodup_nil
  first := fun before b after split => by simp at split

def tell (beginBlock : App → Block → BlockCallbacks App × App) (app : App) (b : EmittedBlock) : App :=
  let (blockCallback, app) := beginBlock app b.block
  let app := applyEvents blockCallback.applyEvent app b.confirmed
  match blockCallback.endBlock with
  | none => app
  | some endBlock => (endBlock app).2

/-- The blocks `new` are those told since the start, and they partition what they confirm. -/
structure Recounted (D : EventDag vv) (beginBlock : App → Block → BlockCallbacks App × App)
    (start : Told App) (blocks : List Block) (t : Told App) (new : List EmittedBlock) : Prop where
  told : t.blocks = start.blocks ++ new
  app : t.app = new.foldl (tell beginBlock) start.app
  listed : new.map EmittedBlock.block = blocks
  frames : new.map EmittedBlock.frame = List.range' 1 blocks.length
  parts : Partitioned D t.confirmedEvent new

theorem deliver_recounted (held : D.HeldBy input) {new : List EmittedBlock}
    (recounted : Recounted D beginBlock start blocks t new) (inA : a ∈ D.events)
    (atropos : a.id = block.atropos) : ∃ newValidators t' confirmed,
      deliver input beginBlock (blocks.length + 1) block t = .ok (newValidators, t') ∧
      Recounted D beginBlock start (blocks ++ [block]) t'
        (new ++ [⟨blocks.length + 1, block, confirmed⟩]) := by
  obtain ⟨_, cheaters⟩ := block
  subst atropos
  obtain ⟨done, run, app, nodup, confirmed, marked⟩ := confirmEvents_confirms recounted.parts held
    (Nat.succ_pos blocks.length) inA (beginBlock t.app ⟨a.id, cheaters⟩).1.applyEvent
    (beginBlock t.app ⟨a.id, cheaters⟩).2
  rw [deliver]
  dsimp only
  rw [run]
  refine ⟨_, _, done.confirmed, rfl, ?_, ?_, ?_, ?_, ?_⟩
  · rw [recounted.told, List.append_assoc]
  · rw [List.foldl_append, ← recounted.app, List.foldl_cons, List.foldl_nil, tell]
    dsimp only
    rw [← app]
    split <;> rfl
  · rw [List.map_append, recounted.listed]
    rfl
  · rw [List.map_append, recounted.frames, List.length_append, List.length_singleton,
      List.range'_concat, Nat.one_mul, Nat.add_comm 1]
    rfl
  · exact recounted.parts.snoc nodup
      (fun x => (confirmed x).trans (and_congr_left' (observed_iff inA rfl).symm)) marked

theorem recounted_nil (blank : ∀ id, Store.getEventConfirmedOn start.confirmedEvent id = 0) :
    Recounted D beginBlock start [] start [] :=
  ⟨(List.append_nil _).symm, rfl, rfl, rfl, partitioned_nil blank⟩

theorem replays_recounted (held : D.HeldBy input) {cb : ConsensusCallbacks App}
    (begins : cb.beginBlock = some beginBlock) {next : Option Validators}
    (blank : ∀ id, Store.getEventConfirmedOn start.confirmedEvent id = 0)
    (replays : Replays input cb start blocks next t)
    (known : ∀ b ∈ blocks, ∃ a ∈ D.events, a.id = b.atropos) :
    ∃ new, Recounted D beginBlock start blocks t new := by
  induction replays with
  | nil => exact ⟨[], recounted_nil blank⟩
  | snoc _ run ih =>
    obtain ⟨before, last⟩ := List.forall_mem_append.mp known
    obtain ⟨new, recounted⟩ := ih before
    obtain ⟨a, inA, atropos⟩ := last _ (List.mem_singleton_self _)
    obtain ⟨next, t', confirmed, run', recounted'⟩ :=
      deliver_recounted held recounted inA atropos
    rw [announce, begins] at run
    cases run.symm.trans run'
    exact ⟨_, recounted'⟩

end Deliveries

end Lachesis.Abft
