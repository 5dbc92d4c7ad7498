import Lachesis.Gossip.SeederPending

/-!
What a session streams. Each response takes up where the one before it ended, so that together they
hold the items of the session's range, in order and each of them once.
-/

namespace Lachesis.Gossip.Seeder

open Transition

variable {PeerID L P I : Type}

/-- The locators are ordered by `Compare`, and `Inc` is the least locator above. -/
structure Ordered (L : Type) [LinearOrder L] [Locator L] : Prop where
  compare : ∀ a b : L, 0 ≤ Locator.compare a b ↔ b ≤ a
  above : ∀ a : L, a < Locator.inc a
  least : ∀ a b : L, a < b → Locator.inc a ≤ b

/-- The items that are gone through, each with what the payload holds after it. -/
def accumulate : List I → List (L × I) → List (L × List I)
  | _, [] => []
  | got, (key, item) :: rest => (key, got ++ [item]) :: accumulate (got ++ [item]) rest

section Items

variable [LinearOrder L]

def onwards (all : List (L × I)) (start : L) : List (L × I) := all.filter (fun e => start ≤ e.1)

def below (stop : L) (items : List (L × I)) : List I :=
  (items.filter (fun e => e.1 < stop)).map Prod.snd

structure Walks (callback : Callbacks L P) (contents : P → List I) (all : List (L × I)) :
    Prop where
  ascending : all.Pairwise (fun a b => a.1 < b.1)
  empty : contents callback.empty = []
  items : ∀ start type, (callback.items start type).map (fun e => (e.1, contents e.2)) =
    accumulate [] (onwards all start)

theorem below_append (stop : L) (a b : List (L × I)) :
    below stop (a ++ b) = below stop a ++ below stop b := by
  rw [below, List.filter_append, List.map_append, below, below]

variable {items : List (L × I)} {stop : L}

theorem below_all (before : ∀ e ∈ items, e.1 < stop) : below stop items = items.map Prod.snd := by
  rw [below, List.filter_eq_self.mpr fun e inside => decide_eq_true (before e inside)]

theorem below_none (beyond : ∀ e ∈ items, stop ≤ e.1) : below stop items = [] := by
  rw [below, List.filter_eq_nil_iff.mpr, List.map_nil]
  intro e inside before
  exact absurd (of_decide_eq_true before) (not_lt.mpr (beyond e inside))

variable [Locator L]

theorem onwards_inc (ordered : Ordered L) {all : List (L × I)}
    (ascending : all.Pairwise (fun a b => a.1 < b.1)) {start key : L} {item : I}
    {taken left : List (L × I)} (split : onwards all start = taken ++ [(key, item)] ++ left) :
    onwards all (Locator.inc key) = left := by
  have sorted : (onwards all start).Pairwise (fun a b => a.1 < b.1) := ascending.filter _
  have from_start : start ≤ key := by
    have inside : (key, item) ∈ onwards all start := by
      rw [split]
      simp
    exact of_decide_eq_true (List.mem_filter.mp inside).2
  have narrower : onwards all (Locator.inc key) = onwards (onwards all start) (Locator.inc key) := by
    rw [onwards, onwards, onwards, List.filter_filter]
    refine List.filter_congr fun e _ => ?_
    by_cases later : Locator.inc key ≤ e.1
    · have reached : start ≤ e.1 := from_start.trans ((ordered.above key).le.trans later)
      simp [later, reached]
    · simp [later]
  rw [split] at sorted
  obtain ⟨front, _, across⟩ := List.pairwise_append.mp sorted
  have upto : ∀ e ∈ taken ++ [(key, item)], e.1 ≤ key := by
    intro e inside
    rcases List.mem_append.mp inside with old | last
    · exact ((List.pairwise_append.mp front).2.2 e old _ List.mem_cons_self).le
    · rw [List.mem_singleton.mp last]
  rw [narrower, split, onwards, List.filter_append, List.filter_eq_nil_iff.mpr,
    List.filter_eq_self.mpr, List.nil_append]
  · intro e inside
    exact decide_eq_true (ordered.least _ _ (across (key, item) (by simp) e inside))
  · intro e inside later
    exact absurd (of_decide_eq_true later) (not_le.mpr ((upto e inside).trans_lt (ordered.above key)))

theorem readItems_takes (ordered : Ordered L) (callback : Callbacks L P) {contents : P → List I}
    (r : Request L) (stop : L) : ∀ (items : List (L × P)) (rest : List (L × I)) (lastKey : L)
    (payload : P), rest.Pairwise (fun a b => a.1 < b.1) →
    items.map (fun e => (e.1, contents e.2)) = accumulate (contents payload) rest →
    ∃ taken left, rest = taken ++ left ∧ (∀ e ∈ taken, e.1 < stop) ∧
      contents (readItems callback r stop items lastKey payload).2.2 =
        contents payload ++ taken.map Prod.snd ∧
      ((readItems callback r stop items lastKey payload).2.1 = true → ∀ e ∈ left, stop ≤ e.1) ∧
      ((readItems callback r stop items lastKey payload).2.1 = false → ∃ earlier item,
        taken = earlier ++ [((readItems callback r stop items lastKey payload).1, item)])
  | [], [], lastKey, payload, _, _ =>
    ⟨[], [], rfl, nofun, (List.append_nil _).symm, fun _ => nofun, nofun⟩
  | [], _ :: _, _, _, _, same => nomatch same
  | _ :: _, [], _, _, _, same => nomatch same
  | (key, appended) :: items, (known, item) :: rest, lastKey, payload, sorted, same => by
      simp only [List.map_cons, accumulate, List.cons.injEq, Prod.mk.injEq] at same
      obtain ⟨⟨rfl, holds⟩, later⟩ := same
      obtain ⟨first, sorted⟩ := List.pairwise_cons.mp sorted
      unfold readItems
      split
      · -- the item is not appended any more
        next reached =>
        have beyond := (ordered.compare _ _).mp reached
        refine ⟨[], (key, item) :: rest, rfl, nofun, (List.append_nil _).symm, fun _ => ?_, nofun⟩
        intro e inside
        rcases List.mem_cons.mp inside with rfl | inside
        · exact beyond
        · exact beyond.trans (first e inside).le
      · next unreached =>
        have before : key < stop := not_le.mp fun beyond => unreached ((ordered.compare _ _).mpr beyond)
        split
        · refine ⟨[(key, item)], rest, rfl, ?_, holds, nofun, fun _ => ⟨[], item, rfl⟩⟩
          intro e inside
          rw [List.mem_singleton.mp inside]
          exact before
        · rw [← holds] at later
          obtain ⟨taken, left, split, inside, read, ends, goes⟩ :=
            readItems_takes ordered callback r stop items rest key appended sorted later
          refine ⟨(key, item) :: taken, left, by rw [split]; rfl, ?_, ?_, ends, ?_⟩
          · grind
          · rw [read, holds, List.append_assoc]
            rfl
          · grind

end Items

section Progress

variable [LinearOrder L] (contents : P → List I)

def texts (out : List (Response P)) : List I := out.flatMap (fun r => contents r.payload)

def Partial (r : Response P) : Prop := r.done = false ∧ contents r.payload ≠ []

/-- What a session has streamed of the range from `start` to `stop`, and where it goes on. -/
structure Progress (all : List (L × I)) (start stop : L) (session : SessionState L)
    (out : List (Response P)) : Prop where
  stops : session.stop = stop
  unfinished : session.done = false → (∀ r ∈ out, Partial contents r) ∧
    texts contents out ++ below stop (onwards all session.next) = below stop (onwards all start)
  finished : session.done = true → ∃ earlier last, out = earlier ++ [last] ∧
    (∀ r ∈ earlier, Partial contents r) ∧ last.done = true ∧
    texts contents out = below stop (onwards all start)

variable {contents} {all : List (L × I)} {start stop : L} {session : SessionState L}
  {out : List (Response P)}

omit [LinearOrder L] in
theorem texts_snoc (out : List (Response P)) (r : Response P) :
    texts contents (out ++ [r]) = texts contents out ++ contents r.payload := by
  simp [texts]

variable [Locator L] {callback : Callbacks L P}

theorem Progress.reads (progress : Progress contents all start stop session out)
    (unfinished : session.done = false) (ordered : Ordered L) (walks : Walks callback contents all)
    (r : Request L) {lastKey : L} {allConsumed : Bool} {payload : P}
    (read : readItems callback r session.stop (callback.items session.next r.type) session.next
      callback.empty = (lastKey, allConsumed, payload)) (id : Nat) :
    Progress contents all start stop
      { session with next := Locator.inc lastKey, done := allConsumed }
      (out ++ [⟨id, allConsumed, payload⟩]) := by
  obtain ⟨open_, sum⟩ := progress.unfinished unfinished
  have items := walks.items session.next r.type
  rw [← walks.empty] at items
  obtain ⟨taken, left, split, before, holds, ends, goes⟩ :=
    readItems_takes ordered callback r session.stop _ (onwards all session.next) session.next
      callback.empty (walks.ascending.filter _) items
  rw [read, walks.empty, List.nil_append] at holds
  rw [read] at ends goes
  rw [progress.stops] at before ends
  have delivered : below stop (onwards all session.next) = contents payload ++ below stop left := by
    rw [split, below_append, below_all before]
    exact congrArg (· ++ _) holds.symm
  refine ⟨progress.stops, fun more => ⟨fun r inside => ?_, ?_⟩, fun done => ?_⟩
  · rcases List.mem_append.mp inside with old | new
    · exact open_ r old
    · obtain ⟨earlier, item, is⟩ := goes more
      rw [List.mem_singleton.mp new]
      refine ⟨more, ?_⟩
      change contents payload ≠ []
      rw [holds, is]
      simp
  · obtain ⟨earlier, item, is⟩ := goes more
    rw [is] at split
    rw [texts_snoc, onwards_inc ordered walks.ascending split, List.append_assoc, ← delivered]
    exact sum
  · refine ⟨out, _, rfl, open_, done, ?_⟩
    rw [below_none (ends done), List.append_nil] at delivered
    rw [texts_snoc, ← sum, delivered]

end Progress

section Sessions

variable [DecidableEq PeerID] {key : Nat × PeerID}

def Reader.Serves (key : Nat × PeerID) (session : SessionState L) : Reader PeerID L P → Prop
  | .serve op copy _ | .wait _ (.deliver op copy _ _) | .add op copy _ _ | .enqueue op copy _ _ =>
    (op.request.session.id, op.peer.id) = key ∧ copy = session
  | _ => False

variable {a : Action PeerID L} {s : State PeerID L P} {session : SessionState L}
  {sessions : AList fun _ : Nat × PeerID => SessionState L} {op : RequestAndPeer PeerID L}

omit [DecidableEq PeerID] in
theorem Turn.serves {r : Reader PeerID L P} (turn : Turn s a r) (serves : r.Serves key session) :
    s.reader.Serves key session := by
  cases turn with
  | same => exact serves
  | quit | take | finish => cases serves
  | add at_ | next at_ =>
    rw [at_]
    exact serves
  | @block after at_ | @reduced after at_ | @resume _ _ after at_ =>
    rw [at_]
    cases after with
    | admission => cases serves
    | deliver => exact serves

theorem Pruned.lookup {p : PeerID} {listed : List Nat} (pruned : Pruned s p listed sessions)
    (inside : key ∈ sessions) : sessions.lookup key = s.sessions.lookup key := by
  rcases Nat.lt_or_ge 2 (s.peerSessions p).length with many | few
  · obtain ⟨oldest, _, rfl⟩ := pruned.many many
    exact AList.lookup_erase_ne (AList.mem_erase.mp inside).1
  · rw [(pruned.few few).2]

variable [Locator L]

def answers (callback : Callbacks L P) (key : Nat × PeerID) (s : State PeerID L P) :
    Action PeerID L → List (Response P)
  | .serve =>
    match s.reader with
    | .serve op session i =>
      if (op.request.session.id, op.peer.id) = key ∧ i < op.request.maxChunks ∧
          session.done = false then
        ((readChunk callback s op session i).reader.task.map Task.resp).toList
      else []
    | _ => []
  | _ => []

variable [LinearOrder L]

/-- The session as stored and as the reader has it, after the responses `out`. -/
structure Streaming (contents : P → List I) (all : List (L × I)) (key : Nat × PeerID)
    (start stop : L) (s : State PeerID L P) (out : List (Response P)) : Prop where
  stored : ∀ session, s.sessions.lookup key = some session →
    Progress contents all start stop session out
  absent : s.sessions.lookup key = none → out = []
  served : ∀ session, s.reader.Serves key session → Progress contents all start stop session out

variable {contents : P → List I} {all : List (L × I)} {start stop : L} {cfg : Config}
  {callback : Callbacks L P} {s t : State PeerID L P} {out : List (Response P)}

omit [Locator L] in
theorem Streaming.turn (streaming : Streaming contents all key start stop s out)
    (sessions : t.sessions.lookup key = s.sessions.lookup key)
    (reader : ∀ session, t.reader.Serves key session → s.reader.Serves key session) :
    Streaming contents all key start stop t out where
  stored := fun session found => streaming.stored session (sessions ▸ found)
  absent := fun missing => streaming.absent (sessions ▸ missing)
  served := fun session serves => streaming.served session (reader session serves)

end Sessions

section Senders

variable {PeerID L P : Type} [DecidableEq PeerID] [Locator L] {cfg : Config} {callback : Callbacks L P}
  {s t : State PeerID L P} {a : Action PeerID L}

/-- The task that the chunk loop makes, with its session. -/
def made (callback : Callbacks L P) (s : State PeerID L P) :
    Action PeerID L → List ((Nat × PeerID) × Task P)
  | .serve =>
    match s.reader with
    | .serve op session i =>
      if i < op.request.maxChunks ∧ session.done = false then
        ((readChunk callback s op session i).reader.task.map
          (Prod.mk (op.request.session.id, op.peer.id))).toList
      else []
    | _ => []
  | _ => []

def Sender.hand : Sender P → List (Task P)
  | .send task => [task]
  | _ => []

def sends (s : State PeerID L P) : Action PeerID L → List (Nat × Task P)
  | .sendChunk i => (s.senders i).hand.map (Prod.mk i)
  | _ => []

/-- The tasks between the chunk loop and the sender `i`, the oldest first. -/
def underway (i : Nat) (s : State PeerID L P) : List (Task P) :=
  (s.senders i).hand ++ (s.tasks i ++ s.reader.task.toList.filter (·.senderI = i))

structure Passes (callback : Callbacks L P) (s : State PeerID L P) (a : Action PeerID L)
    (t : State PeerID L P) : Prop where
  sent : t.sent = s.sent ++ (sends s a).map fun x => (x.2.sendChunk, x.2.resp)
  order : ∀ i, underway i s ++ ((made callback s a).map Prod.snd).filter (·.senderI = i) =
    ((sends s a).filter (·.1 = i)).map Prod.snd ++ underway i t

theorem answers_eq (callback : Callbacks L P) (key : Nat × PeerID) (s : State PeerID L P)
    (a : Action PeerID L) :
    answers callback key s a = ((made callback s a).filter (·.1 = key)).map (·.2.resp) := by
  cases a with
  | serve =>
    cases at_ : s.reader with
    | serve op session i =>
      by_cases more : i < op.request.maxChunks ∧ session.done = false <;>
        by_cases own : (op.request.session.id, op.peer.id) = key <;>
        simp [answers, made, at_, more, own, readChunk, Reader.task, Wait.task]
    | _ => simp [answers, made, at_]
  | _ => rfl

theorem Passes.quiet (senders : t.senders = s.senders) (tasks : t.tasks = s.tasks)
    (sent : t.sent = s.sent) (reader : t.reader.task = s.reader.task)
    (nothing : made callback s a = []) (silent : sends s a = []) : Passes callback s a t := by
  refine ⟨?_, fun i => ?_⟩
  · rw [sent, silent, List.map_nil, List.append_nil]
  · rw [nothing, silent, underway, underway, senders, tasks, reader]
    exact List.append_nil _

theorem serve_passes (run : step cfg callback s .serve = some t) : Passes callback s .serve t := by
  simp only [step] at run
  split at run
  · next op session i at_ =>
    split at run
    · next more =>
      cases run
      refine ⟨by simp [sends, readChunk], fun j => ?_⟩
      simp [underway, made, at_, if_pos more, sends, readChunk, Reader.task, Wait.task]
    · next ended =>
      cases run
      exact .quiet rfl rfl rfl (by rw [at_]; rfl) (by simp [made, at_, ended]) rfl
  · cases run

theorem enqueue_passes (run : step cfg callback s .enqueue = some t) :
    Passes callback s .enqueue t := by
  simp only [step] at run
  split at run
  · next op session n task at_ =>
    split at run
    · cases run
      refine ⟨by simp [sends], fun i => ?_⟩
      by_cases own : i = task.senderI
      · subst own
        simp [underway, at_, made, sends, Reader.task]
      · simp [underway, at_, made, sends, Reader.task, own, Ne.symm own]
    · cases run
  · cases run

theorem sender_passes (j : Nat)
    (isSender : a = .takeTask j ∨ a = .sendChunk j ∨ a = .subtract j ∨ a = .signal j)
    (run : step cfg callback s a = some t) : Passes callback s a t := by
  rcases isSender with rfl | rfl | rfl | rfl
  all_goals
    simp only [step] at run
    split at run <;> cases run
    refine ⟨by simp [sends, *, Sender.hand], fun i => ?_⟩
    by_cases own : i = j
    · subst own
      simp [underway, made, sends, *, Sender.hand]
    · simp [underway, made, sends, own, Ne.symm own]

theorem step_passes (running : s.quit = false) (run : step cfg callback s a = some t) :
    Passes callback s a t := by
  cases a with
  | serve => exact serve_passes run
  | enqueue => exact enqueue_passes run
  | takeTask j | sendChunk j | subtract j | signal j => exact sender_passes j (by simp) run
  | handle =>
    simp only [step] at run
    split at run
    · next op at_ =>
      cases run
      unfold handle pruneOldest
      dsimp only
      split <;> split <;> split <;>
        exact .quiet rfl rfl rfl (by rw [at_]; rfl) rfl rfl
    · cases run
  | load =>
    simp only [step] at run
    split at run
    · next after at_ =>
      have same : after.resume.task = after.task := by cases after <;> rfl
      split at run <;> cases run
      · exact .quiet rfl rfl rfl (by rw [at_]; rfl) rfl rfl
      · exact .quiet rfl rfl rfl (by rw [at_]; exact same) rfl rfl
    · cases run
  | _ =>
    simp only [step, running] at run
    repeat' split at run
    all_goals first
      | contradiction
      | (cases run
         refine .quiet rfl rfl rfl ?_ rfl rfl
         simp [*, Reader.task, Wait.task, handleUnregister])

/-- Until it is stopped, each sender sends the tasks that were made for it, in the order they were made, and
the responses of a session are in these tasks. -/
theorem sent_in_order {actions : List (Action PeerID L)}
    (run : Run (step cfg callback) (fun s _ => s.quit = false) s actions t) :
    t.sent = s.sent ++ (emitted (step cfg callback) sends s actions).map
      (fun x => (x.2.sendChunk, x.2.resp)) ∧
    (∀ i, underway i s ++ ((emitted (step cfg callback) (made callback) s actions).map Prod.snd).filter
        (·.senderI = i) =
      ((emitted (step cfg callback) sends s actions).filter (·.1 = i)).map Prod.snd ++ underway i t) ∧
    ∀ key, emitted (step cfg callback) (answers callback key) s actions =
      ((emitted (step cfg callback) (made callback) s actions).filter (·.1 = key)).map (·.2.resp) := by
  induction run with
  | nil => simp [emitted]
  | cons running move _ ih =>
    obtain ⟨sent, order⟩ := step_passes running move
    obtain ⟨later, orders, responses⟩ := ih
    simp only [emitted, move, List.map_append, List.filter_append, answers_eq, responses, later, sent,
      ← List.append_assoc, order, true_and, implies_true, and_true]
    intro i
    rw [List.append_assoc, orders, List.append_assoc]

end Senders
section Sample

end Sample

end Lachesis.Gossip.Seeder
