import Lachesis.Gossip.Seeder

/-!
The two session maps of the seeder. Every action either leaves them alone, or handles an
unregistration, admits a request, or writes the session of the request being served.
-/

namespace Lachesis.Gossip.Seeder

open Transition

variable {PeerID L P : Type}

inductive Turn (s : State PeerID L P) : Action PeerID L → Reader PeerID L P → Prop where
  | same (a : Action PeerID L) : Turn s a s.reader
  | quit (at_ : s.reader = .idle) : Turn s .readQuit .stopped
  | take {op : RequestAndPeer PeerID L} {rest : List (RequestAndPeer PeerID L)}
      (at_ : s.reader = .idle) (queue : s.notifyReceivedRequest = op :: rest) :
      Turn s .readRequest (.wait false (.admission op))
  | block {after : Wait PeerID L P} (at_ : s.reader = .wait false after) :
      Turn s .load (.wait true after)
  | resume {a : Action PeerID L} {blocked : Bool} {after : Wait PeerID L P}
      (at_ : s.reader = .wait blocked after) : Turn s a after.resume
  | reduced {after : Wait PeerID L P} (at_ : s.reader = .wait true after) :
      Turn s .wakeReduced (.wait false after)
  | finish {op : RequestAndPeer PeerID L} {session : SessionState L} {i : Nat}
      (at_ : s.reader = .serve op session i)
      (ended : ¬ (i < op.request.maxChunks ∧ session.done = false)) : Turn s .serve .idle
  | add {op : RequestAndPeer PeerID L} {session : SessionState L} {i : Nat} {task : Task P}
      (at_ : s.reader = .add op session i task) : Turn s .add (.enqueue op session i task)
  | next {a : Action PeerID L} {op : RequestAndPeer PeerID L} {session : SessionState L} {i : Nat}
      {task : Task P} (at_ : s.reader = .enqueue op session i task) :
      Turn s a (.serve op session (i + 1))

def Reader.Writes (key : Nat × PeerID) : Reader PeerID L P → Prop
  | .serve op session i =>
    (op.request.session.id, op.peer.id) = key ∧ i < op.request.maxChunks ∧ session.done = false
  | .wait _ (.deliver op session i _) | .add op session i _ | .enqueue op session i _ =>
    (op.request.session.id, op.peer.id) = key ∧ i + 1 < op.request.maxChunks ∧
      session.done = false
  | _ => False

def Reader.Admits (p : PeerID) : Reader PeerID L P → Prop
  | .wait _ (.admission op) | .handle op => op.peer.id = p ∧ 0 < op.request.maxChunks
  | _ => False

def Reader.Engaged (p : PeerID) (r : Reader PeerID L P) : Prop :=
  r.Admits p ∨ ∃ id, r.Writes (id, p)

def Undisturbed (s : State PeerID L P) (a : Action PeerID L) : Prop :=
  a = .wakeUnregister → ∀ p, s.notifyUnregisteredPeer.head? = some p → ¬ s.reader.Engaged p

/-- No peer is unregistered between two chunks of its own request. -/
def Unbroken (s : State PeerID L P) (a : Action PeerID L) : Prop :=
  a = .wakeUnregister → ∀ p, s.notifyUnregisteredPeer.head? = some p →
    ∀ id, ¬ s.reader.Writes (id, p)

variable {a : Action PeerID L} {s : State PeerID L P} {r : Reader PeerID L P} {key : Nat × PeerID}
  {p : PeerID} {listed : List Nat} {sessions : AList fun _ : Nat × PeerID => SessionState L}

theorem Undisturbed.unbroken (undisturbed : Undisturbed s a) : Unbroken s a :=
  fun isWake p asked id writes => undisturbed isWake p asked (.inr ⟨id, writes⟩)

def Takes (p : PeerID) (s : State PeerID L P) (a : Action PeerID L) : Prop :=
  a = .readRequest ∧ ∃ op, s.notifyReceivedRequest.head? = some op ∧ op.peer.id = p

theorem Turn.writes (turn : Turn s a r) (writes : r.Writes key) : s.reader.Writes key := by
  cases turn with
  | same => exact writes
  | quit => exact writes.elim
  | take => exact writes.elim
  | @block after at_ => rw [at_]; cases after <;> exact writes
  | @resume _ _ after at_ => rw [at_]; cases after <;> exact writes
  | @reduced after at_ => rw [at_]; cases after <;> exact writes
  | finish => exact writes.elim
  | add at_ => rw [at_]; exact writes
  | next at_ => rw [at_]; exact writes

theorem Turn.admits (turn : Turn s a r) (admits : r.Admits p) :
    s.reader.Admits p ∨ Takes p s a := by
  cases turn with
  | same => exact .inl admits
  | quit => exact admits.elim
  | @take op rest at_ queue => exact .inr ⟨rfl, op, by rw [queue]; rfl, admits.1⟩
  | @block after at_ => rw [at_]; cases after <;> exact .inl admits
  | @resume _ _ after at_ => rw [at_]; cases after <;> exact .inl admits
  | @reduced after at_ => rw [at_]; cases after <;> exact .inl admits
  | finish => exact admits.elim
  | add => exact admits.elim
  | next => exact admits.elim

structure Listed (s : State PeerID L P) : Prop where
  sessions : ∀ id p, (id, p) ∈ s.sessions → id ∈ s.peerSessions p
  writes : ∀ id p, s.reader.Writes (id, p) → id ∈ s.peerSessions p

theorem new_listed : Listed (State.new : State PeerID L P) :=
  ⟨fun _ _ inside => absurd inside (AList.notMem_empty _), fun _ _ writes => writes.elim⟩

variable [DecidableEq PeerID]

structure Pruned (s : State PeerID L P) (p : PeerID) (listed : List Nat)
    (sessions : AList fun _ : Nat × PeerID => SessionState L) : Prop where
  few : (s.peerSessions p).length ≤ 2 → listed = s.peerSessions p ∧ sessions = s.sessions
  many : 2 < (s.peerSessions p).length → ∃ oldest, s.peerSessions p = oldest :: listed ∧
    sessions = s.sessions.erase (oldest, p)

theorem pruneOldest_pruned (s : State PeerID L P) (p : PeerID) :
    Pruned s p (pruneOldest s p).1 (pruneOldest s p).2.sessions := by
  unfold pruneOldest
  rcases known : s.peerSessions p with _ | ⟨a, _ | ⟨b, _ | ⟨c, rest⟩⟩⟩
  · exact ⟨fun _ => ⟨known.symm, rfl⟩, fun many => by simp [known] at many⟩
  · exact ⟨fun _ => ⟨known.symm, rfl⟩, fun many => by simp [known] at many⟩
  · exact ⟨fun _ => ⟨known.symm, rfl⟩, fun many => by simp [known] at many⟩
  · exact ⟨fun few => by simp [known] at few, fun _ => ⟨a, known, rfl⟩⟩

theorem Pruned.cases (pruned : Pruned s p listed sessions) :
    (2 < (s.peerSessions p).length ∧ ∃ oldest, s.peerSessions p = oldest :: listed ∧
      sessions = s.sessions.erase (oldest, p)) ∨
    ((s.peerSessions p).length ≤ 2 ∧ listed = s.peerSessions p ∧ sessions = s.sessions) := by
  rcases Nat.lt_or_ge 2 (s.peerSessions p).length with many | few
  · exact .inl ⟨many, pruned.many many⟩
  · exact .inr ⟨few, pruned.few few⟩

theorem Pruned.mem (pruned : Pruned s p listed sessions) (inside : key ∈ sessions) :
    key ∈ s.sessions := by
  rcases pruned.cases with ⟨_, oldest, _, rfl⟩ | ⟨_, rfl, rfl⟩
  · exact (AList.mem_erase.mp inside).2
  · exact inside

theorem Pruned.covers (pruned : Pruned s p listed sessions) {id : Nat}
    (known : id ∈ s.peerSessions p) (inside : (id, p) ∈ sessions) : id ∈ listed := by
  rcases pruned.cases with ⟨_, oldest, split, rfl⟩ | ⟨_, rfl, rfl⟩
  · simp_all
  · exact known

theorem pruneOldest_peerSessions (s : State PeerID L P) (p : PeerID) :
    (pruneOldest s p).2.peerSessions = s.peerSessions := by
  unfold pruneOldest
  split <;> rfl

theorem lookup_foldl_erase (p : PeerID) (key : Nat × PeerID) : ∀ (ids : List Nat)
    (sessions : AList fun _ : Nat × PeerID => SessionState L),
    (ids.foldl (fun sessions sid => sessions.erase (sid, p)) sessions).lookup key =
      if key.2 = p ∧ key.1 ∈ ids then none else sessions.lookup key := by
  intro ids
  induction ids with
  | nil => simp
  | cons id rest ih =>
    intro sessions
    rw [List.foldl_cons, ih]
    by_cases same : key = (id, p)
    · subst same
      simp [AList.lookup_erase]
    · have different : ¬ (key.2 = p ∧ key.1 = id) := by
        rintro ⟨rfl, rfl⟩
        exact same rfl
      rw [AList.lookup_erase_ne same]
      by_cases inside : key.2 = p ∧ key.1 ∈ rest
      · rw [if_pos inside, if_pos ⟨inside.1, List.mem_cons_of_mem id inside.2⟩]
      · grind

theorem handleUnregister_lookup (s : State PeerID L P) (p : PeerID) (key : Nat × PeerID) :
    (handleUnregister s p).sessions.lookup key =
      if key.2 = p ∧ key.1 ∈ s.peerSessions p then none else s.sessions.lookup key :=
  lookup_foldl_erase p key _ _

theorem handleUnregister_peerSessions (s : State PeerID L P) {q : PeerID} (other : q ≠ p) :
    (handleUnregister s p).peerSessions q = s.peerSessions q :=
  Function.update_of_ne other _ _

variable [Locator L]

/-- What an action can do to the session maps and the reader. -/
inductive Effect (cfg : Config) (callback : Callbacks L P) (s : State PeerID L P) :
    Action PeerID L → State PeerID L P → Prop where
  | turn {a : Action PeerID L} {t : State PeerID L P} (sessions : t.sessions = s.sessions)
      (peerSessions : t.peerSessions = s.peerSessions) (turn : Turn s a t.reader)
      (other : a ≠ .readUnregister ∧ a ≠ .wakeUnregister) : Effect cfg callback s a t
  | unregister {a : Action PeerID L} {t : State PeerID L P} {p : PeerID}
      (asked : s.notifyUnregisteredPeer.head? = some p)
      (sessions : t.sessions = (handleUnregister s p).sessions)
      (peerSessions : t.peerSessions = (handleUnregister s p).peerSessions)
      (reader : (a = .readUnregister ∧ s.reader = .idle ∧ t.reader = .idle) ∨
        (a = .wakeUnregister ∧ ∃ after, s.reader = .wait true after ∧
          t.reader = .wait false after)) : Effect cfg callback s a t
  | handle {op : RequestAndPeer PeerID L} (at_ : s.reader = .handle op) :
      Effect cfg callback s .handle (handle cfg s op)
  | chunk {op : RequestAndPeer PeerID L} {session : SessionState L} {i : Nat}
      (at_ : s.reader = .serve op session i) (left : i < op.request.maxChunks)
      (unfinished : session.done = false) :
      Effect cfg callback s .serve (readChunk callback s op session i)

theorem step_effect {cfg : Config} {callback : Callbacks L P} {t : State PeerID L P}
    (run : step cfg callback s a = some t) : Effect cfg callback s a t := by
  cases a with
  | receiveRequest peer request =>
    simp only [step] at run
    split at run
    · cases run
      exact .turn rfl rfl (.same _) (by simp)
    · split at run
      · cases run
        exact .turn rfl rfl (.same _) (by simp)
      · cases run
  | stop =>
    cases run
    exact .turn rfl rfl (.same _) (by simp)
  | readQuit =>
    simp only [step] at run
    split at run
    · next at_ _ =>
      cases run
      exact .turn rfl rfl (.quit at_) (by simp)
    · cases run
  | readUnregister =>
    simp only [step] at run
    split at run
    · next peerID rest at_ queue =>
      cases run
      exact .unregister (by rw [queue]; rfl) rfl rfl (.inl ⟨rfl, at_, at_⟩)
    · cases run
  | readRequest =>
    simp only [step] at run
    split at run
    · next at_ queue =>
      cases run
      exact .turn rfl rfl (.take at_ queue) (by simp)
    · cases run
  | load =>
    simp only [step] at run
    split at run
    · next at_ =>
      split at run
      · cases run
        exact .turn rfl rfl (.block at_) (by simp)
      · cases run
        exact .turn rfl rfl (.resume at_) (by simp)
    · cases run
  | wakeQuit =>
    simp only [step] at run
    split at run
    · next at_ _ =>
      cases run
      exact .turn rfl rfl (.resume at_) (by simp)
    · cases run
  | wakeUnregister =>
    simp only [step] at run
    split at run
    · next after peerID rest at_ queue =>
      cases run
      exact .unregister (by rw [queue]; rfl) rfl rfl (.inr ⟨rfl, after, at_, rfl⟩)
    · cases run
  | wakeReduced =>
    simp only [step] at run
    split at run
    · next at_ _ =>
      cases run
      exact .turn rfl rfl (.reduced at_) (by simp)
    · cases run
  | handle =>
    simp only [step] at run
    split at run
    · next at_ =>
      cases run
      exact .handle at_
    · cases run
  | serve =>
    simp only [step] at run
    split at run
    · next at_ =>
      split at run
      · next more =>
        cases run
        exact .chunk at_ more.1 more.2
      · next ended =>
        cases run
        exact .turn rfl rfl (.finish at_ ended) (by simp)
    · cases run
  | add =>
    simp only [step] at run
    split at run
    · next at_ =>
      cases run
      exact .turn rfl rfl (.add at_) (by simp)
    · cases run
  | enqueue =>
    simp only [step] at run
    split at run
    · next at_ =>
      split at run
      · cases run
        exact .turn rfl rfl (.next at_) (by simp)
      · cases run
    · cases run
  | enqueueQuit =>
    simp only [step] at run
    split at run
    · next at_ _ =>
      cases run
      exact .turn rfl rfl (.next at_) (by simp)
    · cases run
  | receiveUnregister _ | takeTask _ | sendChunk _ | subtract _ | signal _ | drain _ =>
    simp only [step] at run
    split at run
    · cases run
      exact .turn rfl rfl (.same _) (by simp)
    · cases run

inductive Admission (cfg : Config) (s : State PeerID L P) (op : RequestAndPeer PeerID L)
    (listed : List Nat) (sessions : AList fun _ : Nat × PeerID => SessionState L)
    (t : State PeerID L P) : Prop where
  | full (absent : sessions.lookup (op.request.session.id, op.peer.id) = none)
      (cap : cfg.globalSessions ≤ sessions.keys.length) (reader : t.reader = .idle)
      (peerSessions : t.peerSessions = s.peerSessions)
  | opened {session : SessionState L}
      (absent : sessions.lookup (op.request.session.id, op.peer.id) = none)
      (cap : sessions.keys.length < cfg.globalSessions) (unfinished : session.done = false)
      (reader : t.reader = .serve op session 0)
      (peerSessions : t.peerSessions =
        Function.update s.peerSessions op.peer.id (listed ++ [op.request.session.id]))
  | mismatch {session : SessionState L}
      (found : sessions.lookup (op.request.session.id, op.peer.id) = some session)
      (reader : t.reader = .idle) (peerSessions : t.peerSessions = s.peerSessions)
  | resumed {session : SessionState L}
      (found : sessions.lookup (op.request.session.id, op.peer.id) = some session)
      (reader : t.reader = .serve op session 0) (peerSessions : t.peerSessions = s.peerSessions)

theorem handle_admission (cfg : Config) (s : State PeerID L P) (op : RequestAndPeer PeerID L) :
    ∃ listed sessions, Pruned s op.peer.id listed sessions ∧
      (handle cfg s op).sessions = sessions ∧
      Admission cfg s op listed sessions (handle cfg s op) := by
  have pruned := pruneOldest_pruned s op.peer.id
  have same := pruneOldest_peerSessions s op.peer.id
  unfold handle
  generalize pruneOldest s op.peer.id = result at pruned same ⊢
  obtain ⟨listed, q⟩ := result
  dsimp only at pruned same ⊢
  split
  · next absent =>
    split
    · next cap => exact ⟨listed, q.sessions, pruned, rfl, .full absent cap rfl same⟩
    · next cap =>
      refine ⟨listed, q.sessions, pruned, rfl, .opened absent (not_le.mp cap) rfl rfl ?_⟩
      rw [same]
  · next session found =>
    split
    · exact ⟨listed, q.sessions, pruned, rfl, .mismatch found rfl same⟩
    · exact ⟨listed, q.sessions, pruned, rfl, .resumed found rfl same⟩

section Steps

variable {cfg : Config} {callback : Callbacks L P} {s t : State PeerID L P} {a : Action PeerID L}

variable {p : PeerID} {key : Nat × PeerID}

omit [Locator L] in
theorem mem_unregistered : key ∈ (handleUnregister s p).sessions ↔
      key ∈ s.sessions ∧ ¬ (key.2 = p ∧ key.1 ∈ s.peerSessions p) := by
  rw [← AList.lookup_isSome, handleUnregister_lookup, ← AList.lookup_isSome]
  split
  · next own => simp [own]
  · next other => simp [other]

theorem readChunk_lookup (op : RequestAndPeer PeerID L) (session : SessionState L) (i : Nat)
    (other : key ≠ (op.request.session.id, op.peer.id)) :
    (readChunk callback s op session i).sessions.lookup key = s.sessions.lookup key :=
  AList.lookup_insert_ne other

theorem listed_step (listed : Listed s) (unbroken : Unbroken s a)
    (run : step cfg callback s a = some t) : Listed t := by
  rcases step_effect run with
    ⟨sessions, peerSessions, turn, _⟩ | ⟨asked, sessions, peerSessions, reader⟩ | @⟨op, at_⟩ |
    @⟨op, session, i, at_, left, unfinished⟩
  · exact ⟨by rw [sessions, peerSessions]; exact listed.sessions,
      fun id p writes => by rw [peerSessions]; exact listed.writes id p (turn.writes writes)⟩
  · rename_i p
    constructor
    · intro id q inside
      rw [sessions, mem_unregistered] at inside
      have known := listed.sessions id q inside.1
      have other : q ≠ p := by
        rintro rfl
        exact inside.2 ⟨rfl, known⟩
      rw [peerSessions, handleUnregister_peerSessions s other]
      exact known
    · intro id q writes
      rcases reader with ⟨_, _, idle⟩ | ⟨isWake, after, blocked, later⟩
      · rw [idle] at writes
        exact writes.elim
      · have before : s.reader.Writes (id, q) := by
          rw [later] at writes
          rw [blocked]
          cases after <;> exact writes
        have other : q ≠ p := by
          rintro rfl
          exact unbroken isWake q asked id before
        rw [peerSessions, handleUnregister_peerSessions s other]
        exact listed.writes id q before
  · obtain ⟨known, sessions, pruned, same, admission⟩ := handle_admission cfg s op
    have old : ∀ id q, (id, q) ∈ sessions → id ∈ s.peerSessions q := fun id q inside =>
      listed.sessions id q (pruned.mem inside)
    rw [← same] at old
    cases admission with
    | full _ _ reader peerSessions | mismatch _ reader peerSessions =>
      exact ⟨by rw [peerSessions]; exact old, fun id q writes => by
        rw [reader] at writes; exact writes.elim⟩
    | resumed found reader peerSessions =>
      refine ⟨by rw [peerSessions]; exact old, fun id q writes => ?_⟩
      rw [reader] at writes
      obtain ⟨rfl, rfl⟩ := Prod.mk.injEq .. ▸ writes.1
      rw [peerSessions]
      refine listed.sessions _ _ (pruned.mem (AList.lookup_isSome.mp ?_))
      rw [found]
      rfl
    | opened absent _ _ reader peerSessions =>
      constructor
      · intro id q inside
        rw [peerSessions]
        by_cases own : q = op.peer.id
        · subst own
          rw [Function.update_self]
          exact List.mem_append_left _ (pruned.covers (old id _ inside) (same ▸ inside))
        · rw [Function.update_of_ne own]
          exact old id q inside
      · intro id q writes
        rw [reader] at writes
        obtain ⟨rfl, rfl⟩ := Prod.mk.injEq .. ▸ writes.1
        rw [peerSessions, Function.update_self]
        simp
  · have own := listed.writes _ _ (show s.reader.Writes (op.request.session.id, op.peer.id) by
      rw [at_]; exact ⟨rfl, left, unfinished⟩)
    constructor
    · intro id q inside
      rcases (AList.mem_insert _).mp inside with same | old
      · obtain ⟨rfl, rfl⟩ := Prod.mk.injEq .. ▸ same
        exact own
      · exact listed.sessions id q old
    · intro id q writes
      obtain ⟨rfl, rfl⟩ := Prod.mk.injEq .. ▸ writes.1
      exact own

structure Gone (p : PeerID) (s : State PeerID L P) : Prop where
  sessions : ∀ id, (id, p) ∉ s.sessions
  idle : ¬ s.reader.Engaged p

theorem unregister_gone (listed : Listed s) (undisturbed : Undisturbed s a)
    (run : step cfg callback s a = some t) (which : a = .readUnregister ∨ a = .wakeUnregister)
    (asked : s.notifyUnregisteredPeer.head? = some p) : Gone p t := by
  rcases step_effect run with
    ⟨_, _, _, other⟩ | ⟨asked', sessions, _, reader⟩ | at_ | ⟨at_, _, _⟩
  · grind
  · rename_i q _
    have same : q = p := Option.some.inj (asked'.symm.trans asked)
    subst q
    constructor
    · intro id inside
      rw [sessions, mem_unregistered] at inside
      exact inside.2 ⟨rfl, listed.sessions id p inside.1⟩
    · rcases reader with ⟨_, _, idle⟩ | ⟨isWake, after, blocked, later⟩
      · rw [idle]
        rintro (admits | ⟨_, writes⟩)
        · exact admits.elim
        · exact writes.elim
      · have free := undisturbed isWake p asked
        rw [blocked] at free
        rw [later]
        cases after <;> exact free
  · simp at which
  · simp at which

theorem gone_step (gone : Gone p s) (waits : ¬ Takes p s a) (run : step cfg callback s a = some t) :
    Gone p t := by
  rcases step_effect run with
    ⟨sessions, _, turn, _⟩ | ⟨_, sessions, _, reader⟩ | @⟨op, at_⟩ |
    @⟨op, session, i, at_, left, unfinished⟩
  · refine ⟨by rw [sessions]; exact gone.sessions, ?_⟩
    rintro (admits | ⟨id, writes⟩)
    · exact (turn.admits admits).elim (fun before => gone.idle (.inl before)) waits
    · exact gone.idle (.inr ⟨id, turn.writes writes⟩)
  · constructor
    · intro id inside
      rw [sessions, mem_unregistered] at inside
      exact gone.sessions id inside.1
    · have free := gone.idle
      rcases reader with ⟨_, _, idle⟩ | ⟨_, after, blocked, later⟩
      · grind
      · rw [blocked] at free
        rw [later]
        cases after <;> exact free
  · obtain ⟨known, sessions, pruned, same, admission⟩ := handle_admission cfg s op
    refine ⟨fun id inside => gone.sessions id (pruned.mem (same ▸ inside)), ?_⟩
    -- the request is of another peer, or of one that asks for no chunk
    have absent : ∀ session, ¬ (Reader.serve op session 0 : Reader PeerID L P).Engaged p := by
      rintro session (admits | ⟨id, writes⟩)
      · exact admits.elim
      · obtain ⟨rfl, rfl⟩ := Prod.mk.injEq .. ▸ writes.1
        refine gone.idle (.inl ?_)
        rw [at_]
        exact ⟨rfl, writes.2.1⟩
    have idle : ¬ (Reader.idle : Reader PeerID L P).Engaged p := by
      rintro (admits | ⟨_, writes⟩)
      · exact admits.elim
      · exact writes.elim
    cases admission with
    | full _ _ reader _ => rw [reader]; exact idle
    | mismatch _ reader _ => rw [reader]; exact idle
    | resumed _ reader _ => rw [reader]; exact absent _
    | opened _ _ _ reader _ => rw [reader]; exact absent _
  · have other : op.peer.id ≠ p := by
      rintro rfl
      refine gone.idle (.inr ⟨op.request.session.id, ?_⟩)
      rw [at_]
      exact ⟨rfl, left, unfinished⟩
    constructor
    · intro id inside
      rcases (AList.mem_insert _).mp inside with same | old
      · exact other (congrArg Prod.snd same).symm
      · exact gone.sessions id old
    · rintro (admits | ⟨id, writes⟩)
      · exact admits.elim
      · exact other (congrArg Prod.snd writes.1)

end Steps

section Runs

variable {cfg : Config} {callback : Callbacks L P}

/-- Where no peer is unregistered from within its own unfinished request, every session is
listed, and an unregistered peer has none until its next request is taken. -/
theorem unregistered_stays_gone {before : List (Action PeerID L)} {s : State PeerID L P}
    (reached : Run (step cfg callback) Undisturbed State.new before s) :
    (∀ id q, (id, q) ∈ s.sessions → id ∈ s.peerSessions q) ∧
    ∀ p a t, a = .readUnregister ∨ a = .wakeUnregister →
      s.notifyUnregisteredPeer.head? = some p → Undisturbed s a →
      step cfg callback s a = some t → ∀ after u,
      Run (step cfg callback) (fun s a => Undisturbed s a ∧ ¬ Takes p s a) t after u →
      ∀ id, (id, p) ∉ u.sessions := by
  have listed : Listed s := reached.invariant
    (fun s a t inv meets run => listed_step inv meets.unbroken run) new_listed
  refine ⟨listed.sessions, fun p a t which asked meets unregisters after u later => ?_⟩
  have gone : Gone p t := unregister_gone listed meets unregisters which asked
  have final : Gone p u := later.invariant (fun s a t inv meets run => gone_step inv meets.2 run) gone
  exact final.sessions

end Runs

section Sample

instance : Locator Nat where
  compare a b := a - b
  inc a := a + 1
  compare_self a := Int.sub_self a

def sampleCallbacks : Callbacks Nat Nat where
  empty := 0
  items start _ := [(start, 1), (start + 1, 2), (start + 2, 3)]
  len payload := payload
  totalSize payload := payload
  totalMemSize payload := payload

def sampleConfig (maxPendingResponsesSize : Int) : Config where
  senderThreads := 1
  maxSenderTasks := 8
  maxPendingResponsesSize := maxPendingResponsesSize
  maxResponsePayloadNum := 100
  maxResponsePayloadSize := 100
  maxResponseChunks := 12
  maxGlobalSessions := 0

def ask (id maxChunks : Nat) : Action Nat Nat :=
  .receiveRequest ⟨1, 0⟩ ⟨⟨id, 0, 100⟩, 0, 1, 100, maxChunks⟩

def serveOne (id : Nat) : List (Action Nat Nat) :=
  [ask id 1, .readRequest, .load, .handle, .serve, .load, .add, .enqueue, .serve]

end Sample

theorem unregistered_stays_gone_sample : ∃ (s t : State Nat Nat Nat),
    Run (step (sampleConfig 1) sampleCallbacks) Undisturbed State.new
      (serveOne 7 ++ [.receiveUnregister 1]) s ∧ (7, 1) ∈ s.sessions ∧
    step (sampleConfig 1) sampleCallbacks s .readUnregister = some t ∧ (7, 1) ∉ t.sessions := by
  have calm : ∀ a ∈ serveOne 7 ++ [.receiveUnregister 1],
      ∀ s : State Nat Nat Nat, Undisturbed s a := by
    intro a member s isWake
    rw [isWake] at member
    simp [serveOne, ask] at member
  have reached : Run (step (sampleConfig 1) sampleCallbacks) Undisturbed State.new
      (serveOne 7 ++ [.receiveUnregister 1]) _ := .of_foldlM calm rfl
  refine ⟨_, _, reached, AList.lookup_isSome.mp rfl, rfl, ?_⟩
  exact (unregistered_stays_gone reached).2 1 .readUnregister _ (.inl rfl) rfl
    (fun isWake => by cases isWake) rfl [] _ (.nil _) 7

/-- A peer unregistered under backpressure, between two chunks of its request, has its
session back with the next chunk, and nothing lists it any more. -/
theorem unregistered_comes_back : ∃ (before : List (Action Nat Nat)) (s t u : State Nat Nat Nat)
    (after : List (Action Nat Nat)),
    Run (step (sampleConfig 1) sampleCallbacks) (fun _ _ => True) State.new before s ∧
    s.notifyUnregisteredPeer.head? = some 1 ∧
    step (sampleConfig 1) sampleCallbacks s .wakeUnregister = some t ∧
    Run (step (sampleConfig 1) sampleCallbacks) (fun s a => ¬ Takes 1 s a) t after u ∧
    (7, 1) ∈ u.sessions ∧ 7 ∉ u.peerSessions 1 := by
  let before : List (Action Nat Nat) := [ask 7 3, .receiveUnregister 1, .readRequest, .load, .handle,
    .serve, .load, .add, .enqueue, .serve, .load]
  let after : List (Action Nat Nat) := [.takeTask 0, .sendChunk 0, .subtract 0, .signal 0, .load, .add,
    .enqueue, .serve]
  have quiet : ∀ a ∈ after, ∀ s : State Nat Nat Nat, ¬ Takes 1 s a := by
    intro a member s taken
    rw [taken.1] at member
    simp [after] at member
  refine ⟨before, _, _, _, after, .of_foldlM (fun _ _ _ => trivial) rfl, rfl, rfl,
    .of_foldlM quiet rfl, ?_, ?_⟩
  · exact AList.lookup_isSome.mp rfl
  · exact List.not_mem_nil

end Lachesis.Gossip.Seeder
