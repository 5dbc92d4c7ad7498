import Lachesis.Gossip.SeederSessions

/-!
The sessions listed for a peer are the sessions stored for it, as long as every request
that finds three sessions opens another one, a request that opens a session asks for a
chunk, and no peer is unregistered between two chunks of its own request.
-/

namespace Lachesis.Gossip.Seeder

open Transition

variable {PeerID L P : Type}

def Reader.Opens (key : Nat × PeerID) : Reader PeerID L P → Prop
  | .serve op session i => i = 0 ∧ (op.request.session.id, op.peer.id) = key ∧
      0 < op.request.maxChunks ∧ session.done = false
  | _ => False

variable {r : Reader PeerID L P} {key : Nat × PeerID} {a : Action PeerID L} {s : State PeerID L P}
  {sessions : AList fun _ : Nat × PeerID => SessionState L}

theorem Turn.opens (turn : Turn s a r) (opens : s.reader.Opens key) : r.Opens key := by
  cases turn with
  | same => exact opens
  | quit at_ => rw [at_] at opens; exact opens.elim
  | take at_ _ => rw [at_] at opens; exact opens.elim
  | block at_ => rw [at_] at opens; exact opens.elim
  | resume at_ => rw [at_] at opens; exact opens.elim
  | reduced at_ => rw [at_] at opens; exact opens.elim
  | finish at_ ended =>
    rw [at_] at opens
    obtain ⟨rfl, _, more⟩ := opens
    exact absurd more ended
  | add at_ => rw [at_] at opens; exact opens.elim
  | next at_ => rw [at_] at opens; exact opens.elim

theorem Turn.opened (turn : Turn s a r) (opens : r.Opens key) : s.reader.Opens key := by
  cases turn with
  | same => exact opens
  | quit => exact opens.elim
  | take => exact opens.elim
  | block => exact opens.elim
  | @resume _ _ after _ => cases after <;> exact opens.elim
  | reduced => exact opens.elim
  | finish => exact opens.elim
  | add => exact opens.elim
  | next => exact absurd opens.1 (Nat.succ_ne_zero _)

/-- A request with two sessions or fewer before it names one of them or asks for a chunk;
one with three before it opens a new session, or the oldest again. -/
def Orderly (s : State PeerID L P) (op : RequestAndPeer PeerID L) : Prop :=
  ((s.peerSessions op.peer.id).length ≤ 2 →
    op.request.session.id ∈ s.peerSessions op.peer.id ∨ 0 < op.request.maxChunks) ∧
  (2 < (s.peerSessions op.peer.id).length →
    op.request.session.id ∉ (s.peerSessions op.peer.id).tail ∧ 0 < op.request.maxChunks)

def InOrder (s : State PeerID L P) (a : Action PeerID L) : Prop :=
  Unbroken s a ∧ (a = .handle → ∀ op, s.reader = .handle op → Orderly s op)

/-- The two session maps agree, up to a session that is just being opened. -/
structure Isolated (cfg : Config) (s : State PeerID L P) : Prop where
  listed : Listed s
  nodup : ∀ p, (s.peerSessions p).Nodup
  three : ∀ p, (s.peerSessions p).length ≤ 3
  stored : ∀ id p, id ∈ s.peerSessions p → (id, p) ∈ s.sessions ∨ s.reader.Opens (id, p)
  cap : s.sessions.keys.length ≤ cfg.globalSessions
  room : ∀ key, s.reader.Opens key → key ∈ s.sessions ∨
    s.sessions.keys.length < cfg.globalSessions

theorem new_isolated (cfg : Config) : Isolated cfg (State.new : State PeerID L P) where
  listed := new_listed
  nodup _ := List.nodup_nil
  three _ := by simp [State.new]
  stored _ _ known := by cases known
  cap := Nat.zero_le _
  room _ opens := opens.elim

variable [DecidableEq PeerID]

theorem keys_erase_length (key : Nat × PeerID) :
    (sessions.erase key).keys.length ≤ sessions.keys.length := by
  rw [AList.keys_erase]
  exact (@List.erase_sublist _ instBEqOfDecidableEq _ _).length_le

theorem keys_erase_length_of_mem (inside : key ∈ sessions) :
    (sessions.erase key).keys.length + 1 = sessions.keys.length := by
  rw [AList.keys_erase]
  have positive := List.length_pos_of_mem (AList.mem_keys.mp inside)
  have shorter := @List.length_erase_of_mem _ instBEqOfDecidableEq _ _ _ (AList.mem_keys.mp inside)
  omega

theorem keys_foldl_erase_length (p : PeerID) : ∀ (ids : List Nat)
    (sessions : AList fun _ : Nat × PeerID => SessionState L),
    (ids.foldl (fun sessions sid => sessions.erase (sid, p)) sessions).keys.length ≤
      sessions.keys.length := by
  intro ids
  induction ids with
  | nil => exact fun _ => le_rfl
  | cons id rest ih =>
    intro sessions
    exact (ih _).trans (keys_erase_length _)

theorem keys_insert_length (key : Nat × PeerID) (session : SessionState L) :
    (sessions.insert key session).keys.length ≤ sessions.keys.length + 1 ∧
      (key ∈ sessions → (sessions.insert key session).keys.length = sessions.keys.length) := by
  rw [AList.keys_insert, List.length_cons, ← AList.keys_erase]
  refine ⟨Nat.succ_le_succ (keys_erase_length key), fun inside => ?_⟩
  exact keys_erase_length_of_mem inside

section Handle

variable {cfg : Config} {s : State PeerID L P} {op : RequestAndPeer PeerID L} {listed : List Nat}
  {sessions : AList fun _ : Nat × PeerID => SessionState L} (isolated : Isolated cfg s)
  (at_ : s.reader = .handle op) (orderly : Orderly s op)
  (pruned : Pruned s op.peer.id listed sessions)

variable {id : Nat}

include isolated at_ in
omit [DecidableEq PeerID] in
theorem Isolated.mem_of_listed {p : PeerID} (known : id ∈ s.peerSessions p) :
    (id, p) ∈ s.sessions := by
  rcases isolated.stored id p known with inside | opens
  · exact inside
  · rw [at_] at opens
    exact opens.elim

include isolated at_ pruned in
theorem refused_quiet (full : cfg.globalSessions ≤ sessions.keys.length) :
    sessions = s.sessions := by
  rcases pruned.cases with ⟨_, oldest, split, rfl⟩ | ⟨_, _, same⟩
  · have inside : (oldest, op.peer.id) ∈ s.sessions :=
      isolated.mem_of_listed at_ (by rw [split]; exact List.mem_cons_self)
    have shorter := keys_erase_length_of_mem inside
    have cap := isolated.cap
    omega
  · exact same

include isolated orderly pruned in
theorem found_quiet {session : SessionState L}
    (found : sessions.lookup (op.request.session.id, op.peer.id) = some session) :
    sessions = s.sessions := by
  rcases pruned.cases with ⟨many, oldest, split, _⟩ | ⟨_, _, same⟩
  · have inside : (op.request.session.id, op.peer.id) ∈ sessions :=
      AList.lookup_isSome.mp (by rw [found]; rfl)
    have known := isolated.listed.sessions _ _ (pruned.mem inside)
    have later := pruned.covers known inside
    have absent := (orderly.2 many).1
    rw [split] at absent
    exact absurd later absent
  · exact same

include isolated at_ orderly pruned in
theorem opened_fresh (absent : sessions.lookup (op.request.session.id, op.peer.id) = none) :
    op.request.session.id ∉ listed ∧ 0 < op.request.maxChunks := by
  rcases pruned.cases with ⟨many, oldest, split, _⟩ | ⟨few, rfl, rfl⟩
  · have asked := orderly.2 many
    rw [split] at asked
    exact asked
  · have fresh : op.request.session.id ∉ s.peerSessions op.peer.id := fun known =>
      AList.lookup_eq_none.mp absent (isolated.mem_of_listed at_ known)
    exact ⟨fresh, (orderly.1 few).resolve_left fresh⟩

include isolated at_ pruned in
theorem listed_stored (known : id ∈ listed) : (id, op.peer.id) ∈ sessions := by
  rcases pruned.cases with ⟨_, oldest, split, rfl⟩ | ⟨_, rfl, rfl⟩
  · have nodup := isolated.nodup op.peer.id
    rw [split] at nodup
    have other : id ≠ oldest := by
      rintro rfl
      exact (List.nodup_cons.mp nodup).1 known
    refine AList.mem_erase.mpr ⟨fun same => other (congrArg Prod.fst same), ?_⟩
    exact isolated.mem_of_listed at_ (by rw [split]; exact List.mem_cons_of_mem _ known)
  · exact isolated.mem_of_listed at_ known

include isolated pruned in
theorem listed_room : listed.Nodup ∧ listed.length ≤ 2 := by
  rcases pruned.cases with ⟨_, oldest, split, _⟩ | ⟨few, rfl, _⟩
  · have nodup := isolated.nodup op.peer.id
    have three := isolated.three op.peer.id
    rw [split] at nodup three
    exact ⟨(List.nodup_cons.mp nodup).2, Nat.le_of_succ_le_succ three⟩
  · exact ⟨isolated.nodup _, few⟩

include pruned in
theorem other_stored {id : Nat} {q : PeerID} (other : q ≠ op.peer.id)
    (inside : (id, q) ∈ s.sessions) : (id, q) ∈ sessions := by
  rcases pruned.cases with ⟨_, oldest, _, rfl⟩ | ⟨_, _, rfl⟩
  · exact AList.mem_erase.mpr ⟨fun same => other (congrArg Prod.snd same), inside⟩
  · exact inside

include pruned in
theorem pruned_length : sessions.keys.length ≤ s.sessions.keys.length := by
  rcases pruned.cases with ⟨_, oldest, _, rfl⟩ | ⟨_, _, rfl⟩
  · exact keys_erase_length _
  · rfl

end Handle

variable [Locator L]

section Steps

variable {cfg : Config} {callback : Callbacks L P} {s t : State PeerID L P} {a : Action PeerID L}

variable {op : RequestAndPeer PeerID L}

theorem handle_isolated (isolated : Isolated cfg s) (at_ : s.reader = .handle op)
    (orderly : Orderly s op) (listed : Listed (handle cfg s op)) :
    Isolated cfg (handle cfg s op) := by
  obtain ⟨known, sessions, pruned, same, admission⟩ := handle_admission cfg s op
  have unchanged : (handle cfg s op).sessions = s.sessions →
      (handle cfg s op).peerSessions = s.peerSessions →
      (∀ key, (handle cfg s op).reader.Opens key → key ∈ s.sessions) →
      Isolated cfg (handle cfg s op) := by
    intro still lists opens
    refine ⟨listed, ?_, ?_, ?_, ?_, ?_⟩
    · rw [lists]
      exact isolated.nodup
    · rw [lists]
      exact isolated.three
    · intro id p inside
      rw [lists] at inside
      rw [still]
      exact .inl (isolated.mem_of_listed at_ inside)
    · rw [still]
      exact isolated.cap
    · intro key opened
      rw [still]
      exact .inl (opens key opened)
  cases admission with
  | full _ cap reader peerSessions =>
    refine unchanged (same.trans (refused_quiet isolated at_ pruned cap)) peerSessions ?_
    intro key opens
    rw [reader] at opens
    exact opens.elim
  | mismatch found reader peerSessions =>
    refine unchanged (same.trans (found_quiet isolated orderly pruned found)) peerSessions ?_
    intro key opens
    rw [reader] at opens
    exact opens.elim
  | resumed found reader peerSessions =>
    refine unchanged (same.trans (found_quiet isolated orderly pruned found)) peerSessions ?_
    intro key opens
    rw [reader] at opens
    obtain ⟨_, rfl, _⟩ := opens
    exact pruned.mem (AList.lookup_isSome.mp (by rw [found]; rfl))
  | opened absent cap unfinished reader peerSessions =>
    obtain ⟨fresh, asked⟩ := opened_fresh isolated at_ orderly pruned absent
    obtain ⟨nodup, two⟩ := listed_room isolated pruned
    refine ⟨listed, fun p => ?_, fun p => ?_, fun id p inside => ?_, ?_, fun key _ => ?_⟩
    · rw [peerSessions]
      by_cases own : p = op.peer.id
      · grind
      · rw [Function.update_of_ne own]
        exact isolated.nodup p
    · rw [peerSessions]
      by_cases own : p = op.peer.id
      · grind
      · rw [Function.update_of_ne own]
        exact isolated.three p
    · rw [peerSessions] at inside
      rw [same, reader]
      by_cases own : p = op.peer.id
      · subst own
        rw [Function.update_self] at inside
        rcases List.mem_append.mp inside with old | new
        · exact .inl (listed_stored isolated at_ pruned old)
        · rw [List.mem_singleton.mp new]
          exact .inr ⟨rfl, rfl, asked, unfinished⟩
      · rw [Function.update_of_ne own] at inside
        exact .inl (other_stored pruned own (isolated.mem_of_listed at_ inside))
    · rw [same]
      exact (pruned_length pruned).trans isolated.cap
    · rw [same]
      exact .inr cap

omit [Locator L] in
theorem unregister_isolated (isolated : Isolated cfg s) {p : PeerID} (listed : Listed t)
    (sessions : t.sessions = (handleUnregister s p).sessions)
    (peerSessions : t.peerSessions = (handleUnregister s p).peerSessions)
    (closed : ∀ key, ¬ s.reader.Opens key ∧ ¬ t.reader.Opens key) : Isolated cfg t := by
  have emptied : (handleUnregister s p).peerSessions p = [] := by simp [handleUnregister]
  refine ⟨listed, fun q => ?_, fun q => ?_, fun id q known => ?_, ?_, fun key opens => ?_⟩
  · rw [peerSessions]
    by_cases own : q = p
    · subst own
      rw [emptied]
      exact List.nodup_nil
    · rw [handleUnregister_peerSessions s own]
      exact isolated.nodup q
  · rw [peerSessions]
    by_cases own : q = p
    · subst own
      rw [emptied]
      exact Nat.zero_le 3
    · rw [handleUnregister_peerSessions s own]
      exact isolated.three q
  · rw [peerSessions] at known
    have own : q ≠ p := by
      rintro rfl
      rw [emptied] at known
      cases known
    rw [handleUnregister_peerSessions s own] at known
    have inside := (isolated.stored id q known).resolve_right (closed (id, q)).1
    refine .inl ?_
    rw [sessions, mem_unregistered]
    exact ⟨inside, fun gone => own gone.1⟩
  · rw [sessions]
    exact (keys_foldl_erase_length p _ _).trans isolated.cap
  · exact absurd opens (closed key).2

theorem chunk_isolated (isolated : Isolated cfg s) {session : SessionState L} {i : Nat}
    (at_ : s.reader = .serve op session i) (left : i < op.request.maxChunks)
    (unfinished : session.done = false) (listed : Listed (readChunk callback s op session i)) :
    Isolated cfg (readChunk callback s op session i) := by
  have known := isolated.listed.writes op.request.session.id op.peer.id (by
    rw [at_]
    exact ⟨rfl, left, unfinished⟩)
  refine ⟨listed, isolated.nodup, isolated.three, fun id p inside => ?_, ?_, fun key opens => ?_⟩
  · refine .inl ((AList.mem_insert _).mpr ?_)
    rcases isolated.stored id p inside with old | opens
    · exact .inr old
    · rw [at_] at opens
      exact .inl opens.2.1.symm
  · have room : (op.request.session.id, op.peer.id) ∈ s.sessions ∨
        s.sessions.keys.length < cfg.globalSessions :=
      (isolated.stored _ _ known).elim .inl (isolated.room _)
    rcases room with inside | space
    · exact ((keys_insert_length _ _).2 inside).trans_le isolated.cap
    · exact (keys_insert_length _ _).1.trans space
  · exact opens.elim

theorem isolated_step (isolated : Isolated cfg s) (meets : InOrder s a)
    (run : step cfg callback s a = some t) : Isolated cfg t := by
  have listed := listed_step isolated.listed meets.1 run
  rcases step_effect run with
    ⟨sessions, peerSessions, turn, _⟩ | @⟨_, _, p, _, sessions, peerSessions, reader⟩ |
    @⟨op, at_⟩ | @⟨op, session, i, at_, left, unfinished⟩
  · refine ⟨listed, ?_, ?_, fun id p known => ?_, ?_, fun key opens => ?_⟩
    · rw [peerSessions]
      exact isolated.nodup
    · rw [peerSessions]
      exact isolated.three
    · rw [peerSessions] at known
      rw [sessions]
      exact (isolated.stored id p known).imp_right turn.opens
    · rw [sessions]
      exact isolated.cap
    · rw [sessions]
      exact isolated.room key (turn.opened opens)
  · refine unregister_isolated isolated listed sessions peerSessions fun key => ?_
    rcases reader with ⟨_, before, after⟩ | ⟨_, after, before, later⟩
    · rw [before, after]
      exact ⟨id, id⟩
    · rw [before, later]
      exact ⟨id, id⟩
  · exact handle_isolated isolated at_ (meets.2 rfl op at_) listed
  · exact chunk_isolated isolated at_ left unfinished listed

theorem handle_refused (isolated : Isolated cfg s) (at_ : s.reader = .handle op)
    (orderly : Orderly s op) (refused : (handle cfg s op).reader = .idle) :
    (handle cfg s op).sessions = s.sessions ∧ (handle cfg s op).peerSessions = s.peerSessions := by
  obtain ⟨known, sessions, pruned, same, admission⟩ := handle_admission cfg s op
  rw [same]
  cases admission with
  | full _ cap _ peerSessions => exact ⟨refused_quiet isolated at_ pruned cap, peerSessions⟩
  | mismatch found _ peerSessions => exact ⟨found_quiet isolated orderly pruned found, peerSessions⟩
  | resumed _ reader _ => rw [reader] at refused; cases refused
  | opened _ _ _ reader _ => rw [reader] at refused; cases refused

theorem handle_lookup (isolated : Isolated cfg s) (orderly : Orderly s op)
    (inside : (op.request.session.id, op.peer.id) ∈ s.sessions) {key : Nat × PeerID}
    (other : key ≠ (op.request.session.id, op.peer.id)) :
    (handle cfg s op).sessions.lookup key = s.sessions.lookup key := by
  obtain ⟨known, sessions, pruned, same, _⟩ := handle_admission cfg s op
  rw [same]
  rcases Nat.lt_or_ge 2 (s.peerSessions op.peer.id).length with many | few
  · obtain ⟨oldest, split, rfl⟩ := pruned.many many
    have listed := isolated.listed.sessions _ _ inside
    have later := (orderly.2 many).1
    rw [split] at listed later
    obtain rfl : op.request.session.id = oldest := (List.mem_cons.mp listed).resolve_right later
    exact AList.lookup_erase_ne other
  · rw [(pruned.few few).2]

end Steps

section Runs

variable {cfg : Config} {callback : Callbacks L P}

/-- The sessions listed for a peer are its stored ones, at most three, and a request for a stored
session changes no other session. -/
theorem sessions_isolated {before : List (Action PeerID L)} {s : State PeerID L P}
    (reached : Run (step cfg callback) InOrder State.new before s) :
    (s.reader = .idle → ∀ p, (s.peerSessions p).Nodup ∧ (s.peerSessions p).length ≤ 3 ∧
      ∀ id, id ∈ s.peerSessions p ↔ (id, p) ∈ s.sessions) ∧
    s.sessions.keys.length ≤ cfg.globalSessions ∧
    (∀ op t, s.reader = .handle op → InOrder s .handle → step cfg callback s .handle = some t →
      ((op.request.session.id, op.peer.id) ∈ s.sessions →
        ∀ key ≠ (op.request.session.id, op.peer.id), t.sessions.lookup key = s.sessions.lookup key) ∧
      (t.reader = .idle → t.sessions = s.sessions ∧ t.peerSessions = s.peerSessions)) ∧
    ∀ op session i t, s.reader = .serve op session i → step cfg callback s .serve = some t →
      ∀ key ≠ (op.request.session.id, op.peer.id),
        t.sessions.lookup key = s.sessions.lookup key := by
  have isolated : Isolated cfg s := reached.invariant
    (fun s a t inv meets run => isolated_step inv meets run) (new_isolated cfg)
  refine ⟨fun idle p => ⟨isolated.nodup p, isolated.three p, fun id => ⟨fun known => ?_, ?_⟩⟩,
    isolated.cap, fun op t at_ meets run => ?_, fun op session i t at_ run key other => ?_⟩
  · refine (isolated.stored id p known).resolve_right ?_
    rw [idle]
    exact fun opens => opens
  · exact isolated.listed.sessions id p
  · simp only [step, at_, Option.some.injEq] at run
    subst run
    have orderly := meets.2 rfl op at_
    exact ⟨fun inside key other => handle_lookup isolated orderly inside other,
      handle_refused isolated at_ orderly⟩
  · simp only [step, at_] at run
    split at run
    · cases run
      exact readChunk_lookup op session i other
    · cases run
      rfl

end Runs

theorem inOrder_handle {s : State Nat Nat Nat} {op : RequestAndPeer Nat Nat} (at_ : s.reader = .handle op)
    (few : (s.peerSessions op.peer.id).length ≤ 2) (some_ : 0 < op.request.maxChunks) :
    InOrder s .handle := by
  refine ⟨fun wake => (nomatch wake), fun _ other at' => ?_⟩
  cases at_.symm.trans at'
  exact ⟨fun _ => .inr some_, fun many => absurd many (not_lt.mpr few)⟩

/-- Two sessions of one peer. -/
theorem sessions_isolated_sample : ∃ s : State Nat Nat Nat,
    Run (step (sampleConfig 100) sampleCallbacks) InOrder State.new (serveOne 1 ++ serveOne 2) s ∧
    s.reader = .idle ∧ s.peerSessions 1 = [1, 2] ∧ (1, 1) ∈ s.sessions ∧ (2, 1) ∈ s.sessions := by
  have calm : ∀ {s t : State Nat Nat Nat} {l : List (Action Nat Nat)},
      .wakeUnregister ∉ l ∧ .handle ∉ l → l.foldlM (step (sampleConfig 100) sampleCallbacks) s = some t →
      Run (step (sampleConfig 100) sampleCallbacks) InOrder s l t :=
    fun others => .of_foldlM fun a member s => ⟨fun wake => absurd (wake ▸ member) others.1,
      fun handle => absurd (handle ▸ member) others.2⟩
  have first : Run (step (sampleConfig 100) sampleCallbacks) InOrder State.new (serveOne 1) _ :=
    ((calm (l := [ask 1 1, .readRequest, .load]) (by simp [ask]) rfl).snoc
      (inOrder_handle rfl (by decide) (by decide)) rfl).append
      (calm (l := [.serve, .load, .add, .enqueue, .serve]) (by simp) rfl)
  have second := first.append (((calm (l := [ask 2 1, .readRequest, .load]) (by simp [ask]) rfl).snoc
    (inOrder_handle rfl (by decide) (by decide)) rfl).append
    (calm (l := [.serve, .load, .add, .enqueue, .serve]) (by simp) rfl))
  have agree := fun id => ((sessions_isolated second).1 rfl 1).2.2 id
  exact ⟨_, second, rfl, rfl, (agree 1).mp (by decide), (agree 2).mp (by decide)⟩

/-- A request for the newest of three sessions deletes the oldest one, which stays listed. -/
theorem oldest_pruned_listed : ∃ s t : State Nat Nat Nat,
    Run (step (sampleConfig 100) sampleCallbacks) (fun _ _ => True) State.new
      (serveOne 1 ++ serveOne 2 ++ serveOne 3) s ∧ (1, 1) ∈ s.sessions ∧
    Run (step (sampleConfig 100) sampleCallbacks) (fun _ _ => True) s (serveOne 3) t ∧
    t.reader = .idle ∧ 1 ∈ t.peerSessions 1 ∧ (1, 1) ∉ t.sessions := by
  refine ⟨_, _, .of_foldlM (fun _ _ _ => trivial) rfl, AList.lookup_isSome.mp rfl,
    .of_foldlM (fun _ _ _ => trivial) rfl, rfl, List.mem_cons_self, ?_⟩
  exact AList.lookup_eq_none.mp rfl

end Lachesis.Gossip.Seeder
