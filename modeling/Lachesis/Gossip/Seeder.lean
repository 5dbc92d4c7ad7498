import Lachesis.Library.Transition

/-!
`basestreamseeder.BaseSeeder` as a state machine. The reader goroutine, the sender threads
and the callers of `NotifyRequestReceived` and `UnregisterPeer` take turns in any order;
an `Action` is what one of them does at once. The items a session walks over come from the
application, one by one with the payload that holds them.
-/

namespace Lachesis.Gossip.Seeder

class Locator (L : Type) where
  compare : L → L → Int
  inc : L → L
  compare_self : ∀ a, compare a a = 0

structure Session (L : Type) where
  id : Nat
  start : L
  stop : L

structure Request (L : Type) where
  session : Session L
  type : Nat
  maxPayloadNum : Nat
  maxPayloadSize : Nat
  maxChunks : Nat

structure Response (P : Type) where
  sessionID : Nat
  done : Bool
  payload : P

structure Peer (PeerID : Type) where
  id : PeerID
  conn : Nat

structure RequestAndPeer (PeerID L : Type) where
  request : Request L
  peer : Peer PeerID

structure SessionState (L : Type) where
  origSelector : L
  next : L
  stop : L
  done : Bool
  senderI : Nat
  sendChunk : Nat

structure Config where
  senderThreads : Nat
  maxSenderTasks : Nat
  maxPendingResponsesSize : Int
  maxResponsePayloadNum : Nat
  maxResponsePayloadSize : Nat
  maxResponseChunks : Nat
  maxGlobalSessions : Int

def Config.globalSessions (c : Config) : Nat :=
  if c.maxGlobalSessions ≤ 0 then 1000 else c.maxGlobalSessions.toNat

/-- `ForEachItem` goes through the items from a locator on, and makes a payload of them. -/
structure Callbacks (L P : Type) where
  empty : P
  items : L → Nat → List (L × P)
  len : P → Nat
  totalSize : P → Nat
  totalMemSize : P → Nat

inductive SeederError where
  /-- "session selector mismatch" -/
  | selectorMismatch
  /-- "too many request chunks" -/
  | tooManyChunks
  /-- "too many global sessions" -/
  | tooManyGlobalSessions
  /-- "terminated" -/
  | terminated
  deriving DecidableEq

structure Task (P : Type) where
  senderI : Nat
  sendChunk : Nat
  resp : Response P
  memSize : Nat

inductive Wait (PeerID L P : Type) where
  | admission (op : RequestAndPeer PeerID L)
  | deliver (op : RequestAndPeer PeerID L) (session : SessionState L) (i : Nat) (task : Task P)

/-- Where the reader is. While it waits it either looks at the pending size or is blocked. -/
inductive Reader (PeerID L P : Type) where
  | idle
  | wait (blocked : Bool) (after : Wait PeerID L P)
  | handle (op : RequestAndPeer PeerID L)
  | serve (op : RequestAndPeer PeerID L) (session : SessionState L) (i : Nat)
  | add (op : RequestAndPeer PeerID L) (session : SessionState L) (i : Nat) (task : Task P)
  | enqueue (op : RequestAndPeer PeerID L) (session : SessionState L) (i : Nat) (task : Task P)
  | stopped

inductive Sender (P : Type) where
  | idle
  | send (task : Task P)
  | subtract (task : Task P)
  | signal

structure State (PeerID L P : Type) where
  peerSessions : PeerID → List Nat
  sessions : AList fun _ : Nat × PeerID => SessionState L
  notifyUnregisteredPeer : List PeerID
  notifyReceivedRequest : List (RequestAndPeer PeerID L)
  quit : Bool
  reader : Reader PeerID L P
  tasks : Nat → List (Task P)
  senders : Nat → Sender P
  pendingResponsesSize : Int
  pendingSizeReduced : Bool
  sessionsCounter : Nat
  misbehaviour : List (Nat × SeederError)
  sent : List (Nat × Response P)

section Machine

variable {PeerID L P : Type} [DecidableEq PeerID] [Locator L]

def State.new : State PeerID L P where
  peerSessions := fun _ => []
  sessions := ∅
  notifyUnregisteredPeer := []
  notifyReceivedRequest := []
  quit := false
  reader := .idle
  tasks := fun _ => []
  senders := fun _ => .idle
  pendingResponsesSize := 0
  pendingSizeReduced := false
  sessionsCounter := 0
  misbehaviour := []
  sent := []

def handleUnregister (s : State PeerID L P) (peerID : PeerID) : State PeerID L P :=
  { s with
    sessions := (s.peerSessions peerID).foldl (fun sessions sid => sessions.erase (sid, peerID))
      s.sessions
    peerSessions := Function.update s.peerSessions peerID [] }

def sanitize (cfg : Config) (r : Request L) : Except SeederError (Request L) :=
  if cfg.maxResponseChunks < r.maxChunks then .error .tooManyChunks
  else .ok { r with maxPayloadNum := min r.maxPayloadNum cfg.maxResponsePayloadNum
                    maxPayloadSize := min r.maxPayloadSize cfg.maxResponsePayloadSize }

def pruneOldest (s : State PeerID L P) (peerID : PeerID) : List Nat × State PeerID L P :=
  match s.peerSessions peerID with
  | oldest :: a :: b :: rest =>
    let sessions := s.sessions.erase (oldest, peerID)
    (a :: b :: rest, { s with sessions := sessions })
  | sessions => (sessions, s)

/-- A request is admitted to its session, or refused. -/
def handle (cfg : Config) (s : State PeerID L P) (op : RequestAndPeer PeerID L) :
    State PeerID L P :=
  let (listed, s) := pruneOldest s op.peer.id
  let key := (op.request.session.id, op.peer.id)
  match s.sessions.lookup key with
  | none =>
    if cfg.globalSessions ≤ s.sessions.keys.length then
      { s with reader := .idle
               misbehaviour := s.misbehaviour ++ [(op.peer.conn, .tooManyGlobalSessions)] }
    else
      let session : SessionState L :=
        { origSelector := op.request.session.start
          next := op.request.session.start
          stop := op.request.session.stop
          done := false
          senderI := s.sessionsCounter % cfg.senderThreads
          sendChunk := op.peer.conn }
      let listed := listed ++ [op.request.session.id]
      { s with reader := .serve op session 0
               peerSessions := Function.update s.peerSessions op.peer.id listed
               sessionsCounter := (s.sessionsCounter + 1) % 2 ^ 32 }
  | some session =>
    -- cannot change session parameters after it's created
    if Locator.compare session.origSelector op.request.session.start ≠ 0 then
      { s with reader := .idle
               misbehaviour := s.misbehaviour ++ [(op.peer.conn, .selectorMismatch)] }
    else { s with reader := .serve op session 0 }

def readItems (callback : Callbacks L P) (r : Request L) (stop : L) :
    List (L × P) → L → P → L × Bool × P
  | [], lastKey, payload => (lastKey, true, payload)
  | (key, appended) :: rest, lastKey, payload =>
    if 0 ≤ Locator.compare key stop then (lastKey, true, payload)
    else if r.maxPayloadNum ≤ callback.len appended ∨
        r.maxPayloadSize ≤ callback.totalSize appended then (key, false, appended)
    else readItems callback r stop rest key appended

def readChunk (callback : Callbacks L P) (s : State PeerID L P) (op : RequestAndPeer PeerID L)
    (session : SessionState L) (i : Nat) : State PeerID L P :=
  let (lastKey, allConsumed, payload) := readItems callback op.request session.stop
    (callback.items session.next op.request.type) session.next callback.empty
  let session := { session with next := Locator.inc lastKey, done := allConsumed }
  let task : Task P :=
    { senderI := session.senderI
      sendChunk := session.sendChunk
      resp := ⟨op.request.session.id, allConsumed, payload⟩
      memSize := callback.totalMemSize payload }
  { s with sessions := s.sessions.insert (op.request.session.id, op.peer.id) session
           reader := .wait false (.deliver op session i task) }

def Wait.resume : Wait PeerID L P → Reader PeerID L P
  | .admission op => .handle op
  | .deliver op session i task => .add op session i task

inductive Action (PeerID L : Type) where
  | receiveRequest (peer : Peer PeerID) (request : Request L)
  | receiveUnregister (peerID : PeerID)
  | stop
  | readQuit
  | readUnregister
  | readRequest
  | load
  | wakeQuit
  | wakeUnregister
  | wakeReduced
  | handle
  | serve
  | add
  | enqueue
  | enqueueQuit
  | takeTask (senderI : Nat)
  | sendChunk (senderI : Nat)
  | subtract (senderI : Nat)
  | signal (senderI : Nat)
  | drain (senderI : Nat)

/-- What an action leads to; `none` where the actor is not there or would block. -/
def step (cfg : Config) (callback : Callbacks L P) (s : State PeerID L P) :
    Action PeerID L → Option (State PeerID L P)
  | .receiveRequest peer request =>
    match sanitize cfg request with
    | .error _ => some s
    | .ok request =>
      if s.notifyReceivedRequest.length < 16 then
        some { s with notifyReceivedRequest := s.notifyReceivedRequest ++ [⟨request, peer⟩] }
      else none
  | .receiveUnregister peerID =>
    if s.notifyUnregisteredPeer.length < 128 then
      some { s with notifyUnregisteredPeer := s.notifyUnregisteredPeer ++ [peerID] }
    else none
  | .stop => some { s with quit := true }
  | .readQuit =>
    match s.reader, s.quit with
    | .idle, true => some { s with reader := .stopped }
    | _, _ => none
  | .readUnregister =>
    match s.reader, s.notifyUnregisteredPeer with
    | .idle, peerID :: rest =>
      some (handleUnregister { s with notifyUnregisteredPeer := rest } peerID)
    | _, _ => none
  | .readRequest =>
    match s.reader, s.notifyReceivedRequest with
    | .idle, op :: rest =>
      some { s with notifyReceivedRequest := rest, reader := .wait false (.admission op) }
    | _, _ => none
  | .load =>
    match s.reader with
    | .wait false after =>
      if cfg.maxPendingResponsesSize ≤ s.pendingResponsesSize then
        some { s with reader := .wait true after }
      else some { s with reader := after.resume }
    | _ => none
  | .wakeQuit =>
    match s.reader, s.quit with
    | .wait true after, true => some { s with reader := after.resume }
    | _, _ => none
  | .wakeUnregister =>
    match s.reader, s.notifyUnregisteredPeer with
    | .wait true after, peerID :: rest =>
      some (handleUnregister
        { s with notifyUnregisteredPeer := rest, reader := .wait false after } peerID)
    | _, _ => none
  | .wakeReduced =>
    match s.reader, s.pendingSizeReduced with
    | .wait true after, true =>
      some { s with pendingSizeReduced := false, reader := .wait false after }
    | _, _ => none
  | .handle =>
    match s.reader with
    | .handle op => some (handle cfg s op)
    | _ => none
  | .serve =>
    match s.reader with
    | .serve op session i =>
      if i < op.request.maxChunks ∧ session.done = false then
        some (readChunk callback s op session i)
      else some { s with reader := .idle }
    | _ => none
  | .add =>
    match s.reader with
    | .add op session i task =>
      some { s with pendingResponsesSize := s.pendingResponsesSize + task.memSize
                    reader := .enqueue op session i task }
    | _ => none
  | .enqueue =>
    match s.reader with
    | .enqueue op session i task =>
      if (s.tasks task.senderI).length < cfg.maxSenderTasks then
        let queue := s.tasks task.senderI ++ [task]
        some { s with tasks := Function.update s.tasks task.senderI queue
                      reader := .serve op session (i + 1) }
      else none
    | _ => none
  | .enqueueQuit =>
    match s.reader, s.quit with
    | .enqueue op session i _, true => some { s with reader := .serve op session (i + 1) }
    | _, _ => none
  | .takeTask senderI =>
    match s.senders senderI, s.tasks senderI with
    | .idle, task :: rest =>
      some { s with tasks := Function.update s.tasks senderI rest
                    senders := Function.update s.senders senderI (.send task) }
    | _, _ => none
  | .sendChunk senderI =>
    match s.senders senderI with
    | .send task =>
      some { s with sent := s.sent ++ [(task.sendChunk, task.resp)]
                    senders := Function.update s.senders senderI (.subtract task) }
    | _ => none
  | .subtract senderI =>
    match s.senders senderI with
    | .subtract task =>
      some { s with pendingResponsesSize := s.pendingResponsesSize - task.memSize
                    senders := Function.update s.senders senderI .signal }
    | _ => none
  | .signal senderI =>
    match s.senders senderI with
    | .signal =>
      some { s with pendingSizeReduced := true
                    senders := Function.update s.senders senderI .idle }
    | _ => none
  | .drain senderI =>
    match s.quit, s.tasks senderI with
    | true, _ :: rest => some { s with tasks := Function.update s.tasks senderI rest }
    | _, _ => none

end Machine

end Lachesis.Gossip.Seeder
