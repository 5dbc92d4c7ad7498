import Lachesis.Library.Transition

/-!
`basepeerleecher.BasePeerLeecher`: chunks are requested from one peer in a window that the processed
chunks move on. The peer and the application choose every step; the loop's `select` takes any branch
that is ready.
-/

namespace Lachesis.Gossip.PeerLeecher

open Transition

/-- The channel is buffered, and a full window fits `maxChunks`. -/
structure EpochDownloaderConfig where
  defaultChunkItemsNum : UInt32
  defaultChunkItemsSize : UInt64
  parallelChunksDownload : Nat
  buffered : 0 < parallelChunksDownload
  fits : parallelChunksDownload < 2 ^ 32

/-- What the callbacks answer while one operation runs. -/
structure EpochDownloaderCallbacks (ID : Type) where
  isProcessed : ID → Bool
  suspend : Bool
  done : Bool

/-- The arguments of `RequestChunks`. -/
structure ChunksRequest where
  maxNum : UInt32
  maxSize : UInt64
  maxChunks : UInt32

structure BasePeerLeecher (ID : Type) where
  totalRequested : Nat
  totalProcessed : Nat
  processingChunks : List ID
  notifyReceivedChunk : List ID
  done : Bool
  looping : Bool

variable {ID : Type} (cfg : EpochDownloaderConfig) (callback : EpochDownloaderCallbacks ID)

def BasePeerLeecher.new : BasePeerLeecher ID := ⟨0, 0, [], [], false, true⟩

/-- The loop of `sweepProcessedChunks`: `totalProcessed` and `notProcessed`. -/
def sweep (swept : Nat × List ID) (id : ID) : Nat × List ID :=
  if callback.isProcessed id then (swept.1 + 1, swept.2) else (swept.1, swept.2 ++ [id])

def sweepProcessedChunks (d : BasePeerLeecher ID) : BasePeerLeecher ID :=
  let swept := d.processingChunks.foldl (sweep callback) (d.totalProcessed, [])
  { d with totalProcessed := swept.1, processingChunks := swept.2 }

def tryToSync (d : BasePeerLeecher ID) : BasePeerLeecher ID × List ChunksRequest :=
  if callback.suspend then (d, [])
  else if d.totalRequested < d.totalProcessed + cfg.parallelChunksDownload then
    let requestsToSend := d.totalProcessed + cfg.parallelChunksDownload - d.totalRequested
    ({ d with totalRequested := d.totalRequested + requestsToSend },
      [⟨cfg.defaultChunkItemsNum, cfg.defaultChunkItemsSize, .ofNat requestsToSend⟩])
  else (d, [])

def routine (d : BasePeerLeecher ID) : BasePeerLeecher ID × List ChunksRequest :=
  if callback.done then ({ d with done := true }, [])
  else tryToSync cfg callback (sweepProcessedChunks callback d)

/-- The branch of the loop that takes a chunk from the channel. -/
def receive (d : BasePeerLeecher ID) (id : ID) : BasePeerLeecher ID × List ChunksRequest :=
  if d.done then (d, [])
  else if d.processingChunks.length < cfg.parallelChunksDownload * 2 then
    routine cfg callback { d with processingChunks := d.processingChunks ++ [id] }
  else (d, [])

/-- The leecher, the requests it sent and the chunks its channel took. -/
structure Link (ID : Type) where
  leecher : BasePeerLeecher ID
  requests : List ChunksRequest
  received : List ID

def Link.new : Link ID := ⟨.new, [], []⟩

def Link.after (s : Link ID) (result : BasePeerLeecher ID × List ChunksRequest) : Link ID :=
  { s with leecher := result.1, requests := s.requests ++ result.2 }

/-- How many chunks the peer was asked for. -/
def Link.asked (s : Link ID) : Nat := (s.requests.map fun r => r.maxChunks.toNat).sum

inductive Action (ID : Type) where
  | notifyChunkReceived (id : ID)
  | notifyTerminated
  | receive (callback : EpochDownloaderCallbacks ID)
  | tick (callback : EpochDownloaderCallbacks ID)
  | terminate
  | quit

def step (s : Link ID) : Action ID → Option (Link ID)
  | .notifyChunkReceived id =>
    -- a full channel blocks the caller
    if s.leecher.notifyReceivedChunk.length < cfg.parallelChunksDownload * 2 then
      some { s with
        leecher.notifyReceivedChunk := s.leecher.notifyReceivedChunk ++ [id]
        received := s.received ++ [id] }
    else none
  | .notifyTerminated => if s.leecher.done then some s else none
  | .receive callback =>
    match s.leecher.looping, s.leecher.notifyReceivedChunk with
    | true, id :: rest =>
      some (s.after (receive cfg callback { s.leecher with notifyReceivedChunk := rest } id))
    | _, _ => none
  | .tick callback =>
    -- the ticker may win against a closed `quit`
    if s.leecher.looping then some (s.after (routine cfg callback s.leecher)) else none
  | .terminate => some { s with leecher.done := true }
  | .quit =>
    if s.leecher.done && s.leecher.looping then some { s with leecher.looping := false } else none

/-- The peer sends no chunk that it was not asked for. -/
def Honest (s : Link ID) : Action ID → Prop
  | .notifyChunkReceived _ => s.received.length < s.asked
  | _ => True

variable {cfg callback} {d : BasePeerLeecher ID} {s t : Link ID} {a : Action ID}

theorem foldl_sweep (callback : EpochDownloaderCallbacks ID) (ids : List ID) (swept : Nat × List ID) :
    swept.1 ≤ (ids.foldl (sweep callback) swept).1 ∧
    (ids.foldl (sweep callback) swept).1 + (ids.foldl (sweep callback) swept).2.length =
      swept.1 + swept.2.length + ids.length := by
  induction ids generalizing swept with
  | nil => simp
  | cons id ids ih =>
    obtain ⟨grows, counts⟩ := ih (sweep callback swept id)
    have one : swept.1 ≤ (sweep callback swept id).1 ∧ (sweep callback swept id).1 +
        (sweep callback swept id).2.length = swept.1 + swept.2.length + 1 := by
      unfold sweep
      split <;> simp <;> omega
    rw [List.foldl_cons, List.length_cons]
    omega

/-- What the routine may do: sweep chunks, and fill the window. -/
structure Moves (cfg : EpochDownloaderConfig) (d e : BasePeerLeecher ID)
    (requests : List ChunksRequest) : Prop where
  queue : e.notifyReceivedChunk = d.notifyReceivedChunk
  sweeps : d.totalProcessed ≤ e.totalProcessed
  counts : e.totalProcessed + e.processingChunks.length =
    d.totalProcessed + d.processingChunks.length
  stays : e.done = false → d.done = false
  fills : (requests = [] ∧ e.totalRequested = d.totalRequested) ∨
    d.totalRequested ≤ e.totalRequested ∧
    e.totalRequested = e.totalProcessed + cfg.parallelChunksDownload ∧
    requests.map ChunksRequest.maxChunks = [.ofNat (e.totalRequested - d.totalRequested)]

theorem routine_moves (callback : EpochDownloaderCallbacks ID) (d : BasePeerLeecher ID) :
    Moves cfg d (routine cfg callback d).1 (routine cfg callback d).2 := by
  obtain ⟨sweeps, counts⟩ := foldl_sweep callback d.processingChunks
    (d.totalProcessed, [])
  unfold routine
  split
  · exact ⟨rfl, le_rfl, rfl, nofun, .inl ⟨rfl, rfl⟩⟩
  unfold tryToSync
  split
  · exact ⟨rfl, sweeps, counts, id, .inl ⟨rfl, rfl⟩⟩
  split
  · next room =>
    refine ⟨rfl, sweeps, counts, id, .inr ⟨Nat.le_add_right _ _, ?_, ?_⟩⟩
    · exact Nat.add_sub_cancel' room.le
    · simp [sweepProcessedChunks]
  · exact ⟨rfl, sweeps, counts, id, .inl ⟨rfl, rfl⟩⟩

/-- What a step can do to the link. -/
inductive Effect (cfg : EpochDownloaderConfig) (s : Link ID) : Action ID → Link ID → Prop
  | queued (id : ID)
      (room : s.leecher.notifyReceivedChunk.length < cfg.parallelChunksDownload * 2) :
      Effect cfg s (.notifyChunkReceived id) { s with
        leecher.notifyReceivedChunk := s.leecher.notifyReceivedChunk ++ [id]
        received := s.received ++ [id] }
  | flagged (a : Action ID) (done looping : Bool) (stays : done = false → s.leecher.done = false) :
      Effect cfg s a { s with leecher.done := done, leecher.looping := looping }
  | dropped (a : Action ID) (id : ID) (rest : List ID)
      (queue : s.leecher.notifyReceivedChunk = id :: rest)
      (why : s.leecher.done = true ∨
        cfg.parallelChunksDownload * 2 ≤ s.leecher.processingChunks.length) :
      Effect cfg s a { s with leecher.notifyReceivedChunk := rest }
  | taken (a : Action ID) (id : ID) (rest : List ID)
      (queue : s.leecher.notifyReceivedChunk = id :: rest)
      (room : s.leecher.processingChunks.length < cfg.parallelChunksDownload * 2)
      (d e : BasePeerLeecher ID) (requests : List ChunksRequest)
      (takes : d = { s.leecher with
        notifyReceivedChunk := rest
        processingChunks := s.leecher.processingChunks ++ [id] })
      (moves : Moves cfg d e requests) : Effect cfg s a (s.after (e, requests))
  | routine (a : Action ID) (e : BasePeerLeecher ID) (requests : List ChunksRequest)
      (moves : Moves cfg s.leecher e requests) : Effect cfg s a (s.after (e, requests))

theorem step_effect (move : step cfg s a = some t) : Effect cfg s a t := by
  cases a with
  | notifyChunkReceived id =>
    obtain ⟨room, same⟩ := Option.ite_none_right_eq_some.mp move
    exact Option.some.inj same ▸ .queued id room
  | notifyTerminated =>
    obtain ⟨_, same⟩ := Option.ite_none_right_eq_some.mp move
    exact Option.some.inj same ▸ .flagged _ s.leecher.done s.leecher.looping id
  | receive callback =>
    simp only [step] at move
    split at move
    · next id rest _ queue =>
      rw [← Option.some.inj move, receive]
      split
      · next done => simpa [Link.after] using Effect.dropped _ id rest queue (.inl done)
      split
      · next room => exact .taken _ id rest queue room _ _ _ rfl (routine_moves callback _)
      · next full => simpa [Link.after] using Effect.dropped _ id rest queue (.inr (not_lt.mp full))
    · cases move
  | tick callback =>
    obtain ⟨_, same⟩ := Option.ite_none_right_eq_some.mp move
    exact Option.some.inj same ▸ .routine _ _ _ (routine_moves callback _)
  | terminate => exact Option.some.inj move ▸ .flagged _ true s.leecher.looping nofun
  | quit =>
    obtain ⟨_, same⟩ := Option.ite_none_right_eq_some.mp move
    exact Option.some.inj same ▸ .flagged _ s.leecher.done false id

/-- Whatever the peer sends, the requests stay in the window and the queues in their bounds. -/
structure Bounded (cfg : EpochDownloaderConfig) (d : BasePeerLeecher ID) : Prop where
  window : d.totalRequested ≤ d.totalProcessed + cfg.parallelChunksDownload
  processing : d.processingChunks.length ≤ cfg.parallelChunksDownload * 2
  queued : d.notifyReceivedChunk.length ≤ cfg.parallelChunksDownload * 2

theorem Bounded.moves {e : BasePeerLeecher ID} {requests : List ChunksRequest}
    (bounded : Bounded cfg d) (moves : Moves cfg d e requests) : Bounded cfg e := by
  obtain ⟨queue, sweeps, counts, _, fills⟩ := moves
  obtain ⟨window, processing, queued⟩ := bounded
  exact ⟨by omega, by omega, queue ▸ queued⟩

theorem Bounded.step (bounded : Bounded cfg s.leecher) (move : step cfg s a = some t) :
    Bounded cfg t.leecher := by
  obtain ⟨window, processing, queued⟩ := bounded
  cases step_effect move with
  | queued id room => exact ⟨window, processing, by simpa using room⟩
  | flagged => exact ⟨window, processing, queued⟩
  | dropped _ id rest queue =>
    rw [queue, List.length_cons] at queued
    exact ⟨window, processing, (Nat.le_succ _).trans queued⟩
  | taken _ id rest queue room d e requests takes moves =>
    rw [queue, List.length_cons] at queued
    refine .moves (d := d) ?_ moves
    rw [takes]
    exact ⟨window, by simpa using room, (Nat.le_succ _).trans queued⟩
  | routine _ e requests moves => exact .moves ⟨window, processing, queued⟩ moves

theorem routine_full (bounded : Bounded cfg d) (goes : callback.done = false)
    (open_ : callback.suspend = false) : (routine cfg callback d).1.totalRequested =
      (routine cfg callback d).1.totalProcessed + cfg.parallelChunksDownload := by
  have window := (bounded.moves (routine_moves callback d)).window
  simp only [routine, goes, tryToSync, open_, Bool.false_eq_true, if_false] at window ⊢
  split
  · next room => exact Nat.add_sub_cancel' room.le
  · next full =>
    rw [if_neg full] at window
    exact le_antisymm window (not_lt.mp full)

/-- What an honest peer sent is processed, in processing or in the channel. -/
structure Accounted (s : Link ID) : Prop where
  asked : s.leecher.totalRequested = s.asked
  served : s.received.length ≤ s.asked
  held : s.leecher.totalProcessed + s.leecher.processingChunks.length +
    s.leecher.notifyReceivedChunk.length ≤ s.received.length
  kept : s.leecher.done = false → s.leecher.totalProcessed + s.leecher.processingChunks.length +
    s.leecher.notifyReceivedChunk.length = s.received.length

theorem Accounted.moves {e : BasePeerLeecher ID} {requests : List ChunksRequest}
    (accounted : Accounted s) (moves : Moves cfg s.leecher e requests) :
    Accounted (s.after (e, requests)) := by
  obtain ⟨queue, sweeps, counts, stays, fills⟩ := moves
  obtain ⟨asked, served, held, kept⟩ := accounted
  have sum : e.totalRequested = (s.after (e, requests)).asked := by
    rcases fills with ⟨rfl, same⟩ | ⟨grows, full, sent⟩
    · simpa [Link.after, Link.asked] using same.trans asked
    · -- the peer sent all that was processed, so that no more than a window is missing
      have small : e.totalRequested - s.leecher.totalRequested < 2 ^ 32 := by
        have := cfg.fits
        omega
      have sent := congrArg (fun l => (l.map UInt32.toNat).sum) sent
      simp only [List.map_map, List.map_cons, List.map_nil, List.sum_singleton,
        UInt32.toNat_ofNat_of_lt' small] at sent
      simp only [Link.after, Link.asked, List.map_append, List.sum_append] at asked ⊢
      rw [← asked]
      exact (Nat.add_sub_cancel' grows).symm.trans (congrArg _ sent.symm)
  have grows : s.asked ≤ (s.after (e, requests)).asked := by
    simp [Link.after, Link.asked]
  refine ⟨sum, served.trans grows, ?_, fun goes => ?_⟩
  · simp only [Link.after, queue]
    omega
  · have := kept (stays goes)
    simp only [Link.after, queue]
    omega

theorem Accounted.step (bounded : Bounded cfg s.leecher) (accounted : Accounted s)
    (honest : Honest s a) (move : step cfg s a = some t) : Accounted t := by
  obtain ⟨asked, served, held, kept⟩ := accounted
  cases step_effect move with
  | queued id room =>
    have fresh : s.received.length < s.asked := honest
    refine ⟨asked, ?_, by simpa [← Nat.add_assoc] using held, fun goes => ?_⟩
    · rw [List.length_append]
      exact fresh
    · simpa [← Nat.add_assoc] using kept goes
  | flagged _ done looping stays => exact ⟨asked, served, held, fun goes => kept (stays goes)⟩
  | dropped _ id rest queue why =>
    rw [queue, List.length_cons] at held
    refine ⟨asked, served, by dsimp only; omega, fun goes => ?_⟩
    -- a chunk in the channel is part of the window, so that there is room for it
    have window := bounded.window
    have := cfg.buffered
    rcases why with done | full
    · cases done.symm.trans goes
    · omega
  | taken _ id rest queue room d e requests takes moves =>
    rw [queue, List.length_cons] at held kept
    refine Accounted.moves (s := ⟨d, s.requests, s.received⟩) ?_ moves
    rw [takes]
    refine ⟨asked, served, ?_, fun goes => ?_⟩
    · simp only [List.length_append, List.length_singleton]
      omega
    · have := kept goes
      simp only [List.length_append, List.length_singleton]
      omega
  | routine _ e requests moves => exact .moves ⟨asked, served, held, kept⟩ moves

theorem new_bounded : Bounded cfg (Link.new : Link ID).leecher :=
  ⟨Nat.zero_le _, Nat.zero_le _, Nat.zero_le _⟩

/-- Whatever the peer sends and the application answers, no more than a window of chunks is requested
ahead of those that were processed, and both queues stay in their bounds; and a tick that is not
suspended fills the window. -/
theorem requests_windowed {actions : List (Action ID)}
    (run : Run (step cfg) (fun _ _ => True) .new actions s) :
    Bounded cfg s.leecher ∧ ∀ callback : EpochDownloaderCallbacks ID, s.leecher.looping = true →
      callback.done = false → callback.suspend = false → ∃ t, step cfg s (.tick callback) = some t ∧
        t.leecher.totalRequested = t.leecher.totalProcessed + cfg.parallelChunksDownload := by
  have bounded : Bounded cfg s.leecher := run.invariant
    (fun s _ _ (holds : Bounded cfg s.leecher) _ move => holds.step move) new_bounded
  refine ⟨bounded, fun callback looping goes open_ => ⟨_, if_pos looping, ?_⟩⟩
  exact routine_full bounded goes open_

def threeChunks : EpochDownloaderConfig := ⟨500, 512, 3, by decide, by decide⟩

def pending : EpochDownloaderCallbacks Nat := ⟨fun _ => false, false, false⟩

/-- The second of two chunks is processed, and one more is asked for. -/
theorem requests_windowed_later : ∃ s t : Link Nat,
    Run (step threeChunks) (fun _ _ => True) .new [.tick pending, .notifyChunkReceived 7,
      .notifyChunkReceived 8, .receive pending, .receive pending] s ∧
    step threeChunks s (.tick ⟨fun id => id == 8, false, false⟩) = some t ∧
    t.leecher.totalProcessed = 1 ∧ t.leecher.totalRequested = t.leecher.totalProcessed + 3 := by
  have run : Run (step threeChunks) (fun _ _ => True) .new [.tick pending, .notifyChunkReceived 7,
      .notifyChunkReceived 8, .receive pending, .receive pending] _ :=
    .of_foldlM (fun _ _ _ => trivial) rfl
  obtain ⟨_, moves, full⟩ := (requests_windowed run).2 ⟨fun id => id == 8, false, false⟩ rfl rfl rfl
  cases moves
  exact ⟨_, _, run, rfl, rfl, full⟩

/-- A peer that sends what it is asked for never finds the channel full, and until the leecher ends
no chunk of it is dropped: each was processed, is in processing or is in the channel. -/
theorem honest_chunks_kept {actions : List (Action ID)} (run : Run (step cfg) Honest .new actions s) :
    s.leecher.totalRequested = s.asked ∧ s.received.length ≤ s.asked ∧
    (s.leecher.done = false → s.received.length = s.leecher.totalProcessed +
      s.leecher.processingChunks.length + s.leecher.notifyReceivedChunk.length) ∧
    ∀ id, Honest s (.notifyChunkReceived id) →
      ∃ t, step cfg s (.notifyChunkReceived id) = some t := by
  obtain ⟨bounded, asked, served, held, kept⟩ : Bounded cfg s.leecher ∧ Accounted s :=
    run.invariant (fun s _ _ (holds : Bounded cfg s.leecher ∧ Accounted s) honest move =>
      ⟨holds.1.step move, holds.2.step holds.1 honest move⟩)
      ⟨new_bounded, rfl, le_rfl, le_rfl, fun _ => rfl⟩
  refine ⟨asked, served, fun goes => (kept goes).symm, fun id honest => ⟨_, if_pos ?_⟩⟩
  have fresh : s.received.length < s.asked := honest
  have window := bounded.window
  omega

/-- One chunk is in processing and one in the channel, and the third one still finds room. -/
theorem honest_chunks_kept_third : ∃ s : Link Nat, s.received = [7, 8] ∧ s.asked = 3 ∧
    s.leecher.processingChunks = [7] ∧ s.leecher.notifyReceivedChunk = [8] ∧
    ∃ t, step threeChunks s (.notifyChunkReceived 9) = some t := by
  have run : Run (step threeChunks) Honest .new [.tick pending, .notifyChunkReceived 7,
      .receive pending, .notifyChunkReceived 8] _ :=
    .cons trivial rfl (.cons (show 0 < 3 by decide) rfl (.cons trivial rfl
      (.cons (show 1 < 3 by decide) rfl (.nil _))))
  obtain ⟨_, _, _, room⟩ := honest_chunks_kept run
  exact ⟨_, rfl, rfl, rfl, rfl, room 9 (show 2 < 3 by decide)⟩

end Lachesis.Gossip.PeerLeecher
