import Lachesis.Gossip.SeederSessions

/-!
The backpressure of the seeder. What is accounted in `pendingResponsesSize` is on its way to a sender,
queued at one, or being sent; and a reader that waits although there is room again is about to be
woken.
-/

namespace Lachesis.Gossip.Seeder

open Transition

section Totals

def Totals (f : ℕ → ℕ) (n : ℕ) : Prop := ∃ bound, ∀ m, bound ≤ m → ∑ i ∈ Finset.range m, f i = n

theorem totals_zero : Totals (fun _ => 0) 0 := ⟨0, fun m _ => by simp⟩

theorem Totals.update {f g : ℕ → ℕ} {n n' : ℕ} (totals : Totals f n) (i : ℕ)
    (others : ∀ j, j ≠ i → g j = f j) (balance : n' + f i = n + g i) : Totals g n' := by
  obtain ⟨bound, sums⟩ := totals
  refine ⟨max bound (i + 1), fun m above => ?_⟩
  have member : i ∈ Finset.range m := Finset.mem_range.mpr (by omega)
  have before := sums m (by omega)
  rw [← Finset.add_sum_erase _ _ member] at before ⊢
  have rest : ∑ j ∈ (Finset.range m).erase i, g j = ∑ j ∈ (Finset.range m).erase i, f j :=
    Finset.sum_congr rfl fun j inside => others j (Finset.ne_of_mem_erase inside)
  omega

theorem Totals.le {f : ℕ → ℕ} {n : ℕ} (totals : Totals f n) (i : ℕ) : f i ≤ n := by
  obtain ⟨bound, sums⟩ := totals
  rw [← sums (max bound (i + 1)) (by omega)]
  exact Finset.single_le_sum (fun _ _ => Nat.zero_le _) (Finset.mem_range.mpr (by omega))

end Totals

variable {PeerID L P : Type} (callback : Callbacks L P)

def share (task : Task P) : Nat := callback.totalMemSize task.resp.payload

def Sender.held : Sender P → Nat
  | .send task | .subtract task => share callback task
  | _ => 0

def Reader.held : Reader PeerID L P → Nat
  | .enqueue _ _ _ task => share callback task
  | _ => 0

def load (s : State PeerID L P) (i : Nat) : Nat :=
  ((s.tasks i).map (share callback)).sum + (s.senders i).held callback

def Wait.task : Wait PeerID L P → Option (Task P)
  | .admission _ => none
  | .deliver _ _ _ task => some task

def Reader.task : Reader PeerID L P → Option (Task P)
  | .wait _ after => after.task
  | .add _ _ _ task | .enqueue _ _ _ task => some task
  | _ => none

structure Measured (s : State PeerID L P) : Prop where
  reader : ∀ task ∈ s.reader.task, task.memSize = share callback task
  tasks : ∀ i, ∀ task ∈ s.tasks i, task.memSize = share callback task
  senders : ∀ i task, s.senders i = .send task ∨ s.senders i = .subtract task →
    task.memSize = share callback task

structure Pending (cfg : Config) (largest : Nat) (s : State PeerID L P) : Prop where
  running : s.quit = false
  measured : Measured callback s
  accounted : ∃ queued, Totals (load callback s) queued ∧
    s.pendingResponsesSize = s.reader.held callback + queued
  bounded : s.pendingResponsesSize < cfg.maxPendingResponsesSize + largest
  admitted : ∀ op session i task, s.reader = .add op session i task →
    s.pendingResponsesSize < cfg.maxPendingResponsesSize
  woken : ∀ after, s.reader = .wait true after →
    s.pendingResponsesSize < cfg.maxPendingResponsesSize →
    s.pendingSizeReduced = true ∨ ∃ i, s.senders i = .signal

variable {callback} {cfg : Config} {largest : Nat} {s t : State PeerID L P}

theorem new_pending (positive : 0 < cfg.maxPendingResponsesSize) :
    Pending callback cfg largest (State.new : State PeerID L P) where
  running := rfl
  measured := ⟨fun _ is => (by cases is), fun _ _ inside => absurd inside List.not_mem_nil,
    fun _ _ either => (by rcases either with is | is <;> cases is)⟩
  accounted := ⟨0, totals_zero, rfl⟩
  bounded := by
    change (0 : Int) < _
    omega
  admitted := fun _ _ _ _ is => by cases is
  woken := fun _ is => by cases is

theorem Pending.turn (pending : Pending callback cfg largest s) (quit : t.quit = s.quit)
    (tasks : t.tasks = s.tasks) (senders : t.senders = s.senders)
    (size : t.pendingResponsesSize = s.pendingResponsesSize)
    (held : t.reader.held callback = s.reader.held callback)
    (measured : ∀ task ∈ t.reader.task, task.memSize = share callback task)
    (admitted : ∀ op session i task, t.reader = .add op session i task →
      t.pendingResponsesSize < cfg.maxPendingResponsesSize)
    (woken : ∀ after, t.reader = .wait true after →
      t.pendingResponsesSize < cfg.maxPendingResponsesSize →
      t.pendingSizeReduced = true ∨ ∃ i, t.senders i = .signal) :
    Pending callback cfg largest t where
  running := quit.trans pending.running
  measured := ⟨measured, tasks ▸ pending.measured.tasks, senders ▸ pending.measured.senders⟩
  accounted := by
    obtain ⟨queued, totals, sum⟩ := pending.accounted
    refine ⟨queued, ?_, by rw [size, held, sum]⟩
    have same : load callback t = load callback s := by
      funext i
      rw [load, load, tasks, senders]
    rwa [same]
  bounded := size ▸ pending.bounded
  admitted := admitted
  woken := woken

variable {gone i : Nat} {task : Task P} {op : RequestAndPeer PeerID L} {session : SessionState L}

theorem Pending.pass (pending : Pending callback cfg largest s) (quit : t.quit = s.quit)
    (reader : t.reader = s.reader)
    (others : ∀ j, j ≠ i → t.tasks j = s.tasks j ∧ t.senders j = s.senders j)
    (size : t.pendingResponsesSize = s.pendingResponsesSize - gone)
    (balance : load callback t i + gone = load callback s i)
    (measured : (∀ task ∈ t.tasks i, task.memSize = share callback task) ∧ ∀ task, t.senders i =
      .send task ∨ t.senders i = .subtract task → task.memSize = share callback task)
    (woken : gone = 0 ∧ (s.senders i = .signal → t.pendingSizeReduced = true) ∧
      (s.pendingSizeReduced = true → t.pendingSizeReduced = true) ∨ t.senders i = .signal) :
    Pending callback cfg largest t where
  running := quit.trans pending.running
  measured := by
    refine ⟨reader ▸ pending.measured.reader, fun j => ?_, fun j task is => ?_⟩
    · by_cases same : j = i
      · exact same ▸ measured.1
      · rw [(others j same).1]
        exact pending.measured.tasks j
    · by_cases same : j = i
      · subst same
        exact measured.2 task is
      · rw [(others j same).2] at is
        exact pending.measured.senders j task is
  accounted := by
    obtain ⟨queued, totals, sum⟩ := pending.accounted
    have part : load callback s i ≤ queued := totals.le i
    refine ⟨queued - gone, totals.update i (fun j other => ?_) (by omega), ?_⟩
    · rw [load, load, (others j other).1, (others j other).2]
    · rw [size, reader, sum]
      omega
  bounded := by
    have := pending.bounded
    omega
  admitted := fun op session k task is => by
    have := pending.admitted op session k task (reader ▸ is)
    omega
  woken := fun after is room => by
    rcases woken with ⟨same, signals, stays⟩ | signals
    · rcases pending.woken after (reader ▸ is) (by omega) with token | ⟨j, waits⟩
      · exact .inl (stays token)
      · grind
    · exact .inr ⟨i, signals⟩

theorem Pending.lands (pending : Pending callback cfg largest s)
    (quit : t.quit = s.quit) (tasks : t.tasks = s.tasks) (senders : t.senders = s.senders)
    (size : t.pendingResponsesSize = s.pendingResponsesSize)
    (left : s.reader.held callback = 0) (held : t.reader.held callback = 0)
    (empty : t.reader.task = none) (free : ∀ after, t.reader ≠ .wait true after) :
    Pending callback cfg largest t := by
  refine pending.turn quit tasks senders size (held.trans left.symm) ?_ ?_ ?_
  · intro task is
    rw [empty] at is
    cases is
  · intro op session i task is
    rw [is] at empty
    cases empty
  · intro after is
    exact absurd is (free after)

theorem Pending.looks (pending : Pending callback cfg largest s) {after : Wait PeerID L P}
    (at_ : s.reader = .wait true after) (quit : t.quit = s.quit) (tasks : t.tasks = s.tasks)
    (senders : t.senders = s.senders) (size : t.pendingResponsesSize = s.pendingResponsesSize)
    (reader : t.reader = .wait false after) : Pending callback cfg largest t := by
  have reads := pending.measured.reader
  rw [at_] at reads
  refine pending.turn quit tasks senders size (by rw [at_, reader]; rfl) ?_ ?_ ?_ <;> rw [reader]
  · exact reads
  · intro _ _ _ _ is
    cases is
  · intro _ is
    cases is

theorem add_pending (pending : Pending callback cfg largest s)
    (at_ : s.reader = .add op session i task) (fits : task.memSize ≤ largest) :
    Pending callback cfg largest
      { s with pendingResponsesSize := s.pendingResponsesSize + task.memSize
               reader := .enqueue op session i task } := by
  obtain ⟨queued, totals, sum⟩ := pending.accounted
  have reads := pending.measured.reader
  rw [at_] at reads sum
  have size := reads task rfl
  refine ⟨pending.running, ⟨reads, pending.measured.tasks, pending.measured.senders⟩,
    ⟨queued, totals, ?_⟩, ?_, fun _ _ _ _ is => (by cases is), fun _ is => (by cases is)⟩
  · change s.pendingResponsesSize + task.memSize = (share callback task : Nat) + queued
    rw [sum, size]
    change ((0 : Nat) : Int) + queued + share callback task = _
    omega
  · have room := pending.admitted op session i task at_
    change s.pendingResponsesSize + task.memSize < _
    omega

theorem enqueue_pending (pending : Pending callback cfg largest s)
    (at_ : s.reader = .enqueue op session i task) : Pending callback cfg largest
      { s with tasks := Function.update s.tasks task.senderI (s.tasks task.senderI ++ [task])
               reader := .serve op session (i + 1) } := by
  obtain ⟨queued, totals, sum⟩ := pending.accounted
  have reads := pending.measured.reader
  rw [at_] at reads sum
  refine ⟨pending.running, ⟨fun _ is => (by cases is), ?_, pending.measured.senders⟩,
    ⟨queued + share callback task, totals.update task.senderI ?_ ?_, ?_⟩, pending.bounded,
    fun _ _ _ _ is => (by cases is), fun _ is => (by cases is)⟩
  · intro j other inside
    dsimp only at inside
    by_cases own : j = task.senderI
    · subst own
      rw [Function.update_self, List.mem_append, List.mem_singleton] at inside
      rcases inside with old | rfl
      · exact pending.measured.tasks _ other old
      · exact reads other rfl
    · rw [Function.update_of_ne own] at inside
      exact pending.measured.tasks j other inside
  · intro j other
    simp only [load, Function.update_of_ne other]
  · simp only [load, Function.update_self, List.map_append, List.sum_append, List.map_cons,
      List.map_nil, List.sum_cons, List.sum_nil]
    omega
  · change s.pendingResponsesSize = ((0 : Nat) : Int) + (queued + share callback task : Nat)
    rw [sum]
    change ((share callback task : Nat) : Int) + queued = _
    omega

theorem takeTask_pending (pending : Pending callback cfg largest s) {rest : List (Task P)}
    (at_ : s.senders i = .idle) (queue : s.tasks i = task :: rest) : Pending callback cfg largest
      { s with tasks := Function.update s.tasks i rest
               senders := Function.update s.senders i (.send task) } := by
  have known := pending.measured.tasks i
  rw [queue] at known
  refine pending.pass (i := i) rfl rfl ?_ (Int.sub_zero _).symm ?_ ⟨?_, ?_⟩
    (.inl ⟨rfl, ?_, fun token => token⟩)
  · grind
  · simp only [load, Function.update_self, at_, queue, Sender.held, List.map_cons, List.sum_cons]
    omega
  · grind
  · grind
  · intro is
    rw [at_] at is
    cases is

theorem Pending.goes (pending : Pending callback cfg largest s) {after : Sender P}
    (quit : t.quit = s.quit) (reader : t.reader = s.reader) (tasks : t.tasks = s.tasks)
    (senders : t.senders = Function.update s.senders i after)
    (size : t.pendingResponsesSize = s.pendingResponsesSize - gone)
    (balance : after.held callback + gone = (s.senders i).held callback)
    (measured : ∀ task, after = .send task ∨ after = .subtract task → task.memSize =
      share callback task)
    (woken : gone = 0 ∧ (s.senders i = .signal → t.pendingSizeReduced = true) ∧
      (s.pendingSizeReduced = true → t.pendingSizeReduced = true) ∨ after = .signal) :
    Pending callback cfg largest t := by
  have own : t.senders i = after := by rw [senders, Function.update_self]
  refine pending.pass (i := i) quit reader ?_ size ?_ ⟨?_, ?_⟩ ?_
  · intro j other
    rw [tasks, senders, Function.update_of_ne other]
    exact ⟨rfl, rfl⟩
  · rw [load, load, tasks, own]
    omega
  · rw [tasks]
    exact pending.measured.tasks i
  · rw [own]
    exact measured
  · rwa [own]

variable [DecidableEq PeerID] [Locator L]

def Within (largest : Nat) (s : State PeerID L P) (a : Action PeerID L) : Prop :=
  a ≠ .stop ∧ ∀ op session i task, s.reader = .add op session i task → task.memSize ≤ largest

theorem handle_pending (pending : Pending callback cfg largest s) (reader : s.reader = .handle op) :
    Pending callback cfg largest (handle cfg s op) := by
  have left : s.reader.held callback = 0 := by rw [reader]; rfl
  unfold handle pruneOldest
  dsimp only
  split <;> split <;> split <;>
    exact pending.lands rfl rfl rfl rfl left rfl rfl (fun _ is => by cases is)

theorem load_pending (pending : Pending callback cfg largest s)
    (run : step cfg callback s .load = some t) : Pending callback cfg largest t := by
  simp only [step] at run
  split at run
  · next after at_ =>
    have left : s.reader.held callback = 0 := by rw [at_]; rfl
    have reads := pending.measured.reader
    rw [at_] at reads
    split at run
    · next full =>
      cases run
      refine pending.turn rfl rfl rfl rfl left.symm reads (fun _ _ _ _ is => (by cases is)) ?_
      intro _ _ room
      exact absurd full (not_le.mpr room)
    · next room =>
      cases run
      cases after with
      | admission op =>
        exact pending.lands rfl rfl rfl rfl left rfl rfl (fun _ is => (by cases is))
      | deliver op session i task =>
        exact pending.turn rfl rfl rfl rfl left.symm reads (fun _ _ _ _ _ => not_le.mp room)
          (fun _ is => (by cases is))
  · cases run

theorem pending_step {a : Action PeerID L} (pending : Pending callback cfg largest s)
    (within : Within largest s a) (run : step cfg callback s a = some t) :
    Pending callback cfg largest t := by
  have running := pending.running
  cases a with
  | receiveRequest peer request =>
    simp only [step] at run
    split at run
    · cases run
      exact pending
    · split at run <;> cases run
      exact pending.turn rfl rfl rfl rfl rfl pending.measured.reader pending.admitted
        pending.woken
  | stop => exact absurd rfl within.1
  | readQuit | wakeQuit | enqueueQuit =>
    simp only [step, running] at run
    split at run <;> simp_all
  | receiveUnregister | readUnregister =>
    simp only [step] at run
    split at run <;> cases run
    exact pending.turn rfl rfl rfl rfl rfl pending.measured.reader pending.admitted pending.woken
  | readRequest =>
    simp only [step] at run
    split at run
    · next at_ _ =>
      cases run
      exact pending.lands rfl rfl rfl rfl (by rw [at_]; rfl) rfl rfl (fun _ is => (by cases is))
    · cases run
  | load => exact load_pending pending run
  | wakeUnregister | wakeReduced =>
    simp only [step] at run
    split at run
    · next at_ _ =>
      cases run
      exact pending.looks at_ rfl rfl rfl rfl rfl
    · cases run
  | handle =>
    simp only [step] at run
    split at run
    · next at_ =>
      cases run
      exact handle_pending pending at_
    · cases run
  | serve =>
    simp only [step] at run
    split at run
    · next at_ =>
      have left : s.reader.held callback = 0 := by rw [at_]; rfl
      split at run <;> cases run
      · refine pending.turn rfl rfl rfl rfl left.symm ?_ (fun _ _ _ _ is => (by cases is))
          (fun _ is => (by cases is))
        rintro task ⟨⟩
        rfl
      · exact pending.lands rfl rfl rfl rfl left rfl rfl (fun _ is => (by cases is))
    · cases run
  | add =>
    simp only [step] at run
    split at run
    · next op session i task at_ =>
      cases run
      exact add_pending pending at_ (within.2 op session i task at_)
    · cases run
  | enqueue =>
    simp only [step] at run
    split at run
    · next at_ =>
      split at run <;> cases run
      exact enqueue_pending pending at_
    · cases run
  | takeTask i =>
    simp only [step] at run
    split at run
    · next at_ queue =>
      cases run
      exact takeTask_pending pending at_ queue
    · cases run
  | sendChunk i =>
    simp only [step] at run
    split at run
    · next task at_ =>
      cases run
      refine pending.goes (i := i) rfl rfl rfl rfl (Int.sub_zero _).symm (by rw [at_]; rfl) ?_
        (.inl ⟨rfl, fun is => (by rw [at_] at is; cases is), fun token => token⟩)
      rintro other (is | is) <;> cases is
      exact pending.measured.senders i task (.inl at_)
    · cases run
  | subtract i =>
    simp only [step] at run
    split at run
    · next task at_ =>
      cases run
      have size := pending.measured.senders i task (.inr at_)
      refine pending.goes (i := i) rfl rfl rfl rfl rfl ?_ ?_ (.inr rfl)
      · rw [at_, size]
        exact Nat.zero_add _
      · rintro other (is | is) <;> cases is
    · cases run
  | signal i =>
    simp only [step] at run
    split at run
    · next at_ =>
      cases run
      refine pending.goes (i := i) rfl rfl rfl rfl (Int.sub_zero _).symm (by rw [at_]; rfl) ?_
        (.inl ⟨rfl, fun _ => rfl, fun _ => rfl⟩)
      rintro other (is | is) <;> cases is
    · cases run
  | drain i =>
    simp only [step, running] at run
    cases run

/-- `pendingResponsesSize` is what is accounted and not subtracted, and a reader that is blocked although
there is room has a token waiting or a sender about to send one. -/
theorem no_lost_wakeup (positive : 0 < cfg.maxPendingResponsesSize)
    {actions : List (Action PeerID L)}
    (run : Run (step cfg callback) (Within largest) State.new actions s) :
    (∃ bound, ∀ senders, bound ≤ senders → s.pendingResponsesSize =
      ((s.reader.held callback + ∑ i ∈ Finset.range senders, load callback s i : Nat) : Int)) ∧
    s.pendingResponsesSize < cfg.maxPendingResponsesSize + largest ∧
    ∀ after, s.reader = .wait true after →
      s.pendingResponsesSize < cfg.maxPendingResponsesSize →
      s.pendingSizeReduced = true ∨ ∃ i, s.senders i = .signal := by
  have pending : Pending callback cfg largest s :=
    run.invariant (fun _ _ _ holds meets => pending_step holds meets) (new_pending positive)
  refine ⟨?_, pending.bounded, pending.woken⟩
  obtain ⟨queued, ⟨bound, sums⟩, sum⟩ := pending.accounted
  refine ⟨bound, fun senders above => ?_⟩
  rw [sum, sums senders above, Nat.cast_add]

/-- The reader is blocked after a response that fills the limit, and the sender has just subtracted
it. -/
theorem no_lost_wakeup_sample : ∃ s : State Nat Nat Nat,
    Run (step (sampleConfig 1) sampleCallbacks) (Within 1) State.new
      [ask 7 3, .readRequest, .load, .handle, .serve, .load, .add, .enqueue, .serve, .load,
        .takeTask 0, .sendChunk 0, .subtract 0] s ∧
    (∃ after, s.reader = .wait true after) ∧ s.pendingResponsesSize = 0 ∧
    (s.pendingSizeReduced = true ∨ ∃ i, s.senders i = .signal) := by
  obtain ⟨s, reached, blocked, size⟩ : ∃ s : State Nat Nat Nat,
      Run (step (sampleConfig 1) sampleCallbacks) (Within 1) State.new
        [ask 7 3, .readRequest, .load, .handle, .serve, .load, .add, .enqueue, .serve, .load,
          .takeTask 0, .sendChunk 0, .subtract 0] s ∧
      (∃ after, s.reader = .wait true after) ∧ s.pendingResponsesSize = 0 := by
    refine ⟨?state, ?reached, ?_⟩
    case reached =>
      iterate 13 refine .cons ⟨nofun, fun _ _ _ _ is => (by cases is <;> decide)⟩ rfl ?_
      exact .nil _
    · exact ⟨⟨_, rfl⟩, rfl⟩
  obtain ⟨after, at_⟩ := blocked
  have woken := (no_lost_wakeup Int.zero_lt_one reached).2.2 after at_ (size ▸ Int.zero_lt_one)
  exact ⟨s, reached, ⟨after, at_⟩, size, woken⟩

end Lachesis.Gossip.Seeder
