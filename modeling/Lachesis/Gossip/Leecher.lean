import Lachesis.Library.Transition

/-!
`basestreamleecher.BaseLeecher`. The application behind the callbacks has the session; the leecher
has the set of peers it may ask, and calls the application under its mutex.
-/

namespace Lachesis.Gossip.Leecher

open Transition

/-- The callbacks, over the state of the application. Candidates are selected from the peers. -/
structure Callbacks (PeerID App : Type) where
  selectSessionPeerCandidates : App → Finset PeerID → List PeerID
  shouldTerminateSession : App → Bool
  startSession : List PeerID → App → App
  terminateSession : App → App
  ongoingSession : App → Bool
  ongoingSessionPeer : App → PeerID

structure BaseLeecher (PeerID App : Type) where
  app : App
  peers : Finset PeerID
  quit : Bool
  terminated : Bool

section Machine

variable {PeerID App : Type} [DecidableEq PeerID]

def BaseLeecher.new (app : App) : BaseLeecher PeerID App where
  app := app
  peers := ∅
  quit := false
  terminated := false

variable (callback : Callbacks PeerID App)

def routine (d : BaseLeecher PeerID App) : BaseLeecher PeerID App :=
  if d.terminated then d
  else
    let app :=
      if callback.ongoingSession d.app && callback.shouldTerminateSession d.app then
        callback.terminateSession d.app
      else d.app
    if callback.ongoingSession app then { d with app := app }
    else
      let candidates := callback.selectSessionPeerCandidates app d.peers
      if candidates.length ≠ 0 then { d with app := callback.startSession candidates app }
      else { d with app := app }

def registerPeer (d : BaseLeecher PeerID App) (peer : PeerID) : BaseLeecher PeerID App :=
  if d.terminated then d else { d with peers := insert peer d.peers }

def unregisterPeer (d : BaseLeecher PeerID App) (peer : PeerID) : BaseLeecher PeerID App :=
  let d :=
    if callback.ongoingSessionPeer d.app = peer then
      routine callback { d with app := callback.terminateSession d.app }
    else d
  { d with peers := d.peers.erase peer }

def terminate (d : BaseLeecher PeerID App) : BaseLeecher PeerID App :=
  { d with terminated := true, quit := true, app := callback.terminateSession d.app }

inductive Action (PeerID App : Type) where
  | registerPeer (peer : PeerID)
  | unregisterPeer (peer : PeerID)
  | routine
  | terminate
  | proceed (app : App)

def Callbacks.SessionWith (p : PeerID) (app : App) : Prop :=
  callback.ongoingSession app = true ∧ callback.ongoingSessionPeer app = p

instance (p : PeerID) (app : App) : Decidable (callback.SessionWith p app) :=
  inferInstanceAs (Decidable (_ ∧ _))

def Callbacks.Proceeds (app app' : App) : Prop :=
  callback.ongoingSession app' = true → callback.ongoingSession app = true ∧
    callback.ongoingSessionPeer app' = callback.ongoingSessionPeer app

instance (app app' : App) : Decidable (callback.Proceeds app app') :=
  inferInstanceAs (Decidable (_ → _))

def step (d : BaseLeecher PeerID App) : Action PeerID App → Option (BaseLeecher PeerID App)
  | .registerPeer peer => some (registerPeer d peer)
  | .unregisterPeer peer => some (unregisterPeer callback d peer)
  | .routine => some (routine callback d)
  | .terminate => some (terminate callback d)
  | .proceed app => if callback.Proceeds d.app app then some { d with app := app } else none

structure Lawful : Prop where
  selects : ∀ app peers, ∀ p ∈ callback.selectSessionPeerCandidates app peers, p ∈ peers
  starts : ∀ app candidates, candidates ≠ [] →
    callback.ongoingSession (callback.startSession candidates app) = true ∧
    callback.ongoingSessionPeer (callback.startSession candidates app) ∈ candidates
  terminates : ∀ app, callback.ongoingSession (callback.terminateSession app) = false

variable {callback} {d t : BaseLeecher PeerID App} {p : PeerID}

omit [DecidableEq PeerID] in
theorem routine_peers (d : BaseLeecher PeerID App) : (routine callback d).peers = d.peers := by
  unfold routine
  dsimp only
  repeat' split
  all_goals rfl

omit [DecidableEq PeerID] in
theorem not_sessionWith_terminated (lawful : Lawful callback) (app : App) :
    ¬ callback.SessionWith p (callback.terminateSession app) := by
  intro session
  have ended := lawful.terminates app
  rw [session.1] at ended
  cases ended

omit [DecidableEq PeerID] in
theorem routine_sessionWith (lawful : Lawful callback)
    (session : callback.SessionWith p (routine callback d).app) :
    callback.SessionWith p d.app ∨ p ∈ d.peers := by
  have opened : ∀ app, callback.SessionWith p
      (if callback.ongoingSession app then { d with app := app }
      else if (callback.selectSessionPeerCandidates app d.peers).length ≠ 0 then
        { d with app := callback.startSession (callback.selectSessionPeerCandidates app d.peers) app }
      else { d with app := app }).app → callback.SessionWith p app ∨ p ∈ d.peers := by
    intro app session
    split at session
    · exact .inl session
    split at session
    · next some_ =>
      have started := lawful.starts app _ (List.length_pos_iff.mp (Nat.pos_of_ne_zero some_))
      rw [← session.2]
      exact .inr (lawful.selects _ _ _ started.2)
    · exact .inl session
  unfold routine at session
  split at session
  · exact .inl session
  rcases opened _ session with before | known
  · split at before
    · exact absurd before (not_sessionWith_terminated lawful d.app)
    · exact .inl before
  · exact .inr known

def Gone (callback : Callbacks PeerID App) (p : PeerID) (d : BaseLeecher PeerID App) : Prop :=
  p ∉ d.peers ∧ ¬ callback.SessionWith p d.app

variable {a : Action PeerID App}

theorem gone_step (lawful : Lawful callback) (gone : Gone callback p d)
    (other : a ≠ .registerPeer p) (run : step callback d a = some t) : Gone callback p t := by
  have after_routine : ∀ {d : BaseLeecher PeerID App}, Gone callback p d →
      Gone callback p (routine callback d) := by
    intro d gone
    refine ⟨routine_peers d ▸ gone.1, fun session => ?_⟩
    rcases routine_sessionWith lawful session with before | known
    · exact gone.2 before
    · exact gone.1 known
  have after_end : Gone callback p { d with app := callback.terminateSession d.app } :=
    ⟨gone.1, not_sessionWith_terminated lawful d.app⟩
  cases a with
  | registerPeer peer =>
    cases run
    unfold registerPeer
    split
    · exact gone
    · refine ⟨fun inside => ?_, gone.2⟩
      rcases Finset.mem_insert.mp inside with rfl | known
      · exact other rfl
      · exact gone.1 known
  | unregisterPeer peer =>
    cases run
    have inner : Gone callback p (if callback.ongoingSessionPeer d.app = peer then
        routine callback { d with app := callback.terminateSession d.app } else d) := by
      split
      · exact after_routine after_end
      · exact gone
    exact ⟨fun inside => inner.1 (Finset.mem_of_mem_erase inside), inner.2⟩
  | routine =>
    cases run
    exact after_routine gone
  | terminate =>
    cases run
    exact after_end
  | proceed app =>
    simp only [step] at run
    split at run
    · next proceeds =>
      cases run
      refine ⟨gone.1, fun session => gone.2 ?_⟩
      obtain ⟨ongoing, same⟩ := proceeds session.1
      exact ⟨ongoing, same ▸ session.2⟩
    · cases run

/-- The routine that `UnregisterPeer` runs does not open a session with the peer again. -/
def Departs (callback : Callbacks PeerID App) (d : BaseLeecher PeerID App) (p : PeerID) : Prop :=
  let app := callback.terminateSession d.app
  let candidates := callback.selectSessionPeerCandidates app d.peers
  callback.ongoingSessionPeer d.app ≠ p ∨ d.terminated = true ∨ candidates = [] ∨
    callback.ongoingSessionPeer (callback.startSession candidates app) ≠ p

theorem unregisterPeer_sessionWith (lawful : Lawful callback) (d : BaseLeecher PeerID App)
    (p : PeerID) :
    ¬ callback.SessionWith p (unregisterPeer callback d p).app ↔ Departs callback d p := by
  unfold unregisterPeer Departs
  dsimp only
  by_cases current : callback.ongoingSessionPeer d.app = p
  · rw [if_pos current]
    unfold routine
    dsimp only
    by_cases stopped : d.terminated = true
    · simp [stopped, current, not_sessionWith_terminated lawful d.app]
    · have idle := lawful.terminates d.app
      simp only [stopped, idle, Bool.false_and, Bool.false_eq_true, if_false, current,
        false_or]
      by_cases none_ : callback.selectSessionPeerCandidates (callback.terminateSession d.app)
          d.peers = []
      · simp [none_, not_sessionWith_terminated lawful d.app]
      · have started := lawful.starts (callback.terminateSession d.app) _ none_
        simp [none_, Callbacks.SessionWith, started.1]
  · rw [if_neg current]
    simp [current, Callbacks.SessionWith]

theorem terminated_step (lawful : Lawful callback)
    (ended : d.terminated = true ∧ callback.ongoingSession d.app = false)
    (run : step callback d a = some t) :
    t.terminated = true ∧ callback.ongoingSession t.app = false := by
  obtain ⟨stopped, idle⟩ := ended
  have still : routine callback d = d := by rw [routine, if_pos stopped]
  cases a with
  | registerPeer peer =>
    cases run
    rw [registerPeer, if_pos stopped]
    exact ⟨stopped, idle⟩
  | unregisterPeer peer =>
    cases run
    unfold unregisterPeer
    dsimp only
    split
    · rw [routine, if_pos stopped]
      exact ⟨stopped, lawful.terminates d.app⟩
    · exact ⟨stopped, idle⟩
  | routine =>
    cases run
    rw [still]
    exact ⟨stopped, idle⟩
  | terminate =>
    cases run
    exact ⟨rfl, lawful.terminates d.app⟩
  | proceed app =>
    simp only [step] at run
    split at run
    · next proceeds =>
      cases run
      refine ⟨stopped, Bool.eq_false_iff.mpr fun ongoing => ?_⟩
      have before := (proceeds ongoing).1
      rw [idle] at before
      cases before
    · cases run

/-- After `UnregisterPeer` there is no session with the peer, as long as it does not register again,
exactly if the routine run inside does not open one. -/
theorem unregistering_ends_sessions (lawful : Lawful callback) (d : BaseLeecher PeerID App) :
    (∀ p, (∀ actions t, Run (step callback) (fun _ a => a ≠ .registerPeer p)
        (unregisterPeer callback d p) actions t → ¬ callback.SessionWith p t.app) ↔
      Departs callback d p) ∧
    ∀ actions t, Run (step callback) (fun _ _ => True) (terminate callback d) actions t →
      callback.ongoingSession t.app = false := by
  refine ⟨fun p => ⟨fun never => ?_, fun departs actions t run => ?_⟩, fun actions t run => ?_⟩
  · exact (unregisterPeer_sessionWith lawful d p).mp (never [] _ (.nil _))
  · have gone : Gone callback p (unregisterPeer callback d p) :=
      ⟨Finset.notMem_erase p _, (unregisterPeer_sessionWith lawful d p).mpr departs⟩
    exact (run.invariant (fun _ _ _ holds meets move => gone_step lawful holds meets move) gone).2
  · have ended : (terminate callback d).terminated = true ∧
        callback.ongoingSession (terminate callback d).app = false :=
      ⟨rfl, lawful.terminates d.app⟩
    exact (run.invariant (fun _ _ _ holds _ move => terminated_step lawful holds move) ended).2

end Machine

section Sample

def sampleCallbacks : Callbacks Nat (Option Nat) where
  selectSessionPeerCandidates _ peers := (List.range 3).filter (· ∈ peers)
  shouldTerminateSession _ := false
  startSession candidates _ := candidates.head?
  terminateSession _ := none
  ongoingSession app := app.isSome
  ongoingSessionPeer app := app.getD 0

theorem sample_lawful : Lawful sampleCallbacks where
  selects := fun app peers p chosen => of_decide_eq_true (List.mem_filter.mp chosen).2
  starts := fun app candidates some_ => by
    cases candidates with
    | nil => exact absurd rfl some_
    | cons first rest => exact ⟨rfl, List.mem_cons_self⟩
  terminates := fun _ => rfl

end Sample

/-- Peer 2 leaves while the session is with peer 1. -/
theorem unregistering_ends_sessions_other : ∃ d : BaseLeecher Nat (Option Nat),
    Run (step sampleCallbacks) (fun _ _ => True) (.new none)
      [.registerPeer 1, .routine, .registerPeer 2] d ∧
    Departs sampleCallbacks d 2 ∧
    ∀ actions t, Run (step sampleCallbacks) (fun _ a => a ≠ .registerPeer 2)
      (unregisterPeer sampleCallbacks d 2) actions t →
      ¬ sampleCallbacks.SessionWith 2 t.app := by
  refine ⟨_, .of_foldlM (fun _ _ _ => trivial) rfl, ?_, ?_⟩
  · exact .inl (by decide)
  · exact ((unregistering_ends_sessions sample_lawful _).1 2).mpr (.inl (by decide))

/-- The only peer leaves, and the session with it is opened again before it is forgotten. -/
theorem unregistered_peer_reselected : ∃ d : BaseLeecher Nat (Option Nat),
    Run (step sampleCallbacks) (fun _ _ => True) (.new none) [.registerPeer 1, .routine] d ∧
    sampleCallbacks.SessionWith 1 (unregisterPeer sampleCallbacks d 1).app ∧
    1 ∉ (unregisterPeer sampleCallbacks d 1).peers := by
  refine ⟨_, .of_foldlM (fun _ _ _ => trivial) rfl, ?_, ?_⟩
  · decide
  · exact Finset.notMem_erase 1 _

end Lachesis.Gossip.Leecher
