import Lachesis.Abft.Polling

/-!
Frames are decided one by one. The index, the event source and the application are
arbitrary here; only the calls of `ApplyAtropos` are written down, together with their
answers. A `Mark` counts them: each call is for the next frame of the current epoch, a
call that returns validators begins the next epoch, and a `Reset` begins the given one.
-/

namespace Lachesis.Abft

open Dag Pos Triples

/-- A call of `ApplyAtropos` with its answer, or a `Reset`. -/
inductive Call where
  | applied (epoch frame : Nat) (atropos : EventID) (newValidators : Option Validators)
  | reset (epoch : Nat) (validators : Validators)

structure Mark where
  epoch : Nat
  lastFrame : Nat
  validators : Validators

def Mark.next (m : Mark) : Call → Option Mark
  | .applied epoch frame _ none =>
    if epoch = m.epoch ∧ frame = m.lastFrame + 1 then some { m with lastFrame := frame } else none
  | .applied epoch frame _ (some validators) =>
    if epoch = m.epoch ∧ frame = m.lastFrame + 1 then some ⟨m.epoch + 1, 0, validators⟩ else none
  | .reset epoch validators => some ⟨epoch, 0, validators⟩

def framesSince : List Nat → List Call → List Nat
  | frames, [] => frames
  | frames, .applied _ frame _ none :: rest => framesSince (frames ++ [frame]) rest
  | _, .applied _ _ _ (some _) :: rest => framesSince [] rest
  | _, .reset _ _ :: rest => framesSince [] rest

theorem framesSince_follow : ∀ (log : List Call) (m m' : Mark) (frames : List Nat),
    log.foldlM Mark.next m = some m' → frames = List.range' 1 m.lastFrame →
    framesSince frames log = List.range' 1 m'.lastFrame := by
  intro log
  induction log with
  | nil =>
    rintro m m' frames ⟨⟩ counted
    exact counted
  | cons call rest ih =>
    intro m m' frames follow counted
    rw [List.foldlM_cons] at follow
    obtain ⟨mid, step, follow⟩ := Option.bind_eq_some_iff.mp follow
    cases call with
    | reset epoch validators =>
      cases step
      exact ih _ m' [] follow rfl
    | applied epoch frame atropos answer =>
      cases answer with
      | none =>
        simp only [Mark.next] at step
        split at step
        · next fits =>
          cases step
          refine ih _ m' _ follow ?_
          rw [counted, fits.2, List.range'_1_concat, Nat.add_comm 1]
        · cases step
      | some validators =>
        simp only [Mark.next] at step
        split at step
        · cases step
          exact ih _ m' [] follow rfl
        · cases step

section Runs

variable {World : Type}

def besideLog (dagIndex : World → EventID → EventID → Except Halt (Bool × World)) (world : World × List Call) (a b : EventID) :
    Except Halt (Bool × World × List Call) := do
  let (hit, w) ← dagIndex world.1 a b
  return (hit, w, world.2)

def logged
    (apply : Store → World → Nat → EventID →
      Except Halt (Option Validators × List (EventID × Nat) × World))
    (loaded : Option (Store → World → Nat → World)) : OrdererCallbacks (World × List Call) where
  applyAtropos := some fun store world frame atropos => do
    let (newValidators, confirmedEvent, w) ← apply store world.1 frame atropos
    let epoch ← store.getEpoch
    return (newValidators, confirmedEvent, w,
      world.2 ++ [.applied epoch frame atropos newValidators])
  epochDBLoaded := loaded.map fun loaded store world epoch =>
    (loaded store world.1 epoch, world.2)

def Call.seals : Call → Bool
  | .applied _ _ _ newValidators => newValidators.isSome
  | .reset _ _ => false

namespace Orderer

structure Aligned (m : Mark) (p : Orderer (World × List Call)) : Prop where
  epochState : p.store.epochState = some ⟨m.epoch, m.validators⟩
  lastDecidedState : p.store.lastDecidedState = some ⟨m.lastFrame⟩
  election : ∀ t, p.target = some t →
    t = (m.lastFrame + 1, m.validators) ∧ ∃ apply loaded, p.callback = logged apply loaded

variable {p p' : Orderer (World × List Call)} {m : Mark}

theorem Aligned.quiet (aligned : Aligned m p) (quiet : Quiet Prod.snd p p') : Aligned m p' where
  epochState := quiet.epochState.trans aligned.epochState
  lastDecidedState := quiet.lastDecidedState.trans aligned.lastDecidedState
  election := by
    rw [quiet.target, quiet.callback]
    exact aligned.election

def Ends (new : List Call) (p' : Orderer (World × List Call)) : Bool → Prop
  | true => ∃ earlier epoch frame atropos validators,
      new = earlier ++ [.applied epoch frame atropos (some validators)] ∧
        (∀ call ∈ earlier, call.seals = false) ∧
        p'.election = some (.reset validators firstFrame)
  | false => ∀ call ∈ new, call.seals = false

def Advances (m : Mark) (p : Orderer (World × List Call)) (m' : Mark)
    (p' : Orderer (World × List Call)) (isSealed : Bool) : Prop :=
  Aligned m' p' ∧ ∃ new, p'.world.2 = p.world.2 ++ new ∧ new.foldlM Mark.next m = some m' ∧
    Ends new p' isSealed

theorem Advances.quiet (aligned : Aligned m p) (quiet : Quiet Prod.snd p p') :
    Advances m p m p' false :=
  ⟨aligned.quiet quiet, [], by rw [quiet.watched, List.append_nil], rfl, fun _ call => by cases call⟩

theorem Advances.trans {m' m'' : Mark} {q r : Orderer (World × List Call)} {b : Bool}
    (first : Advances m p m' q false) (second : Advances m' q m'' r b) : Advances m p m'' r b := by
  obtain ⟨_, new, log, follow, calm⟩ := first
  obtain ⟨aligned, later, log', follow', ends⟩ := second
  refine ⟨aligned, new ++ later, by rw [log', log, List.append_assoc], ?_, ?_⟩
  · rw [List.foldlM_append, follow]
    exact follow'
  · cases b with
    | false =>
      intro call mem
      rcases List.mem_append.mp mem with old | fresh
      · exact calm call old
      · exact ends call fresh
    | true =>
      obtain ⟨earlier, epoch, frame, atropos, validators, rfl, quiet, election⟩ := ends
      refine ⟨new ++ earlier, epoch, frame, atropos, validators,
        (List.append_assoc _ _ _).symm, fun call mem => ?_, election⟩
      rcases List.mem_append.mp mem with old | fresh
      · exact calm call old
      · exact quiet call fresh

section Quiet

variable {dagIndex : World → EventID → EventID → Except Halt (Bool × World)} {input : EventSource}

theorem besideLog_keeps (world : World × List Call) (a b : EventID) :
    Ensures (besideLog dagIndex world a b) fun r => r.2.2 = world.2 := by
  exact ensures_bind (ensures_any _) fun r _ => ensures_ok rfl

theorem resetEpochStore_keeps (p : Orderer (World × List Call)) (epoch : Nat)
    (wired : ∃ apply loaded, p.callback = logged apply loaded) :
    Store.SameMain p.store (p.resetEpochStore epoch).store ∧
      (p.resetEpochStore epoch).world.2 = p.world.2 ∧
      (p.resetEpochStore epoch).callback = p.callback ∧
      (p.resetEpochStore epoch).election = p.election := by
  obtain ⟨apply, loaded, callback⟩ := wired
  have main : Store.SameMain p.store (p.store.dropEpochDB.openEpochDB epoch) :=
    p.store.setEpochTable_main .empty
  unfold resetEpochStore
  rw [callback]
  cases loaded with
  | none => exact ⟨main, rfl, rfl, rfl⟩
  | some loaded => exact ⟨main, rfl, rfl, rfl⟩

variable {p p' : Orderer (World × List Call)} {m : Mark}

theorem applyAtropos_logs (aligned : Aligned m p)
    (wired : ∃ apply loaded, p.callback = logged apply loaded) (frame : Nat) (atropos : EventID) :
    Ensures (p.applyAtropos frame atropos) fun r => Store.SameMain p.store r.2.store ∧
      r.2.world.2 = p.world.2 ++ [.applied m.epoch frame atropos r.1] ∧
      r.2.callback = p.callback := by
  obtain ⟨apply, loaded, callback⟩ := wired
  have called : Ensures (do
      let (newValidators, confirmedEvent, w) ← apply p.store p.world.1 frame atropos
      let epoch ← p.store.getEpoch
      return (newValidators, confirmedEvent, w,
        p.world.2 ++ [.applied epoch frame atropos newValidators]))
      fun r => r.2.2.2 = p.world.2 ++ [.applied m.epoch frame atropos r.1] := by
    refine ensures_bind (ensures_any _) fun r _ => ?_
    have epoch : p.store.getEpoch = .ok m.epoch := by
      simp only [Store.getEpoch, Store.getEpochState, aligned.epochState]
      rfl
    rw [epoch]
    exact ensures_ok rfl
  simp only [applyAtropos, callback, logged]
  refine ensures_bind called ?_
  rintro ⟨newValidators, confirmedEvent, world⟩ log
  refine ensures_bind (ensures_any _) fun db _ => ?_
  exact ensures_ok ⟨p.store.setEpochTable_main _, log, rfl⟩

theorem onFrameDecided_advances (aligned : Aligned m p)
    (wired : ∃ apply loaded, p.callback = logged apply loaded) {frame : Nat}
    (following : frame = m.lastFrame + 1) (atropos : EventID) :
    Ensures (p.onFrameDecided frame atropos) fun r => ∃ m', Advances m p m' r.2 r.1 := by
  refine ensures_bind (applyAtropos_logs aligned wired frame atropos) ?_
  rintro ⟨newValidators, q⟩ ⟨main, log, callback⟩
  dsimp only at main log callback
  rw [← callback] at wired
  have state : q.store.epochState = some ⟨m.epoch, m.validators⟩ := main.1.trans aligned.epochState
  refine ensures_bind (ensures_any _) fun _ _ => ?_
  cases newValidators with
  | some validators =>
    have sealing : q.sealEpoch validators = .ok
        ({ q with store := q.store.setEpochState ⟨m.epoch + 1, validators⟩ }.resetEpochStore
          (m.epoch + 1)) := by
      simp only [sealEpoch, Store.getEpochState, state]
      rfl
    dsimp only
    rw [sealing]
    have fresh := resetEpochStore_keeps
      { q with store := q.store.setEpochState ⟨m.epoch + 1, validators⟩ } (m.epoch + 1) wired
    refine ensures_ok ⟨⟨m.epoch + 1, 0, validators⟩, ⟨fresh.1.1, rfl, ?_⟩,
      [.applied m.epoch frame atropos (some validators)], fresh.2.1.trans log, ?_, ?_⟩
    · rintro t ⟨⟩
      refine ⟨rfl, ?_⟩
      rw [fresh.2.2.1]
      exact wired
    · simp [Mark.next, following]
    · refine ⟨[], m.epoch, frame, atropos, validators, rfl, ?_, rfl⟩
      intro call mem
      cases mem
  | none =>
    have group : q.store.getValidators = .ok m.validators := by
      simp only [Store.getValidators, Store.getEpochState, state]
      rfl
    dsimp only
    rw [group]
    refine ensures_ok ⟨{ m with lastFrame := frame }, ⟨state, rfl, ?_⟩,
      [.applied m.epoch frame atropos none], log, ?_, ?_⟩
    · rintro t ⟨⟩
      exact ⟨rfl, wired⟩
    · simp [Mark.next, following]
    · intro call mem
      rw [List.mem_singleton.mp mem]
      rfl

theorem decided_advances {q : Orderer (World × List Call)} {res : Res} (aligned : Aligned m p)
    (polled : Polled Prod.snd p (.ok (some res), q)) :
    Ensures (q.onFrameDecided res.frame res.atropos) fun r => ∃ m', Advances m p m' r.2 r.1 := by
  obtain ⟨t, target, frame⟩ := polled.2 res rfl
  obtain ⟨rfl, wired⟩ := aligned.election t target
  rw [← polled.1.callback] at wired
  refine ensures_mono
    (onFrameDecided_advances (aligned.quiet polled.1) wired frame res.atropos) ?_
  rintro r ⟨m', advances⟩
  exact ⟨m', (Advances.quiet aligned polled.1).trans advances⟩

theorem decideFrames_advances : ∀ (fuel : Nat) (m : Mark) (p : Orderer (World × List Call)),
    Aligned m p → Ensures (decideFrames (besideLog dagIndex) fuel p) fun r =>
      ∃ m' isSealed, Advances m p m' r.2 isSealed ∧ ∀ b, r.1 = .ok b → b = isSealed := by
  intro fuel
  induction fuel with
  | zero =>
    intro m p _
    exact ensures_error
  | succ fuel ih =>
    intro m p aligned
    refine ensures_bind (processKnownRoots_polled besideLog_keeps p) ?_
    rintro ⟨outcome, q⟩ polled
    have still : Advances m p m q false := .quiet aligned polled.1
    cases outcome with
    | error error => exact ensures_ok ⟨m, false, still, fun b run => by cases run⟩
    | ok decided =>
      cases decided with
      | none => exact ensures_ok ⟨m, false, still, fun b run => by cases run; rfl⟩
      | some res =>
        refine ensures_bind (decided_advances aligned polled) ?_
        rintro ⟨isSealed, r⟩ ⟨m', advances⟩
        cases isSealed with
        | true => exact ensures_ok ⟨m', true, advances, fun b run => by cases run; rfl⟩
        | false =>
          refine ensures_mono (ih m' r advances.1) ?_
          rintro ⟨outcome', s⟩ ⟨m'', isSealed, later, same⟩
          exact ⟨m'', isSealed, advances.trans later, same⟩

theorem bootstrapElection_advances (aligned : Aligned m p) :
    Ensures (p.bootstrapElection (besideLog dagIndex)) fun r =>
      ∃ m' isSealed, Advances m p m' r.2 isSealed ∧ ∀ b, r.1 = .ok b → b = isSealed := by
  exact ensures_bind (ensures_any _) fun db _ => decideFrames_advances _ m p aligned

theorem handleSlots_advances (root : Event) : ∀ (frames : List Nat) (m : Mark)
    (p : Orderer (World × List Call)), Aligned m p →
    Ensures (handleSlots (besideLog dagIndex) root frames p) fun r =>
      ∃ m' isSealed, Advances m p m' r.2 isSealed := by
  intro frames
  induction frames with
  | nil =>
    intro m p aligned
    exact ensures_ok ⟨m, false, .quiet aligned (.refl _ p)⟩
  | cons frame rest ih =>
    intro m p aligned
    refine ensures_bind (processRoot_polled besideLog_keeps p ⟨root.id, ⟨frame, root.creator⟩⟩) ?_
    rintro ⟨outcome, q⟩ polled
    have still : Advances m p m q false := .quiet aligned polled.1
    cases outcome with
    | error error => exact ensures_ok ⟨m, false, still⟩
    | ok decided =>
      cases decided with
      | none =>
        refine ensures_mono (ih m q still.1) ?_
        rintro r ⟨m', isSealed, later⟩
        exact ⟨m', isSealed, still.trans later⟩
      | some res =>
        refine ensures_bind (decided_advances aligned polled) ?_
        rintro ⟨isSealed, r⟩ ⟨m', advances⟩
        cases isSealed with
        | true => exact ensures_ok ⟨m', true, advances⟩
        | false =>
          refine ensures_bind (bootstrapElection_advances advances.1) ?_
          rintro ⟨outcome', s⟩ ⟨m'', isSealed, later, same⟩
          have both := advances.trans later
          cases outcome' with
          | error error => exact ensures_ok ⟨m'', isSealed, both⟩
          | ok b =>
            obtain rfl := same b rfl
            cases b with
            | true => exact ensures_ok ⟨m'', true, both⟩
            | false =>
              refine ensures_mono (ih m'' s both.1) ?_
              rintro r ⟨m', isSealed, last⟩
              exact ⟨m', isSealed, both.trans last⟩

theorem process_advances (aligned : Aligned m p) (e : Event) :
    Ensures (p.process (besideLog dagIndex) input e) fun r =>
      ∃ m' isSealed, Advances m p m' r.2 isSealed := by
  refine ensures_bind (checkAndSaveEvent_quiet besideLog_keeps p e) ?_
  rintro ⟨checked, q⟩ quiet
  have still : Advances m p m q false := .quiet aligned quiet
  cases checked with
  | error error => exact ensures_ok ⟨m, false, still⟩
  | ok selfParentFrame =>
    refine ensures_bind (handleSlots_advances e _ m q still.1) ?_
    rintro ⟨handled, r⟩ ⟨m', isSealed, advances⟩
    cases handled with
    | error error => exact ensures_error
    | ok _ => exact ensures_ok ⟨m', isSealed, still.trans advances⟩

theorem load_quiet (aligned : Aligned m p)
    (apply : Store → World → Nat → EventID →
      Except Halt (Option Validators × List (EventID × Nat) × World))
    (loaded : Option (Store → World → Nat → World)) :
    Ensures (p.load (logged apply loaded)) fun p' => Aligned m p' ∧ p'.world.2 = p.world.2 := by
  refine ensures_bind (ensures_any _) fun epoch _ => ?_
  have group : (p.store.openEpochDB epoch).getValidators = .ok m.validators := by
    simp only [Store.getValidators, Store.getEpochState, Store.openEpochDB, aligned.epochState]
    rfl
  have decided : (p.store.openEpochDB epoch).getLastDecidedFrame = .ok m.lastFrame := by
    simp only [Store.getLastDecidedFrame, Store.getLastDecidedState, Store.openEpochDB,
      aligned.lastDecidedState]
    rfl
  dsimp only
  rw [group]
  refine ensures_bind (ensures_ok rfl : Ensures _ fun v => v = m.validators) ?_
  rintro _ rfl
  rw [decided]
  refine ensures_ok ⟨⟨aligned.epochState, aligned.lastDecidedState, ?_⟩, ?_⟩
  · rintro t ⟨⟩
    exact ⟨rfl, apply, loaded, rfl⟩
  · cases loaded with
    | none => rfl
    | some loaded => rfl

theorem bootstrap_advances (aligned : Aligned m p)
    (apply : Store → World → Nat → EventID →
      Except Halt (Option Validators × List (EventID × Nat) × World))
    (loaded : Option (Store → World → Nat → World)) :
    Ensures (p.bootstrap (besideLog dagIndex) (logged apply loaded)) fun r =>
      ∃ m' isSealed, Advances m p m' r.2 isSealed := by
  unfold bootstrap
  split
  · exact ensures_ok ⟨m, false, .quiet aligned (.refl _ p)⟩
  · refine ensures_bind (load_quiet aligned apply loaded) ?_
    rintro q ⟨aligned', log⟩
    refine ensures_bind (bootstrapElection_advances aligned') ?_
    rintro ⟨outcome, r⟩ ⟨m', isSealed, ⟨end_, new, log', rest⟩, _⟩
    have advances : Advances m p m' r isSealed := ⟨end_, new, by rw [log', log], rest⟩
    cases outcome with
    | error error => exact ensures_ok ⟨m', isSealed, advances⟩
    | ok _ => exact ensures_ok ⟨m', isSealed, advances⟩

theorem reset_aligned (aligned : Aligned m p) {epoch : Nat} {validators : Validators}
    (run : p.reset epoch validators = .ok p') :
    Aligned ⟨epoch, 0, validators⟩ p' ∧ p'.world.2 = p.world.2 := by
  let q : Orderer (World × List Call) := { p with store := p.store.applyGenesis epoch validators }
  cases election : p.election with
  | none =>
    -- a nil election is dereferenced
    have still : (q.resetEpochStore epoch).election = none := by
      unfold resetEpochStore
      dsimp only
      split <;> exact election
    simp only [reset] at run
    rw [show (_ : Option Election) = none from still] at run
    cases run
  | some el =>
    obtain ⟨-, wired⟩ := aligned.election (el.frameToDecide, el.validators) (by
      rw [Orderer.target, election]; rfl)
    obtain ⟨main, log, callback, same⟩ := resetEpochStore_keeps q epoch wired
    simp only [reset] at run
    rw [show (_ : Option Election) = some el from same.trans election] at run
    cases run
    refine ⟨⟨main.1, main.2, ?_⟩, log⟩
    rintro t ⟨⟩
    refine ⟨rfl, ?_⟩
    rw [show (_ : OrdererCallbacks (World × List Call)) = p.callback from callback]
    exact wired

def SealsLast (p p' : Orderer (World × List Call)) : Prop :=
  ∃ new, p'.world.2 = p.world.2 ++ new ∧
    ∀ earlier epoch frame atropos validators later,
      new = earlier ++ .applied epoch frame atropos (some validators) :: later →
      later = [] ∧ p'.store.epochState = some ⟨epoch + 1, validators⟩ ∧
        p'.store.lastDecidedState = some ⟨0⟩ ∧ p'.election = some (.reset validators firstFrame)

theorem Advances.sealsLast {m' : Mark} {isSealed : Bool} (advances : Advances m p m' p' isSealed) :
    SealsLast p p' := by
  obtain ⟨aligned, new, log, follow, ends⟩ := advances
  refine ⟨new, log, ?_⟩
  rintro earlier epoch frame atropos validators later rfl
  cases isSealed with
  | false => cases ends (.applied epoch frame atropos (some validators)) (by simp)
  | true =>
    obtain ⟨calls, epoch', frame', atropos', validators', same, calm, election⟩ := ends
    rcases List.eq_nil_or_concat later with rfl | ⟨rest, last, rfl⟩
    · obtain ⟨rfl, call⟩ := List.append_inj' same rfl
      cases call
      rw [List.foldlM_append] at follow
      obtain ⟨mid, _, step⟩ := Option.bind_eq_some_iff.mp follow
      simp only [List.foldlM_cons, List.foldlM_nil, Mark.next] at step
      split at step
      · next fits =>
        cases step
        exact ⟨rfl, by rw [aligned.epochState, fits.1], aligned.lastDecidedState, election⟩
      · cases step
    · -- a call after the seal would be the only one that may seal
      have split : (earlier ++ .applied epoch frame atropos (some validators) :: rest) ++ [last] =
          calls ++ [.applied epoch' frame' atropos' (some validators')] := by
        simpa using same
      obtain ⟨rfl, -⟩ := List.append_inj' split rfl
      cases calm (.applied epoch frame atropos (some validators)) (by simp)

end Quiet

end Orderer

/-- The states of an orderer between two calls, also when the process is stopped and a new
instance is made over the same databases. -/
inductive Run (dagIndex : World → EventID → EventID → Except Halt (Bool × World))
    (input : EventSource) (genesis : EpochState) : Orderer (World × List Call) → Prop where
  | start (cfg : StoreConfig) (epochDBs : Nat → EpochDB) (w : World) :
      Run dagIndex input genesis
        { store := .new cfg ⟨some ⟨firstFrame - 1⟩, some genesis, epochDBs⟩
          election := none
          callback := ⟨none, none⟩
          world := (w, []) }
  | bootstrap {p p' : Orderer (World × List Call)} {error : Option BootstrapError}
      (apply : Store → World → Nat → EventID →
        Except Halt (Option Validators × List (EventID × Nat) × World))
      (loaded : Option (Store → World → Nat → World))
      (before : Run dagIndex input genesis p)
      (run : p.bootstrap (besideLog dagIndex) (logged apply loaded) = .ok (error, p')) :
      Run dagIndex input genesis p'
  | process {p p' : Orderer (World × List Call)} {e : Event} {error : Option ProcessError}
      (before : Run dagIndex input genesis p) (run : p.process (besideLog dagIndex) input e = .ok (error, p')) :
      Run dagIndex input genesis p'
  | build {p p' : Orderer (World × List Call)} {e e' : Event} (before : Run dagIndex input genesis p)
      (run : p.build (besideLog dagIndex) input e = .ok (e', p')) : Run dagIndex input genesis p'
  | reset {p p' : Orderer (World × List Call)} {epoch : Nat} {validators : Validators}
      (before : Run dagIndex input genesis p) (run : p.reset epoch validators = .ok p') :
      Run dagIndex input genesis { p' with world := (p'.world.1, p'.world.2 ++ [.reset epoch validators]) }
  | restart {p : Orderer (World × List Call)} (cfg : StoreConfig) (w : World)
      (before : Run dagIndex input genesis p) :
      Run dagIndex input genesis
        { store := .new cfg p.store.disk
          election := none
          callback := ⟨none, none⟩
          world := (w, p.world.2) }

theorem run_aligned {dagIndex : World → EventID → EventID → Except Halt (Bool × World)}
    {input : EventSource} {genesis : EpochState} {p : Orderer (World × List Call)}
    (run : Run dagIndex input genesis p) :
    ∃ m, p.world.2.foldlM Mark.next ⟨genesis.epoch, 0, genesis.validators⟩ = some m ∧
      p.Aligned m := by
  induction run with
  | start cfg epochDBs w => exact ⟨_, rfl, rfl, rfl, fun t target => by cases target⟩
  | @bootstrap p p' error apply loaded before call ih =>
    obtain ⟨m, follow, aligned⟩ := ih
    obtain ⟨m', _, aligned', new, log, follow', _⟩ :=
      Orderer.bootstrap_advances aligned apply loaded _ call
    refine ⟨m', ?_, aligned'⟩
    rw [log, List.foldlM_append, follow]
    exact follow'
  | @process p p' e error before call ih =>
    obtain ⟨m, follow, aligned⟩ := ih
    obtain ⟨m', _, aligned', new, log, follow', _⟩ := Orderer.process_advances aligned e _ call
    refine ⟨m', ?_, aligned'⟩
    rw [log, List.foldlM_append, follow]
    exact follow'
  | @build p p' e e' before call ih =>
    obtain ⟨m, follow, aligned⟩ := ih
    have quiet := Orderer.build_quiet Orderer.besideLog_keeps p e _ call
    exact ⟨m, by rw [quiet.watched, follow], aligned.quiet quiet⟩
  | @reset p p' epoch validators before call ih =>
    obtain ⟨m, follow, aligned⟩ := ih
    obtain ⟨aligned', log⟩ := Orderer.reset_aligned aligned call
    refine ⟨⟨epoch, 0, validators⟩, ?_,
      aligned'.epochState, aligned'.lastDecidedState, aligned'.election⟩
    dsimp only
    rw [log, List.foldlM_append, follow]
    rfl
  | @restart p cfg w before ih =>
    obtain ⟨m, follow, aligned⟩ := ih
    exact ⟨m, follow, aligned.epochState, aligned.lastDecidedState,
      fun t target => by cases target⟩

/-- In every run the election decides the frame after the last decided one, the frames of
the epoch are applied in order, and a seal ends the call it happens in. -/
theorem frames_decided_in_order
    {dagIndex : World → EventID → EventID → Except Halt (Bool × World)} {input : EventSource}
    {genesis : EpochState} {p : Orderer (World × List Call)} (run : Run dagIndex input genesis p) :
    ∃ m, p.world.2.foldlM Mark.next ⟨genesis.epoch, 0, genesis.validators⟩ = some m ∧
      framesSince [] p.world.2 = List.range' 1 m.lastFrame ∧
      p.store.epochState = some ⟨m.epoch, m.validators⟩ ∧
      p.store.lastDecidedState = some ⟨m.lastFrame⟩ ∧
      (∀ el, p.election = some el →
        el.frameToDecide = m.lastFrame + 1 ∧ el.validators = m.validators) ∧
      (∀ e error p', p.process (besideLog dagIndex) input e = .ok (error, p') →
        p.SealsLast p') ∧
      ∀ apply loaded error p',
        p.bootstrap (besideLog dagIndex) (logged apply loaded) = .ok (error, p') →
        p.SealsLast p' := by
  obtain ⟨m, follow, aligned⟩ := run_aligned run
  refine ⟨m, follow, framesSince_follow _ _ m [] follow rfl, aligned.epochState,
    aligned.lastDecidedState, fun el election => ?_, fun e error p' call => ?_,
    fun apply loaded error p' call => ?_⟩
  · obtain ⟨same, -⟩ := aligned.election (el.frameToDecide, el.validators) (by
      rw [Orderer.target, election]; rfl)
    exact ⟨congrArg Prod.fst same, congrArg Prod.snd same⟩
  · obtain ⟨m', isSealed, advances⟩ := Orderer.process_advances aligned e _ call
    exact advances.sealsLast
  · obtain ⟨m', isSealed, advances⟩ := Orderer.bootstrap_advances aligned apply loaded _ call
    exact advances.sealsLast

end Runs

section Duo

/-- Validator 1 is a quorum on its own, and validator 2 has two first events. -/
def duoValidators : Validators where
  sortedArray := [⟨1, 3⟩, ⟨2, 1⟩]
  ordered := by decide
  distinct := by decide
  positive := by decide
  limited := by decide

def duoEvent (seq : Nat) : Event where
  epoch := 1
  seq := seq
  frame := seq
  creator := 1
  parents := if seq = 1 then [] else BitVec.ofNat 256 (seq - 1) :: if seq = 2 then [11, 12] else []
  lamport := seq
  id := BitVec.ofNat 256 seq

def duoFork (id : EventID) : Event := ⟨1, 1, 1, 2, [], 1, id⟩

def duoEvents : List Event :=
  [duoEvent 1, duoFork 11, duoFork 12, duoEvent 2, duoEvent 3, duoEvent 4]

def duoInput : EventSource := ⟨duoEvents⟩

def duoIndex (w : Unit) (_ b : EventID) : Except Halt (Bool × Unit) := .ok (b ≠ 11 ∧ b ≠ 12, w)

def duoApply (_ : Store) (_ : Unit) (frame : Nat) (_ : EventID) :
    Except Halt (Option Validators × List (EventID × Nat) × Unit) :=
  .ok (if frame = 2 then some duoValidators else none, [], ())

end Duo

theorem frames_decided_in_order_duo : ∃ p : Orderer (Unit × List Call),
    p.world.2.map Call.seals = [false, true] ∧
    ∃ m, p.world.2.foldlM Mark.next ⟨1, 0, duoValidators⟩ = some m ∧
      framesSince [] p.world.2 = List.range' 1 m.lastFrame ∧
      p.store.epochState = some ⟨m.epoch, m.validators⟩ := by
  have start : Run duoIndex duoInput ⟨1, duoValidators⟩ _ := .start ⟨100, 100⟩ (fun _ => .empty) ()
  have ready := start.bootstrap duoApply none rfl
  have first := ready.process (e := duoEvent 1) rfl
  have forked := (first.process (e := duoFork 11) rfl).process (e := duoFork 12) rfl
  have second := forked.process (e := duoEvent 2) rfl
  have third := second.process (e := duoEvent 3) rfl
  have fourth := third.process (e := duoEvent 4) rfl
  obtain ⟨m, follow, frames, state, -⟩ := frames_decided_in_order fourth
  exact ⟨_, rfl, m, follow, frames, state⟩

end Lachesis.Abft
