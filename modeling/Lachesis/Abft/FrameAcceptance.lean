import Lachesis.Abft.RootSlots

/-!
Which frames `Process` accepts and which frame `Build` computes, against the stored roots; and that
neither depends on anything but the ancestors of the event.
-/

namespace Lachesis.Abft

open Dag Pos Triples Vecfc Vecengine WeightedQuorum

section Stored

variable {vv : Validators} (D : EventDag vv) (store : Store) (e : Event)

open scoped Classical in
noncomputable def storedCausers (f : Nat) : Finset ValidatorID :=
  vv.group.filter fun v => ∃ db, store.epochTable = .ok db ∧ ∃ r ∈ db.roots, r.slot = ⟨f, v⟩ ∧
    ∃ x ∈ D.events, x.id = r.id ∧ ForklessCaused D.events vv e x

def StoredQuorum (f : Nat) : Prop := vv.quorum ≤ mass vv.get (storedCausers D store e f)

def MaxFrame (limit : Nat) : Prop :=
  ∃ f, IsLeast {f | spFrame D e ≤ f ∧ ¬ StoredQuorum D store e f} f ∧
    limit = if f = 0 then 1 else f

end Stored

variable {vv : Validators} {D : EventDag vv} {L : List Event} {e : Event}

variable {epoch limit : Nat} {store : Store} {db : VecDb}

theorem storedQuorum_iff (tabled : Tabled D epoch L store db) (received : D.Received L) {f : Nat} :
    StoredQuorum D store e f ↔ QuorumOn D L e f := by
  have same : storedCausers D store e f = causers D L e f := by
    classical
    ext v
    rw [storedCausers, Finset.mem_filter, mem_causers, mem_group, tabled.rooted.epochTable]
    refine and_congr_right fun _ => ⟨?_, ?_⟩
    · rintro ⟨db, opened, r, member, slot, x, inX, same, caused⟩
      cases opened
      obtain ⟨y, inY, g, isRoot, rfl⟩ := (tabled.rooted.mem r).mp member
      obtain ⟨rfl, owner⟩ : g = f ∧ y.creator = v := Slot.mk.inj slot
      exact ⟨y, inY, isRoot, owner, EventDag.ids inX (received.inside y inY) same ▸ caused⟩
    · rintro ⟨x, inX, isRoot, owner, caused⟩
      refine ⟨_, rfl, rootAt x f, (tabled.rooted.mem _).mpr ⟨x, inX, f, isRoot, rfl⟩, ?_, x,
        received.inside x inX, rfl, caused⟩
      rw [rootAt, owner]
  rw [StoredQuorum, same, QuorumOn]

theorem maxFrame_iff (tabled : Tabled D epoch L store db) (received : D.Received L) :
    MaxFrame D store e limit ↔ FrameLimit D L e limit := by
  have one : ∀ f, (if f = 0 then 1 else f) = max f 1 := fun f => by split <;> omega
  simp only [MaxFrame, FrameLimit, storedQuorum_iff tabled received, one]

theorem frameLimit_twin {L' : List Event} {e' : Event} (twin : Twin e e') (atop : Atop D L e)
    (atop' : Atop D L' e') (limited : FrameLimit D L e limit) : FrameLimit D L' e' limit := by
  obtain ⟨f, least, rfl⟩ := limited
  refine ⟨f, ?_, rfl⟩
  rwa [twin.spFrame, show {f | spFrame D e ≤ f ∧ ¬ QuorumOn D L' e' f} = _ from
    Set.ext fun g => and_congr_right fun _ => not_congr (quorumOn_twin twin atop atop').symm]

section Acceptance

variable {App : Type} {input : EventSource} {epoch : Nat} {p : IndexedLachesis App}

/-- `Process` accepts the frames from the self-parent's on up to the limit, and no others. -/
structure Accepts (input : EventSource) (D : EventDag vv) (p : IndexedLachesis App) (e : Event)
    (vi : Index) (limit : Nat) : Prop where
  added : p.lachesis.world.dagIndexer.add e = .ok vi
  checks : ∃ checked q, (p.told vi).checkAndSaveEvent World.forklessCause input e = .ok (checked, q) ∧
    (checked = .ok (spFrame D e) ↔ max (spFrame D e) 1 ≤ e.frame ∧ e.frame ≤ limit)
  processes : ∀ error p', p.process input e = .ok (error, p') →
    (error = none ↔ max (spFrame D e) 1 ≤ e.frame ∧ e.frame ≤ limit)
  rejects : ¬ (max (spFrame D e) 1 ≤ e.frame ∧ e.frame ≤ limit) →
    ∃ p', p.process input e = .ok (some .wrongFrame, p')

theorem process_accepts (standing : Standing input D epoch L p.lachesis)
    (received : D.Received (L ++ [e])) (capped : Capped (L ++ [e])) {limit : Nat}
    (limited : FrameLimit D L e limit) : ∃ vi, Accepts input D p e vi limit ∧
      Checking D epoch L e p.lachesis.world.callback (p.told vi).store (p.told vi).world := by
  obtain ⟨vi, added, index, same⟩ := add_stays standing.settled.index received
  have checking : Checking D epoch L e p.lachesis.world.callback (p.told vi).store
      (p.told vi).world := ⟨same.symm ▸ standing.settled.tabled, index, rfl⟩
  obtain ⟨checked, q, check, _, ends, accepts⟩ :=
    checkAndSaveEvent_checks standing.held received standing.framed checking
  have accepts := accepts capped limit limited
  suffices both : (∀ error p', p.process input e = .ok (error, p') →
      (error = none ↔ max (spFrame D e) 1 ≤ e.frame ∧ e.frame ≤ limit)) ∧
      (¬ (max (spFrame D e) 1 ≤ e.frame ∧ e.frame ≤ limit) →
        ∃ p', p.process input e = .ok (some .wrongFrame, p')) from
    ⟨vi, ⟨added, ⟨checked, q, check, accepts⟩, both.1, both.2⟩, checking⟩
  rw [← accepts]
  rcases ends with ⟨rfl, _⟩ | ⟨rfl, _⟩
  · have rejected := IndexedLachesis.process_rejected added check
    refine ⟨fun error p' run => ?_, fun _ => ⟨_, rejected⟩⟩
    rw [rejected, Except.ok.injEq, Prod.mk.injEq] at run
    rw [← run.1]
    simp
  · refine ⟨fun error p' run => iff_of_true ?_ rfl, fun refused => absurd rfl refused⟩
    rw [IndexedLachesis.process_accepted added check] at run
    exact (IndexedLachesis.conclude_ensures (ensures_any _) (Q := fun _ => True)
      (fun o _ => ensures_mono (ensures_any _) fun _ _ => trivial) _ run).1

/-- The cache of `ForklessCause` has no answer under the temporary ID of the next `Build` of `e`. -/
def IndexedLachesis.Unanswered (p : IndexedLachesis App) (e : Event) : Prop :=
  p.lachesis.world.dagIndexer.forklessCauseCache.Holds fun pair _ =>
    pair.1 ≠ (e.setID (sample (p.uniqueDirtyID + 1))).id

theorem drafts_answers {draft : Event} (twin : Twin e draft) (received : D.Received (L ++ [e]))
    (capped : Capped (L ++ [e])) (atop : Atop D L draft) :
    Orderer.Answers World.forklessCause D L draft (fun store (w : World App) =>
      Tabled D epoch L store w.dagIndexer.persisted ∧ Drafts D e draft L w.dagIndexer) True where
  validators := fun _ _ building => building.1.getValidators
  looks := by
    intro store w f building
    obtain ⟨rr, store', run, tabled, roots⟩ := building.1.looks f
    exact ⟨rr, store', run, ⟨tabled, building.2⟩, roots⟩
  observes := by
    intro store w x building inX
    obtain ⟨hit, vi, run, drafts, same, right⟩ := forklessCause_drafts building.2 received capped inX
    refine ⟨hit, { w with dagIndexer := vi }, ?_, ⟨same.symm ▸ building.1, drafts⟩, fun _ => ?_⟩
    · rw [World.forklessCause, run]
      rfl
    · rw [right]
      exact ⟨fun caused => (twin.forklessCaused (atop_snoc received) atop inX caused).2,
        fun caused => (twin.symm.forklessCaused atop (atop_snoc received) inX caused).2⟩

/-- `Build` computes the frame of the event as if it already had its own ID. -/
theorem build_climbs (standing : Standing input D epoch L p.lachesis)
    (received : D.Received (L ++ [e])) (capped : Capped (L ++ [e])) (limited : FrameLimit D L e limit)
    {b : Event} (twin : Twin e b) (foreign : Unassigned D b (p.uniqueDirtyID + 1))
    (unanswered : p.Unanswered b) (current : p.lachesis.store.getEpoch = .ok b.epoch) :
    ∃ built p', p.build input b = .ok (built, p') ∧ Twin e built ∧
      built.frame = min limit (spFrame D e + 100) := by
  obtain ⟨old, inE, parents, _⟩ := received.snoc
  generalize draftIs : b.setID (sample (p.uniqueDirtyID + 1)) = draft at foreign unanswered
  have twin' : Twin e draft := draftIs ▸ ⟨twin.creator, twin.seq, twin.parents⟩
  have other : ∀ x ∈ L, x.id ≠ draft.id := fun x inX => draftIs ▸ foreign x (old.inside x inX)
  have atop : Atop D L draft :=
    ⟨old, twin'.parents ▸ parents, fun inL => other draft inL rfl⟩
  obtain ⟨vi, added, drafts, same⟩ := add_drafts standing.settled.index received twin'.creator
    twin'.seq twin'.parents other (draftIs ▸ unanswered)
  have self : Orderer.selfParentFrame input draft = .ok (spFrame D draft) := by
    rw [twin'.spFrame, ← Orderer.selfParentFrame_eq standing.held inE, Orderer.selfParentFrame,
      Orderer.selfParentFrame, twin'.selfParent]
  obtain ⟨top, q, calc', _, _, above, below, _, exact'⟩ :=
    Orderer.calcFrameIdx_climbs (p := p.told vi) (drafts_answers twin' received capped atop) self
      old.inside ⟨same.symm ▸ standing.settled.tabled, drafts⟩ false
  obtain ⟨f, least, rfl⟩ := frameLimit_twin twin' (atop_snoc received) atop limited
  have is := climbed_eq above below (exact' trivial).1 (exact' trivial).2 least
  have member : vv.exists draft.creator = true :=
    exists_iff.mpr (twin'.creator ▸ (D.valid e inE).listed)
  have epochs : (p.told vi).store.getEpoch = .ok draft.epoch := draftIs ▸ current
  have group : (p.told vi).store.getValidators = .ok vv := standing.settled.tabled.getValidators
  have built : (p.told vi).build World.forklessCause input draft =
      .ok (draft.setFrame (max top 1), q) := by
    rw [Orderer.build, epochs]
    dsimp only [bind, Except.bind]
    rw [if_neg (not_not.mpr rfl), group]
    dsimp only
    rw [if_neg (by simp [member]), calc']
    rfl
  unfold IndexedLachesis.told at built
  refine ⟨draft.setFrame (max top 1), ⟨{ q with world := q.world.dropNotFlushed }, p.uniqueDirtyID + 1⟩,
    ?_, ⟨twin'.creator, twin'.seq, twin'.parents⟩, ?_⟩
  · rw [IndexedLachesis.build]
    dsimp only
    rw [draftIs, added]
    dsimp only [bind, Except.bind]
    rw [built]
    rfl
  · rw [← twin'.spFrame]
    simp at is
    change max top 1 = _
    omega

end Acceptance

/-- Within the cap `Process` accepts the frames from the self-parent's on up to the first one without a
quorum of stored roots, `calcFrameIdx` computes that frame, and other instances have the same limit;
`Build` computes it too, unless it finds an answer about an earlier event under its temporary ID. -/
theorem frame_acceptance {App : Type} {input : EventSource} {p : IndexedLachesis App}
    (lives : Lives input vv D L p) (received : D.Received (L ++ [e])) (capped : Capped (L ++ [e])) :
    ∃ limit vi, MaxFrame D p.lachesis.store e limit ∧ Accepts input D p e vi limit ∧
      (∃ q, (p.told vi).calcFrameIdx World.forklessCause input e false =
        .ok (spFrame D e, min limit (spFrame D e + 100), q)) ∧
      (∀ b, Twin e b → Unassigned D b (p.uniqueDirtyID + 1) → p.Unanswered b →
        p.lachesis.store.getEpoch = .ok b.epoch → ∃ built p', p.build input b = .ok (built, p') ∧
          Twin e built ∧ built.frame = min limit (spFrame D e + 100)) ∧
      ∀ (App' : Type) (input' : EventSource) (p' : IndexedLachesis App') (L' : List Event) (e' : Event),
        Lives input' vv D L' p' → Twin e e' → D.Received (L' ++ [e']) →
        spFrame D e' = spFrame D e ∧ MaxFrame D p'.lachesis.store e' limit ∧
          (Capped (L' ++ [e']) → e'.frame = min limit (spFrame D e + 100) →
            ∀ error q, p'.process input' e' = .ok (error, q) → error = none) := by
  obtain ⟨epoch, standing⟩ := lives_standing lives
  obtain ⟨old, inE, _, _⟩ := received.snoc
  obtain ⟨limit, limited⟩ := exists_frameLimit D L e
  obtain ⟨vi, accepts, checking⟩ := process_accepts standing received capped limited
  refine ⟨limit, vi, (maxFrame_iff standing.settled.tabled old).mpr limited, accepts, ?_,
    fun b => build_climbs standing received capped limited, ?_⟩
  · obtain ⟨top, q, calc', _, _, above, below, _, exact'⟩ := Orderer.calcFrameIdx_climbs
      checking_answers (Orderer.selfParentFrame_eq standing.held inE) old.inside checking false
    obtain ⟨f, least, rfl⟩ := limited
    have is := climbed_eq above below (exact' capped).1 (exact' capped).2 least
    refine ⟨q, ?_⟩
    rw [calc', show max top 1 = min (max f 1) (spFrame D e + 100) by simp at is; omega]
  · intro App' input' p' L' e' lives' twin received'
    obtain ⟨epoch', standing'⟩ := lives_standing lives'
    have limited' := frameLimit_twin twin (atop_snoc received) (atop_snoc received') limited
    refine ⟨twin.spFrame, (maxFrame_iff standing'.settled.tabled received'.snoc.1).mpr limited',
      fun capped' claimed error q run => ?_⟩
    obtain ⟨_, accepts', _⟩ := process_accepts standing' received' capped' limited'
    refine (accepts'.processes error q run).mpr ?_
    obtain ⟨f, least, rfl⟩ := limited
    have := least.1.1
    rw [twin.spFrame]
    omega

section Drift

/-- The second event of validator 2, over its own first one alone. -/
def lateEvent (frame : Nat) : Event := ⟨1, 2, frame, 2, [11], 2, BitVec.ofNat 256 (20 + frame)⟩

def driftDag : EventDag duoValidators where
  events := [duoEvent 1, duoFork 11, lateEvent 1, lateEvent 2]
  ordered := by decide
  valid := by decide

theorem drift_unassigned {e : Event} (epoch : e.epoch = 1) (n : Nat) : Unassigned driftDag e n := by
  have low : ∀ x ∈ driftDag.events, x.id.getLsbD 224 = false := by decide
  intro x inX same
  have top := low x inX
  rw [same, Event.setID, epoch, BitVec.getLsbD_append, BitVec.getLsbD_append] at top
  simp at top

/-- An event over both roots, and then the first event of validator 1 again and again. -/
def drafts (n : Nat) : List Event :=
  { lateEvent 0 with parents := [11, 1] } :: List.replicate n (duoEvent 1)

def draft (p : IndexedLachesis Unit) (e : Event) : Except Halt (IndexedLachesis Unit) := do
  let (_, p) ← p.build driftDag.source e
  return p

def unanswered (p : IndexedLachesis Unit) : Bool :=
  (p.lachesis.store.getEpoch.toOption.any fun epoch => epoch = 1) &&
    p.lachesis.world.dagIndexer.forklessCauseCache.evictList.all fun ent =>
      ent.key.1 ≠ ((lateEvent 0).setID (sample (p.uniqueDirtyID + 1))).id

def drifted (p : IndexedLachesis Unit) : Bool :=
  (p.build driftDag.source (lateEvent 0)).toOption.any fun r => r.1.frame = 2 &&
    (r.2.process driftDag.source (lateEvent 2)).toOption.any fun s => s.1 = some .wrongFrame &&
      (s.2.process driftDag.source (lateEvent 1)).toOption.any fun t => t.1 = none

set_option maxRecDepth 4000 in
theorem drift_lives : ∃ p : IndexedLachesis Unit,
    Lives driftDag.source duoValidators driftDag [duoEvent 1, duoFork 11] p ∧
    ((drafts 0).foldlM draft p).toOption.any unanswered = true ∧
    ((drafts 254).foldlM draft p).toOption.any drifted = true := by
  have ready := Lives.genesis (D := driftDag) 1 ⟨100, 100⟩ ⟨1000, 1000, 1000⟩ duoValidators () idleCallbacks
    EventDag.heldBy_source rfl
  have first := ready.accept (e := duoEvent 1) ⟨by decide, by decide⟩ rfl rfl
  have second := first.accept (e := duoFork 11) ⟨by decide, by decide⟩ rfl rfl
  exact ⟨_, second, by decide +kernel, by decide +kernel⟩

theorem drafts_live {L : List Event} {test : IndexedLachesis Unit → Bool} :
    ∀ {es : List Event} {p : IndexedLachesis Unit}, (∀ e ∈ es, e.epoch = 1) →
      Lives driftDag.source duoValidators driftDag L p → (es.foldlM draft p).toOption.any test = true →
      ∃ q, Lives driftDag.source duoValidators driftDag L q ∧ test q = true := by
  intro es
  induction es with
  | nil => exact fun _ lives passes => ⟨_, lives, passes⟩
  | cons e es ih =>
    intro p epochs lives passes
    rw [List.foldlM_cons, draft] at passes
    cases run : p.build driftDag.source e with
    | error halt =>
      rw [run] at passes
      cases passes
    | ok r =>
      rw [run] at passes
      have grown := lives.build (drift_unassigned (epochs e List.mem_cons_self) _) run
      exact ih (fun e later => epochs e (List.mem_cons_of_mem _ later)) grown passes

theorem drafts_epoch (n : Nat) : ∀ e ∈ drafts n, e.epoch = 1 := by
  intro e member
  rcases List.mem_cons.mp member with rfl | again
  · rfl
  · rw [List.eq_of_mem_replicate again]
    rfl

end Drift

/-- The temporary ID of the 256th `Build` is that of the first one, whose event is over a quorum of roots,
and the cache still knows it: the frame that `Build` computes is one that `Process` rejects. -/
theorem build_frame_rejected : ∃ p : IndexedLachesis Unit,
    Lives driftDag.source duoValidators driftDag [duoEvent 1, duoFork 11] p ∧
    Unassigned driftDag (lateEvent 0) (p.uniqueDirtyID + 1) ∧
    ∃ built p' q r, p.build driftDag.source (lateEvent 0) = .ok (built, p') ∧ built.frame = 2 ∧
      p'.process driftDag.source (lateEvent 2) = .ok (some .wrongFrame, q) ∧
      q.process driftDag.source (lateEvent 1) = .ok (none, r) := by
  obtain ⟨start, lives, _, passes⟩ := drift_lives
  obtain ⟨p, lives, drifted⟩ := drafts_live (drafts_epoch 254) lives passes
  obtain ⟨⟨built, p'⟩, run, rest⟩ := yields_of_any drifted
  obtain ⟨frame, rest⟩ := Bool.and_eq_true_iff.mp rest
  obtain ⟨⟨error, q⟩, run', rest⟩ := yields_of_any rest
  obtain ⟨rejected, rest⟩ := Bool.and_eq_true_iff.mp rest
  obtain ⟨⟨error', r⟩, run'', accepted⟩ := yields_of_any rest
  obtain rfl : error = some .wrongFrame := of_decide_eq_true rejected
  obtain rfl : error' = none := of_decide_eq_true accepted
  exact ⟨p, lives, drift_unassigned rfl _, built, p', q, r, run, of_decide_eq_true frame, run', run''⟩

/-- The same event after a single build. -/
theorem frame_acceptance_drafted : ∃ p : IndexedLachesis Unit,
    Lives driftDag.source duoValidators driftDag [duoEvent 1, duoFork 11] p ∧
    Capped [duoEvent 1, duoFork 11, lateEvent 1] ∧ p.Unanswered (lateEvent 0) ∧
    ∃ limit built p', MaxFrame driftDag p.lachesis.store (lateEvent 1) limit ∧
      (∀ error p', p.process driftDag.source (lateEvent 1) = .ok (error, p') →
        (error = none ↔ max (spFrame driftDag (lateEvent 1)) 1 ≤ 1 ∧ 1 ≤ limit)) ∧
      p.build driftDag.source (lateEvent 0) = .ok (built, p') ∧
      built.frame = min limit (spFrame driftDag (lateEvent 1) + 100) := by
  obtain ⟨start, lives, passes, _⟩ := drift_lives
  obtain ⟨p, lives, rest⟩ := drafts_live (drafts_epoch 0) lives passes
  obtain ⟨current, free⟩ := Bool.and_eq_true_iff.mp rest
  obtain ⟨epoch, current, is⟩ := yields_of_any current
  obtain rfl : epoch = 1 := of_decide_eq_true is
  have unanswered : p.Unanswered (lateEvent 0) := fun ent member =>
    of_decide_eq_true (List.all_eq_true.mp free ent member)
  have capped : Capped [duoEvent 1, duoFork 11, lateEvent 1] := fun v =>
    (List.length_filter_le _ _).trans (by decide)
  obtain ⟨limit, _, isMax, accepts, _, builds, _⟩ :=
    frame_acceptance lives (e := lateEvent 1) ⟨by decide, by decide⟩ capped
  obtain ⟨built, p', run, _, frame⟩ := builds (lateEvent 0) ⟨rfl, rfl, rfl⟩ (drift_unassigned rfl _)
    unanswered current
  exact ⟨p, lives, capped, unanswered, limit, built, p', isMax, accepts.processes, run, frame⟩

end Lachesis.Abft
