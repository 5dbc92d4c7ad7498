import Lachesis.Vecfc.IndexRuns
import Lachesis.Library.Triples

/-!
The index of an instance in any run. The vectors are right whatever the number of branches, and the
branches are lines as long as none of the validators has too many. Events under a temporary ID come
and go, and the cache keeps what was answered about them.
-/

namespace Lachesis.Vecfc

open Dag Pos WeightedQuorum Vecengine Simplewlru Simulation Triples

namespace Index

variable {vi : Index} {db : VecDb} {bi : BranchesInfo} {t : Tables}

theorem add_ensures (knows : vi.Knows db bi t) (e : Event) :
    Ensures (vi.add e) fun vi' => ∃ later t' store,
      vi' = { vi with bi := some later, store := store } ∧ vi'.Knows db later t' := by
  intro vi' run
  cases fill : fillEventVectors tables vi.source vi.validators bi t e with
  | error fault =>
    have sim := fillEventVectors_simulates (callbacks_keep vi.store.underlying) vi.source
      vi.validators ⟨knows.shows, rfl⟩ bi e
    have halts := related_error sim fill
    simp [add, initBranchesInfo_knows knows, halts, bind, Except.bind] at run
  | ok filled =>
    obtain ⟨later, t'⟩ := filled
    obtain ⟨store, run', knows'⟩ := add_knows knows fill
    rw [run, Except.ok.injEq] at run'
    exact ⟨later, t', store, run', run' ▸ knows'⟩

theorem forklessCause_reads {vv : Validators} {a b : EventID} {res : Bool} {t' : Tables}
    (run : Vecfc.forklessCause tables vv bi t a b = .ok (res, t')) : t' = t := by
  unfold Vecfc.forklessCause at run
  split at run
  · cases run
  · next vec t₁ before =>
    obtain rfl : t = t₁ := congrArg Prod.snd before
    cases caught : observedCheater tables vv bi t vec b with
    | error fault =>
      rw [caught] at run
      cases run
    | ok caught' =>
      rw [caught] at run
      cases caught' with
      | true =>
        cases run
        rfl
      | false =>
        dsimp only [bind, Except.bind] at run
        rw [if_neg Bool.false_ne_true] at run
        split at run
        · cases run
        · next after t₂ lowest =>
          obtain rfl : t = t₂ := congrArg Prod.snd lowest
          cases run
          rfl

theorem forklessCause_ensures (knows : vi.Knows db bi t) (a b : EventID) :
    Ensures (vi.forklessCause a b) fun r => r.2.Knows db bi t ∧ vi.Agrees r.2 ∧
      ∀ p, vi.forklessCauseCache.Holds p →
        (Vecfc.forklessCause tables vi.validators bi t a b = .ok (r.1, t) → p (a, b) r.1) →
        r.2.forklessCauseCache.Holds p := by
  rintro ⟨res, vi'⟩ run
  cases cached : (vi.forklessCauseCache.get (a, b)).1 with
  | some res' =>
    obtain ⟨found, cache, rfl, hit⟩ : ∃ found cache, found = some res' ∧
        vi.forklessCauseCache.get (a, b) = (found, cache) := ⟨_, _, cached, rfl⟩
    simp only [forklessCause, hit, Except.ok.injEq, Prod.mk.injEq] at run
    obtain ⟨rfl, rfl⟩ := run
    refine ⟨⟨knows.shows, knows.persisted, knows.info, knows.unwritten⟩, ⟨rfl, rfl, id⟩,
      fun p holds _ => ?_⟩
    have kept := (Cache.get_holds holds (a, b)).1
    rwa [hit] at kept
  | none =>
    cases answer : Vecfc.forklessCause tables vi.validators bi t a b with
    | error fault =>
      obtain ⟨found, cache, rfl, miss⟩ : ∃ found cache, found = none ∧
          vi.forklessCauseCache.get (a, b) = (found, cache) := ⟨_, _, cached, rfl⟩
      have knows' : ({ vi with forklessCauseCache := cache } : Index).Knows db bi t :=
        ⟨knows.shows, knows.persisted, knows.info, knows.unwritten⟩
      have sim := forklessCause_simulates (callbacks_keep vi.store.underlying) vi.validators
        ⟨knows.shows, rfl⟩ bi a b
      have halts := related_error sim answer
      simp [forklessCause, miss, initBranchesInfo_knows knows', halts, bind, Except.bind] at run
    | ok answered =>
      obtain ⟨res', t'⟩ := answered
      obtain rfl := forklessCause_reads answer
      obtain ⟨vi'', run', knows', agrees, holds⟩ := forklessCause_knows knows answer
        (by simp [cached])
      rw [run, Except.ok.injEq, Prod.mk.injEq] at run'
      obtain ⟨rfl, rfl⟩ := run'
      exact ⟨knows', agrees, fun p held fits => holds p held (fits rfl)⟩

end Index

/-- None of the validators has more branches among the events than the index keeps apart. -/
def Capped (L : List Event) : Prop := ∀ v, (selfTips L v).length ≤ maxBranchesPerValidator

section Notions

variable {vv : Validators} (D : EventDag vv)

/-- The answer is right if the events of `base` and the first of the two are within the cap. -/
def Warranted (base : List Event) (pair : EventID × EventID) (res : Bool) : Prop :=
  ∀ x ∈ D.events, ∀ y ∈ D.events, x.id = pair.1 → y.id = pair.2 →
    ∀ K, D.Received K → (∀ z ∈ base, z ∈ K) → x ∈ K → Capped K →
      (res = true ↔ ForklessCaused D.events vv x y)

structure Sketches (bi : BranchesInfo) (t : Tables) (L : List Event) : Prop where
  spec : Spec D bi t L
  chains : Capped L → Chains D bi t.branch L

/-- The index over a database with the events of `kept`, whatever was added since. -/
structure Based (kept base : List Event) (vi : Index) : Prop where
  before : D.Received kept
  group : vi.validators = vv
  source : D.HeldBy vi.source
  knows : ∃ bi t, vi.Knows vi.persisted bi t
  flushed : ∃ bi t, vi.persisted.Stores vv bi t ∧ Sketches D bi t kept
  answers : vi.forklessCauseCache.Holds (Warranted D base)

/-- The events of `L` have been added to the index. -/
structure Stays (kept base L : List Event) (vi : Index) : Prop where
  based : Based D kept base vi
  received : D.Received L
  state : ∃ bi t, vi.Knows vi.persisted bi t ∧ Sketches D bi t L

end Notions

variable {vv : Validators} {D : EventDag vv} {kept base L : List Event} {vi : Index} {db : VecDb}

theorem Capped.of_subset {K : List Event} (capped : Capped K) (received : D.Received L)
    (received' : D.Received K) (part : ∀ x ∈ L, x ∈ K) : Capped L := by
  let whole : EventDag vv := ⟨K, received'.ordered, fun e inE => by
    obtain ⟨listed, first, next⟩ := D.valid e (received'.inside e inE)
    refine ⟨listed, first, fun p self => ?_⟩
    obtain ⟨x, inX, rfl, rest⟩ := next p self
    exact ⟨x, received'.parent inE (EventDag.SelfParent.parent ⟨inX, self⟩), rfl, rest⟩⟩
  intro v
  exact (EventDag.selfTips_le (D := whole) ⟨received.ordered, part⟩ v).trans (capped v)

variable {base' : List Event} {x : Event}

theorem Warranted.mono {pair : EventID × EventID} {res : Bool}
    (warranted : Warranted D base pair res) (part : ∀ z ∈ base, z ∈ base') :
    Warranted D base' pair res :=
  fun x inX y inY first second K received all =>
    warranted x inX y inY first second K received fun z inZ => all z (part z inZ)

theorem Stays.widen (stays : Stays D kept base L vi) (part : ∀ z ∈ base, z ∈ base') :
    Stays D kept base' L vi :=
  ⟨{ stays.based with
      answers := fun ent member => (stays.based.answers ent member).mono part },
    stays.received, stays.state⟩

theorem empty_sketches : Sketches D (newInitialBranchesInfo vv) noTables [] :=
  ⟨noTables_spec, fun _ => noTables_chains⟩

theorem reset_stays {source : EventSource} (held : D.HeldBy source) (received : D.Received L)
    (holds : ∃ bi t, db.Stores vv bi t ∧ Sketches D bi t L) (vi : Index) :
    Stays D L L L (vi.reset vv db source) := by
  obtain ⟨bi, t, stores, sketches⟩ := holds
  have knows := Index.reset_knows vi source stores
  exact ⟨⟨received, rfl, held, ⟨bi, t, knows⟩, ⟨bi, t, stores, sketches⟩, Cache.purge_holds⟩,
    received, bi, t, knows, sketches⟩

theorem Sketches.fill {bi : BranchesInfo} {t : Tables} (sketches : Sketches D bi t L)
    {source : EventSource} (held : D.HeldBy source) {e : Event} (received : D.Received (L ++ [e])) :
    ∃ later t', fillEventVectors tables source vv bi t e = .ok (later, t') ∧
      Sketches D later t' (L ++ [e]) := by
  obtain ⟨b, later, t', fill, choice, _, branch, _, spec⟩ :=
    fillEventVectors_spec held sketches.spec received
  refine ⟨later, t', fill, spec, fun capped => ?_⟩
  have below := capped.of_subset received.snoc.1 received fun x inX => List.mem_append_left _ inX
  rw [branch]
  exact chains_step sketches.spec (sketches.chains below) received choice (capped e.creator)

theorem add_stays (stays : Stays D kept base L vi) {e : Event} (received : D.Received (L ++ [e])) :
    ∃ vi', vi.add e = .ok vi' ∧ Stays D kept base (L ++ [e]) vi' ∧
      vi'.persisted = vi.persisted := by
  obtain ⟨bi, t, knows, sketches⟩ := stays.state
  obtain ⟨later, t', fill, sketches'⟩ := sketches.fill stays.based.source received
  rw [← stays.based.group] at fill
  obtain ⟨store, run, knows'⟩ := Index.add_knows knows fill
  have same := knows'.persisted
  rw [← same] at knows'
  exact ⟨_, run, ⟨⟨stays.based.before, stays.based.group, stays.based.source, ⟨_, _, knows'⟩,
    same ▸ stays.based.flushed, stays.based.answers⟩, received, later, t', knows', sketches'⟩, same⟩

theorem flush_stays (stays : Stays D kept base L vi) : Stays D L base L vi.flush := by
  obtain ⟨bi, t, knows, sketches⟩ := stays.state
  obtain ⟨flushed, stores⟩ := Index.flush_knows knows
  rw [stays.based.group] at stores
  exact ⟨⟨stays.received, stays.based.group, stays.based.source, ⟨bi, t, flushed⟩,
    ⟨bi, t, stores, sketches⟩, stays.based.answers⟩, stays.received, bi, t, flushed, sketches⟩

theorem drop_stays (based : Based D kept base vi) :
    Stays D kept base kept vi.dropNotFlushed ∧ vi.dropNotFlushed.persisted = vi.persisted := by
  obtain ⟨bi', t', knows⟩ := based.knows
  obtain ⟨bi, t, stores, sketches⟩ := based.flushed
  have dropped := Index.dropNotFlushed_knows knows (based.group.symm ▸ stores)
  have same := dropped.persisted
  obtain ⟨group, source, answers⟩ := Index.dropNotFlushed_rest vi
  rw [← same] at dropped
  exact ⟨⟨⟨based.before, group.trans based.group, source ▸ based.source, ⟨bi, t, dropped⟩,
    ⟨bi, t, same ▸ stores, sketches⟩, answers ▸ based.answers⟩, based.before, bi, t, dropped,
    sketches⟩, same⟩

theorem Based.agrees {vi' : Index} {bi : BranchesInfo} {t : Tables} (based : Based D kept base vi)
    (agrees : vi.Agrees vi') (knows : vi'.Knows vi.persisted bi t)
    (answers : vi'.forklessCauseCache.Holds (Warranted D base)) : Based D kept base vi' := by
  have same := knows.persisted
  rw [← same] at knows
  exact ⟨based.before, agrees.validators.trans based.group, agrees.source ▸ based.source,
    ⟨bi, t, knows⟩, same ▸ based.flushed, answers⟩

theorem add_based (based : Based D kept base vi) (e : Event) :
    Ensures (vi.add e) fun vi' => Based D kept base vi' ∧ vi'.persisted = vi.persisted := by
  obtain ⟨bi, t, knows⟩ := based.knows
  refine ensures_mono (Index.add_ensures knows e) ?_
  rintro _ ⟨later, t', store, rfl, knows'⟩
  exact ⟨based.agrees ⟨rfl, rfl, by simp⟩ knows' based.answers, knows'.persisted⟩

theorem forklessCause_based (based : Based D kept base vi) {a b : EventID}
    (foreign : ∀ x ∈ D.events, x.id ≠ a) : Ensures (vi.forklessCause a b) fun r =>
      Based D kept base r.2 ∧ r.2.persisted = vi.persisted := by
  obtain ⟨bi, t, knows⟩ := based.knows
  refine ensures_mono (Index.forklessCause_ensures knows a b) ?_
  rintro ⟨res, vi'⟩ ⟨knows', agrees, holds⟩
  refine ⟨based.agrees agrees knows' (holds _ based.answers fun _ => ?_), knows'.persisted⟩
  exact fun x inX _ _ same => absurd same (foreign x inX)

theorem forklessCause_stays (stays : Stays D kept base L vi) {y : Event} (inX : x ∈ L) (inY : y ∈ L)
    (part : ∀ z ∈ base, z ∈ L)
    (enough : ∀ K, D.Received K → (∀ z ∈ base, z ∈ K) → x ∈ K → ∀ z ∈ L, z ∈ K) :
    ∃ res vi', vi.forklessCause x.id y.id = .ok (res, vi') ∧ Stays D kept base L vi' ∧
      vi'.persisted = vi.persisted ∧
      (Capped L → (res = true ↔ ForklessCaused D.events vv x y)) := by
  obtain ⟨bi, t, knows, sketches⟩ := stays.state
  have received := stays.received
  obtain ⟨res, _, answer, _⟩ := forklessCause_bridges sketches.spec received inX inY
  have right : Capped L → (res = true ↔ ForklessCaused D.events vv x y) := by
    intro capped
    obtain ⟨res', answer', right⟩ :=
      forklessCause_tables sketches.spec (sketches.chains capped) received inX inY
    cases answer.symm.trans answer'
    exact right
  rw [← stays.based.group] at answer
  have fits : Warranted D base (x.id, y.id) res := by
    intro x' inX' y' inY' first second K receivedK all inK capped
    obtain rfl := EventDag.ids inX' (received.inside x inX) first
    obtain rfl := EventDag.ids inY' (received.inside y inY) second
    exact right (capped.of_subset received receivedK (enough K receivedK all inK))
  -- a cached answer is returned as it is; it may differ from the tables' beyond the cap
  cases cached : (vi.forklessCauseCache.get (x.id, y.id)).1 with
  | some res' =>
    obtain ⟨kept', hit⟩ := Cache.get_holds stays.based.answers (x.id, y.id)
    have warranted := hit res' cached
    obtain ⟨found, cache, rfl, got⟩ : ∃ found cache, found = some res' ∧
        vi.forklessCauseCache.get (x.id, y.id) = (found, cache) := ⟨_, _, cached, rfl⟩
    rw [got] at kept'
    have knows' : ({ vi with forklessCauseCache := cache } : Index).Knows vi.persisted bi t :=
      ⟨knows.shows, knows.persisted, knows.info, knows.unwritten⟩
    refine ⟨res', { vi with forklessCauseCache := cache }, by simp [Index.forklessCause, got],
      ⟨stays.based.agrees ⟨rfl, rfl, id⟩ knows' kept', received, bi, t, knows', sketches⟩, rfl,
      fun capped => ?_⟩
    exact warranted x (received.inside x inX) y (received.inside y inY) rfl rfl L received part inX
      capped
  | none =>
    obtain ⟨vi', run, knows', agrees, holds⟩ := Index.forklessCause_knows knows answer
      (by simp [cached])
    have same := knows'.persisted
    exact ⟨res, vi', run, ⟨stays.based.agrees agrees knows' (holds _ stays.based.answers fits),
      received, bi, t, same.symm ▸ knows', sketches⟩, same, right⟩

section Drafts

variable {e draft : Event}

/-- What `fillEventVectors` computes before it stores anything under the event's ID. -/
def drafted (source : EventSource) (vv : Validators) (bi : BranchesInfo) (t : Tables) (e : Event) :
    Except Halt (Nat × BranchesInfo × HighestBeforeSeq × Tables) := do
  let (branchID, _, later) ← fillGlobalBranchID tables vv bi t e (vv.getIdx e.creator)
  let (parentsVecs, t) ← loadParents tables e.parents t
  let before ← collectParents later.width parentsVecs
    ((HighestBeforeSeq.new bi.width).initWithEvent branchID e)
  let t ← dfsSubgraph tables source branchID e t
  return (branchID, later, highestBefore vv later before, t)

theorem fillEventVectors_drafted (source : EventSource) (bi : BranchesInfo) (t : Tables) (e : Event) :
    fillEventVectors tables source vv bi t e = do
      let (branchID, later, before, t) ← drafted source vv bi t e
      let after := (LowestAfterSeq.new bi.width).initWithEvent branchID e
      return (later, ⟨Function.update t.branch e.id (some branchID),
        Function.update t.before e.id (some before), Function.update t.after e.id (some after)⟩) := by
  simp only [fillEventVectors, drafted, bind_assoc, pure_bind]
  rfl

theorem fillEventVectors_alike {source : EventSource} {bi later : BranchesInfo} {t t' : Tables}
    (same : drafted source vv bi t draft = drafted source vv bi t e)
    (fill : fillEventVectors tables source vv bi t e = .ok (later, t')) :
    ∃ t'', fillEventVectors tables source vv bi t draft = .ok (later, t'') ∧
      t''.before draft.id = t'.before e.id ∧ ∀ id, id ≠ e.id → id ≠ draft.id →
        t''.after id = t'.after id ∧ t''.branch id = t'.branch id := by
  rw [fillEventVectors_drafted] at fill ⊢
  rw [same]
  cases made : drafted source vv bi t e with
  | error fault =>
    rw [made] at fill
    cases fill
  | ok made' =>
    rw [made] at fill
    cases fill
    exact ⟨_, rfl, by simp, fun id other other' => by simp [other, other']⟩

/-- The vectors of `e` stand under the ID of `draft`, and what is cached about it is right. -/
structure Drafts (D : EventDag vv) (e draft : Event) (L : List Event) (vi : Index) : Prop where
  group : vi.validators = vv
  state : ∃ bi t t', vi.Knows vi.persisted bi t' ∧ Sketches D bi t (L ++ [e]) ∧
    t'.before draft.id = t.before e.id ∧
    ∀ x ∈ L, t'.after x.id = t.after x.id ∧ t'.branch x.id = t.branch x.id
  answers : vi.forklessCauseCache.Holds fun pair res => pair.1 = draft.id →
    ∀ x ∈ L, pair.2 = x.id → (res = true ↔ ForklessCaused D.events vv e x)

theorem add_drafts (stays : Stays D kept base L vi) (received : D.Received (L ++ [e]))
    (creator : draft.creator = e.creator) (seq : draft.seq = e.seq)
    (parents : draft.parents = e.parents) (foreign : ∀ x ∈ L, x.id ≠ draft.id)
    (unanswered : vi.forklessCauseCache.Holds fun pair _ => pair.1 ≠ draft.id) :
    ∃ vi', vi.add draft = .ok vi' ∧ Drafts D e draft L vi' ∧ vi'.persisted = vi.persisted := by
  obtain ⟨bi, t, knows, sketches⟩ := stays.state
  obtain ⟨later, t', fill, sketches'⟩ := sketches.fill stays.based.source received
  have same : drafted vi.source vv bi t draft = drafted vi.source vv bi t e := by
    cases draft
    cases e
    cases creator
    cases seq
    cases parents
    rfl
  obtain ⟨t'', fill', before, others⟩ := fillEventVectors_alike same fill
  rw [← stays.based.group] at fill'
  obtain ⟨store, run, knows'⟩ := Index.add_knows knows fill'
  have kept := knows'.persisted
  rw [← kept] at knows'
  have fresh := (parentsFirst_snoc.mp received.ordered).2.2
  exact ⟨_, run, ⟨stays.based.group, ⟨later, t', t'', knows', sketches', before,
    fun x inX => others x.id (fresh x inX) (foreign x inX)⟩,
    fun ent member own => absurd own (unanswered ent member)⟩, kept⟩

theorem forklessCause_drafts (drafts : Drafts D e draft L vi) (received : D.Received (L ++ [e]))
    (capped : Capped (L ++ [e])) (inX : x ∈ L) :
    ∃ res vi', vi.forklessCause draft.id x.id = .ok (res, vi') ∧ Drafts D e draft L vi' ∧
      vi'.persisted = vi.persisted ∧ (res = true ↔ ForklessCaused D.events vv e x) := by
  obtain ⟨bi, t, t', knows, sketches, before, others⟩ := drafts.state
  obtain ⟨res, answer, right⟩ := forklessCause_tables sketches.spec (sketches.chains capped) received
    (show e ∈ L ++ [e] by simp) (List.mem_append_left [e] inX)
  have answer' : Vecfc.forklessCause tables vi.validators bi t' draft.id x.id = .ok (res, t') := by
    obtain ⟨after, branch⟩ := others x inX
    obtain ⟨_, _, stored, _⟩ := sketches.spec.before e (by simp)
    obtain ⟨_, lowest, _⟩ := sketches.spec.after x (List.mem_append_left _ inX)
    obtain ⟨_, on, _⟩ := sketches.spec.branch x (List.mem_append_left _ inX)
    simp only [Vecfc.forklessCause, observedCheater, getEventBranchID, tables, drafts.group, before,
      after, branch, stored, lowest, on, bind, Except.bind, pure, Except.pure] at answer ⊢
    generalize (if bi.atLeastOneFork vv = true then _ else Except.ok false : Except Halt Bool) = caught
      at answer ⊢
    rcases caught with fault | _ | _
    · cases answer
    · cases answer
      rfl
    · cases answer
      rfl
  obtain ⟨vi', run, knows', agrees, holds⟩ := Index.forklessCause_knows knows answer' (by
    intro cached hit
    have told := (Cache.get_holds drafts.answers (draft.id, x.id)).2 cached hit rfl x inX rfl
    rw [Bool.eq_iff_iff, told, right])
  have kept := knows'.persisted
  rw [← kept] at knows'
  refine ⟨res, vi', run, ⟨agrees.validators.trans drafts.group,
    ⟨bi, t, t', knows', sketches, before, others⟩, holds _ drafts.answers ?_⟩, kept, right⟩
  intro _ y inY same
  obtain rfl := EventDag.ids (received.snoc.1.inside x inX) (received.snoc.1.inside y inY) same
  exact right

end Drafts

theorem getMergedHighestBefore_stays (stays : Stays D kept base L vi) (inX : x ∈ L) :
    ∃ vec vi', vi.getMergedHighestBefore x.id = .ok (vec, vi') ∧ Stays D kept base L vi' ∧
      vi'.persisted = vi.persisted ∧ (Capped L → ∀ v ∈ vv.sortedIDs,
        (vec.isForkDetected (vv.getIdx v) = true ↔ ForkSeen D.events x v)) := by
  obtain ⟨bi, t, knows, sketches⟩ := stays.state
  obtain ⟨vec, answer, merged⟩ := getMergedHighestBefore_tables sketches.spec stays.received inX
  rw [← stays.based.group] at answer
  obtain ⟨vi', run, knows', agrees, cache⟩ := Index.getMergedHighestBefore_knows knows answer
  have same := knows'.persisted
  refine ⟨vec, vi', run, ⟨stays.based.agrees agrees knows' (cache ▸ stays.based.answers),
    stays.received, bi, t, same.symm ▸ knows', sketches⟩, same, fun capped v listed => ?_⟩
  rw [(merged _ (getIdx_lt listed)).1]
  exact clash_iff_forkSeen sketches.spec (sketches.chains capped) stays.received inX listed

end Lachesis.Vecfc
