import Lachesis.Abft.Lachesis
import Lachesis.Vecfc.IndexRuns

/-!
The merged clock of an event and the cheaters of a block. The index may be read at any time: before
or after a flush, after events were dropped again, and after later events were added.
-/

namespace Lachesis.Abft

open Dag Pos Vecengine Vecfc

variable {vv : Validators} (D : EventDag vv)

/-- The states of an index that has worked in the events of `L` and flushed those of `kept`, under
any sequence of calls that return. -/
inductive Worked (cfg : IndexConfig) : (kept L : List Event) → Index → Prop where
  | start {source : EventSource} (held : D.HeldBy source) :
      Worked cfg [] [] (Index.new cfg vv .empty source)
  | add {kept L : List Event} {vi vi' : Index} {e : Event} (before : Worked cfg kept L vi)
      (received : D.Received (L ++ [e])) (run : vi.add e = .ok vi') :
      Worked cfg kept (L ++ [e]) vi'
  | flush {kept L : List Event} {vi : Index} (before : Worked cfg kept L vi) :
      Worked cfg L L vi.flush
  | drop {kept L : List Event} {vi : Index} (before : Worked cfg kept L vi) :
      Worked cfg kept kept vi.dropNotFlushed
  | ask {kept L : List Event} {vi vi' : Index} {a b : Event} {res : Bool}
      (before : Worked cfg kept L vi) (inA : a ∈ L) (inB : b ∈ L)
      (run : vi.forklessCause a.id b.id = .ok (res, vi')) : Worked cfg kept L vi'
  | merge {kept L : List Event} {vi vi' : Index} {a : Event} {vec : HighestBeforeSeq}
      (before : Worked cfg kept L vi) (inA : a ∈ L)
      (run : vi.getMergedHighestBefore a.id = .ok (vec, vi')) : Worked cfg kept L vi'

variable {D} {kept L : List Event} {vi : Index}

theorem worked_inv (cap : WithinCap D) {cfg : IndexConfig} (worked : Worked D cfg kept L vi) :
    IndexInv D kept L vi ∧ D.Received kept := by
  induction worked with
  | start held => exact ⟨new_inv cfg held received_nil empty_holds, received_nil⟩
  | add _ received run ih =>
    obtain ⟨vi', run', inv⟩ := add_inv cap ih.1 received
    cases run.symm.trans run'
    exact ⟨inv, ih.2⟩
  | flush _ ih => exact ⟨flush_inv ih.1, ih.1.received⟩
  | drop _ ih => exact ⟨drop_inv ih.2 ih.1, ih.2⟩
  | ask _ inA inB run ih =>
    obtain ⟨res, vi', run', inv, _⟩ := forklessCause_inv ih.1 inA inB
    cases run.symm.trans run'
    exact ⟨inv, ih.2⟩
  | merge _ inA run ih =>
    obtain ⟨vec, vi', run', inv, _⟩ := getMergedHighestBefore_inv ih.1 inA
    cases run.symm.trans run'
    exact ⟨inv, ih.2⟩

theorem Worked.kept_subset {cfg : IndexConfig} (worked : Worked D cfg kept L vi) : kept ⊆ L := by
  induction worked with
  | start => exact List.nil_subset _
  | add _ _ _ ih => exact fun x member => List.mem_append_left _ (ih member)
  | flush | drop => exact fun x member => member
  | ask _ _ _ _ ih => exact ih
  | merge _ _ _ ih => exact ih

/-- An index that is opened over what another one has flushed, in the middle of its work, goes on from
there and answers about the flushed events as the other does. -/
theorem reopened_alike (cap : WithinCap D) {cfg : IndexConfig} (worked : Worked D cfg kept L vi)
    (cfg' : IndexConfig) {source : EventSource} (held : D.HeldBy source) :
    (∀ e, D.Received (kept ++ [e]) →
      ∃ next, (Index.new cfg' vv vi.persisted source).add e = .ok next) ∧
    ∀ a ∈ kept, ∀ b ∈ kept, ∃ res left left', vi.forklessCause a.id b.id = .ok (res, left) ∧
      (Index.new cfg' vv vi.persisted source).forklessCause a.id b.id = .ok (res, left') := by
  obtain ⟨inv, received⟩ := worked_inv cap worked
  have opened := new_inv cfg' held received inv.flushed
  refine ⟨fun e more => ?_, fun a inA b inB => ?_⟩
  · obtain ⟨next, run, _⟩ := add_inv cap opened more
    exact ⟨next, run⟩
  · obtain ⟨res, left, run, _, right, _⟩ :=
      forklessCause_inv inv (worked.kept_subset inA) (worked.kept_subset inB)
    obtain ⟨res', left', run', _, right', _⟩ := forklessCause_inv opened inA inB
    have same : res = res' := Bool.eq_iff_iff.mpr (right.trans right'.symm)
    exact ⟨res, left, left', run, same ▸ run'⟩

theorem forked_worked : ∀ {L : List Event}, forkedDag.Received L →
    ∃ vi, Worked forkedDag ⟨2, 3, 4⟩ [] L vi := by
  intro L
  induction L using List.reverseRecOn with
  | nil => exact fun _ => ⟨_, .start EventDag.heldBy_source⟩
  | append_singleton L e ih =>
    intro received
    obtain ⟨vi, worked⟩ := ih received.snoc.1
    obtain ⟨vi', run, _⟩ := add_inv forkedDag_cap (worked_inv forkedDag_cap worked).1 received
    exact ⟨vi', .add worked received run⟩

/-- The index is opened again before the last event, and takes it. -/
theorem reopened_alike_forked : ∃ vi, Worked forkedDag ⟨2, 3, 4⟩ (forkedEvents.take 4)
    (forkedEvents.take 4) vi ∧
    (∃ next, (Index.new ⟨5, 6, 7⟩ fourValidators vi.persisted forkedDag.source).add
      (firstEvent 3 31 [21#256]) = .ok next) ∧
    ∃ res left left', vi.forklessCause 21#256 41#256 = .ok (res, left) ∧
      (Index.new ⟨5, 6, 7⟩ fourValidators vi.persisted forkedDag.source).forklessCause 21#256 41#256 =
        .ok (res, left') := by
  obtain ⟨vi, worked⟩ := forked_worked (L := forkedEvents.take 4) ⟨by decide, by decide⟩
  obtain ⟨adds, asks⟩ := reopened_alike forkedDag_cap worked.flush ⟨5, 6, 7⟩ EventDag.heldBy_source
  exact ⟨_, worked.flush, adds _ ⟨by decide, by decide⟩,
    asks (firstEvent 2 21 [11#256]) (by decide) (firstEvent 4 41 []) (by decide)⟩

theorem cheaters_eq_filter (vec : HighestBeforeSeq) :
    cheaters vv vec = vv.sortedIDs.filter fun v => vec.isForkDetected (vv.getIdx v) := by
  have own : cheaters vv vec = (vv.sortedIDs.zipIdx.filter
      ((fun v => vec.isForkDetected (vv.getIdx v)) ∘ Prod.fst)).map Prod.fst := by
    refine congrArg _ (List.filter_congr fun x member => ?_)
    rw [Function.comp_apply, getIdx_of_getElem (List.mem_zipIdx_iff_getElem?.mp member)]
  rw [own, ← List.filter_map, List.zipIdx_map_fst]

open scoped Classical in
noncomputable def forkersSeen (D : EventDag vv) (a : Event) : List ValidatorID :=
  vv.sortedIDs.filter fun v => decide (ForkSeen D.events a v)

/-- The merged clock of an event marks the validators of which it observes a fork and has the highest
observed sequence number of the others; a block's cheaters are those its Atropos marks. -/
theorem mergedClock_exact (cap : WithinCap D) {cfg : IndexConfig} (worked : Worked D cfg kept L vi)
    {a : Event} (inA : a ∈ L) :
    ∃ vec vi', vi.getMergedHighestBefore a.id = .ok (vec, vi') ∧
      (∀ v ∈ vv.sortedIDs, (vec.isForkDetected (vv.getIdx v) = true ↔ ForkSeen D.events a v) ∧
        (¬ ForkSeen D.events a v → IsGreatest
          (insert 0 {n | ∃ x, Dag.Observes D.events a x ∧ x.creator = v ∧ x.seq = n})
          (vec.seq (vv.getIdx v)))) ∧
      cheaters vv vec = forkersSeen D a ∧
      ∀ (App : Type) (input : EventSource) (store : Store) (w : World App) (frame : Nat) next marks w',
        w.dagIndexer = vi → store.getValidators = .ok vv → w.callback.beginBlock ≠ none →
        applyAtropos input store w frame a.id = .ok (next, marks, w') →
        ∃ confirmed, w'.blocks = w.blocks ++ [⟨frame, ⟨a.id, forkersSeen D a⟩, confirmed⟩] := by
  obtain ⟨vec, vi', run, _, entries, _⟩ := getMergedHighestBefore_inv (worked_inv cap worked).1 inA
  have same : cheaters vv vec = forkersSeen D a := by
    classical
    rw [cheaters_eq_filter, forkersSeen]
    refine List.filter_congr fun v listed => ?_
    rw [Bool.eq_iff_iff, (entries v listed).1, decide_eq_true_eq]
  refine ⟨vec, vi', run, entries, same, ?_⟩
  intro App input store w frame next marks w' own group callback applied
  rw [applyAtropos, own, run, group] at applied
  cases opened : store.epochTable with
  | error halt => simp [opened, bind, Except.bind] at applied
  | ok db =>
    cases begins : w.callback.beginBlock with
    | none => exact absurd begins callback
    | some beginBlock =>
      simp only [bind, Except.bind, opened, begins, pure, Except.pure] at applied
      split at applied
      · cases applied
      · cases applied
        exact ⟨_, by rw [same]⟩

/-- Validator 3 observes one side of the fork of validator 4, and an index that has not flushed it
says so. -/
theorem mergedClock_exact_forked : ∃ vi vec vi', Worked forkedDag ⟨2, 3, 4⟩ [] forkedEvents vi ∧
    vi.getMergedHighestBefore 31#256 = .ok (vec, vi') ∧
    cheaters fourValidators vec = forkersSeen forkedDag (firstEvent 3 31 [21#256]) := by
  obtain ⟨vi, worked⟩ := forked_worked EventDag.received_events
  have asked : firstEvent 3 31 [21#256] ∈ forkedEvents := by decide
  obtain ⟨vec, vi', run, _, same, _⟩ := mergedClock_exact forkedDag_cap worked asked
  exact ⟨vi, vec, vi', worked, run, same⟩

end Lachesis.Abft
