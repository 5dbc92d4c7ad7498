import Lachesis.Vecengine.Checked
import Lachesis.Vecfc.BranchBooks

/-!
What `Add` says about an inconsistent database. The error of `fillGlobalBranchID` is lost, and a
missing vector is a nil pointer inside an interface that is not nil, so `Add` returns no error at
all: it goes on with branch 0, or it panics.
-/

namespace Lachesis.Vecfc

open Dag Pos Vecengine Simplewlru Triples

namespace Index

/-- `Add` with the error it returns, and with the panics of arrays that do not agree. -/
def addChecked (vi : Index) (e : Event) : Except Halt (Option AddError × Index) := do
  let (bi, vi) := vi.initBranchesInfo
  let (err, bi, store) ←
    fillEventVectorsChecked VecStore.callbacks vi.source vi.validators bi vi.store e
  .ok (err, { vi with bi := some bi, store := store })

def ReportsBranch (vi : Index) (e : Event) : Prop :=
  ∃ b err bi, fillGlobalBranchIDChecked VecStore.callbacks vi.validators vi.initBranchesInfo.1
    vi.store e (vi.validators.getIdx e.creator) = .ok (b, some err, bi)

def MissesParent (vi : Index) (e : Event) : Prop :=
  ∃ p ∈ e.parents, (vi.store.getHighestBefore p).1 = none

/-- `Add` returns an error, and nothing about the event is stored. -/
def Refuses (vi : Index) (e : Event) : Prop :=
  ∃ err vi', vi.addChecked e = .ok (some err, vi') ∧
    vi'.store.eventBranch = vi.store.eventBranch ∧
    vi'.store.highestBeforeSeq = vi.store.highestBeforeSeq ∧
    vi'.store.lowestAfterSeq = vi.store.lowestAfterSeq

def SaneLengths (vi : Index) : Prop :=
  vi.initBranchesInfo.1.branchIDCreatorIdxs.length = vi.initBranchesInfo.1.branchIDLastSeq.length ∧
    vi.validators.len ≤ vi.initBranchesInfo.1.branchIDCreatorIdxs.length

variable {vi : Index} {e : Event}

theorem addChecked_none : Ensures (vi.addChecked e) fun r => r.1 = none := by
  unfold addChecked
  refine ensures_bind (fillEventVectorsChecked_none _ e) fun r none_ => ensures_ok ?_
  exact none_

theorem not_refuses : ¬ vi.Refuses e := by
  rintro ⟨err, vi', run, _⟩
  cases addChecked_none _ run

theorem reportsBranch_of_insane (insane : ¬ vi.SaneLengths) : vi.ReportsBranch e := by
  refine ⟨0, .inconsistentLen, vi.initBranchesInfo.1, ?_⟩
  have mismatch : vi.initBranchesInfo.1.branchIDCreatorIdxs.length ≠
        vi.initBranchesInfo.1.branchIDLastSeq.length ∨
      vi.initBranchesInfo.1.branchIDCreatorIdxs.length < vi.validators.len := by
    by_contra sane
    rw [not_or, not_not, not_lt] at sane
    exact insane sane
  unfold fillGlobalBranchIDChecked
  exact if_pos mismatch

theorem not_reportsBranch (sane : vi.SaneLengths) : ¬ vi.ReportsBranch e := by
  rintro ⟨b, err, bi, run⟩
  have quiet := fillGlobalBranchIDChecked_none vi.store e (vi.validators.getIdx e.creator)
    (not_or.mpr ⟨not_not.mpr sane.1, not_lt.mpr sane.2⟩) _ run
  cases quiet

/-- In the states that an index reaches, `add` is all there is to say. -/
theorem addChecked_eq_add {vv : Validators} {D : EventDag vv} {s : Session} (sound : s.Sound D)
    {e : Event} (received : D.Received (s.added ++ [e])) :
    s.index.addChecked e = (s.index.add e).map fun vi => (none, vi) := by
  obtain ⟨bi, t, knows, spec, _⟩ := sound.state
  have self : SelfKnown VecStore.callbacks bi s.index.store e (vv.getIdx e.creator) := by
    intro p b isParent read
    refine (selfBranch_known spec received).2 b ?_
    rw [selfBranch, isParent]
    exact (knows.shows.branch p).symm.trans read
  have fill : fillEventVectorsChecked VecStore.callbacks s.index.source vv bi s.index.store e = _ :=
    fillEventVectorsChecked_eq spec.consistent (D.valid e received.snoc.2.1).listed self
  unfold addChecked add
  rw [initBranchesInfo_knows knows]
  dsimp only
  rw [sound.group, fill]
  cases fillEventVectors VecStore.callbacks s.index.source vv bi s.index.store e <;> rfl

/-- `Add` reports what is wrong just if nothing is: it never returns an error. -/
theorem inconsistencies_absorbed (vi : Index) (e : Event) :
    (vi.ReportsBranch e ∨ vi.MissesParent e → vi.Refuses e) ↔
      vi.SaneLengths ∧ ∀ p ∈ e.parents, (vi.store.getHighestBefore p).1.isSome := by
  constructor
  · intro refuses
    refine ⟨by_contra fun insane => not_refuses (refuses (.inl (reportsBranch_of_insane insane))),
      fun p parent => Option.isSome_iff_ne_none.mpr fun missing => ?_⟩
    exact not_refuses (refuses (.inr ⟨p, parent, missing⟩))
  · rintro ⟨sane, present⟩ (reports | ⟨p, parent, missing⟩)
    · exact absurd reports (not_reportsBranch sane)
    · have found := present p parent
      rw [missing] at found
      cases found

end Index

section Sample

def tornDb : VecDb :=
  { VecDb.empty with branchesInfo := [((), ⟨[0, 0, 0, 0, 0], [0, 1, 2, 3], [[0], [1], [2], [3]]⟩)] }

def emptiedDb : VecDb := { VecDb.empty with eventBranch := [(41#256, 3)] }

end Sample

/-- The first event of validator 4 is put on branch 0, which is one of validator 1; and a child of an
event without a vector makes `Add` panic. -/
theorem event_on_foreign_branch :
    (∃ vi', (Index.new ⟨2, 3, 4⟩ fourValidators tornDb forkedDag.source).ReportsBranch
        (firstEvent 4 41 []) ∧
      (Index.new ⟨2, 3, 4⟩ fourValidators tornDb forkedDag.source).addChecked (firstEvent 4 41 []) =
        .ok (none, vi') ∧
      vi'.store.eventBranch.get 41#256 = some 0 ∧ (vi'.store.highestBeforeSeq.get 41#256).isSome) ∧
    (Index.new ⟨2, 3, 4⟩ fourValidators emptiedDb forkedDag.source).MissesParent
        (firstEvent 1 11 [41#256]) ∧
    (Index.new ⟨2, 3, 4⟩ fourValidators emptiedDb forkedDag.source).addChecked
        (firstEvent 1 11 [41#256]) = .error (.nilVector 41#256) := by
  refine ⟨⟨_, ⟨0, .inconsistentLen, _, rfl⟩, rfl, rfl, rfl⟩, ⟨41#256, by simp [firstEvent], rfl⟩, rfl⟩

/-- In no run of additions, flushes and drops do the checks of `Add` find anything wrong. -/
theorem runs_stay_consistent {vv : Validators} {D : EventDag vv} (cfg : IndexConfig)
    {source : EventSource} (held : D.HeldBy source) {actions : List IndexAction} {s : Session}
    (run : Transition.Run Session.step (Session.Admits D) (.start cfg vv source) actions s) {e : Event}
    (received : D.Received (s.added ++ [e])) :
    ¬ s.index.ReportsBranch e ∧ ¬ s.index.MissesParent e ∧
      ∃ vi, s.index.add e = .ok vi ∧ s.index.addChecked e = .ok (none, vi) := by
  have sound : s.Sound D := run.invariant
    (fun s a t holds admits moves => (holds.step admits moves).1) (start_sound cfg held)
  obtain ⟨lengths, wide⟩ := sound.books.lengths
  refine ⟨Index.not_reportsBranch ⟨lengths.symm, sound.group ▸ wide⟩, ?_, ?_⟩
  · rintro ⟨p, parent, missing⟩
    obtain ⟨_, _, parents, _⟩ := received.snoc
    obtain ⟨x, inX, rfl⟩ := parents p parent
    obtain ⟨_, t, knows, spec, _⟩ := sound.state
    obtain ⟨vec, _, stored, _⟩ := spec.before x inX
    have read := callbacks_simulate.readBefore _ t x.id knows.shows
    cases (missing.symm.trans read.1).trans stored
  · rw [Index.addChecked_eq_add sound received]
    cases added : s.index.add e with
    | ok vi => exact ⟨vi, rfl, rfl⟩
    | error halt =>
      obtain ⟨t, moves, _⟩ := sound.add received
      simp [Session.step, added] at moves

/-- A child of an event that was added after a flush. -/
theorem runs_stay_consistent_child : ∃ s vi,
    Transition.Run Session.step (Session.Admits forkedDag)
      (.start ⟨2, 3, 4⟩ fourValidators forkedDag.source)
      [.add (firstEvent 4 41 []), .flush, .add (firstEvent 1 11 [41#256])] s ∧
    s.index.addChecked (firstEvent 2 21 [11#256]) = .ok (none, vi) := by
  have run : Transition.Run Session.step (Session.Admits forkedDag)
      (.start ⟨2, 3, 4⟩ fourValidators forkedDag.source)
      [.add (firstEvent 4 41 []), .flush, .add (firstEvent 1 11 [41#256])] _ :=
    .cons ⟨by decide, by decide⟩ rfl (.cons trivial rfl (.cons ⟨by decide, by decide⟩ rfl (.nil _)))
  obtain ⟨_, _, vi, _, added⟩ := runs_stay_consistent ⟨2, 3, 4⟩ EventDag.heldBy_source run
    (e := firstEvent 2 21 [11#256]) ⟨by decide, by decide⟩
  exact ⟨_, vi, run, added⟩

end Lachesis.Vecfc
