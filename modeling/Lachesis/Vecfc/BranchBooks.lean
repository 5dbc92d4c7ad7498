import Lachesis.Vecfc.IndexStays
import Lachesis.Library.Transition

/-!
The books of the global branches, for any number of forks: additions, flushes and drops in any
order. Beyond the cap a branch is no line any more, but its last sequence number is still the
highest one.
-/

namespace Lachesis.Vecfc

open Dag Pos Vecengine Simplewlru

def onBranch (branch : EventID → Option Nat) (L : List Event) (b : Nat) : List Event :=
  L.filter fun x => branch x.id = some b

def highestSeq (events : List Event) : Nat := (events.map Event.seq).foldr max 0

/-- Each event but the first has the one before it as its self-parent. -/
def Line (events : List Event) : Prop := events.IsChain fun x y => y.selfParent = some x.id

/-- The books after the events of `L`. -/
structure BranchBooks (vv : Validators) (bi : BranchesInfo) (branch : EventID → Option Nat)
    (L : List Event) : Prop where
  lengths : bi.branchIDLastSeq.length = bi.branchIDCreatorIdxs.length ∧
    vv.len ≤ bi.branchIDCreatorIdxs.length
  partition : bi.branchIDByCreators.length = vv.len ∧ (∀ b < bi.width, bi.creatorIdx b < vv.len) ∧
    ∀ n < vv.len, (bi.byCreator n).Nodup ∧ ∀ b, b ∈ bi.byCreator n ↔ b < bi.width ∧ bi.creatorIdx b = n
  first : ∀ n < vv.len, (bi.byCreator n).head? = some n
  few : ∀ n < vv.len, (bi.byCreator n).length ≤ maxBranchesPerValidator
  assigned : ∀ x ∈ L, ∃ b < bi.width, branch x.id = some b ∧ bi.creatorIdx b = vv.getIdx x.creator
  highest : ∀ b, bi.lastSeq b = highestSeq (onBranch branch L b)
  lines : ∀ n < vv.len, (bi.byCreator n).length < maxBranchesPerValidator →
    ∀ b ∈ bi.byCreator n, Line (onBranch branch L b) ∧
      ∀ x ∈ onBranch branch L b, ∀ y ∈ onBranch branch L b, x.seq = y.seq → x = y

section Notions

variable {vv : Validators} {D : EventDag vv} {bi later : BranchesInfo} {t : Tables} {L : List Event}
  {e : Event} {b : Nat}

theorem highestSeq_snoc (events : List Event) (e : Event) :
    highestSeq (events ++ [e]) = max (highestSeq events) e.seq := by
  unfold highestSeq
  induction events with
  | nil => simp
  | cons x rest ih => grind

variable {events : List Event} {me : Nat} {branch : EventID → Option Nat}

theorem seq_le_highestSeq {x : Event} (inside : x ∈ events) : x.seq ≤ highestSeq events := by
  unfold highestSeq
  induction events with
  | nil => cases inside
  | cons y rest ih => grind

theorem onBranch_snoc (received : D.Received (L ++ [e])) (a : Nat) :
    onBranch (t.withBranch e b).branch (L ++ [e]) a =
      onBranch t.branch L a ++ if a = b then [e] else [] := by
  have old : L.filter (fun x => (t.withBranch e b).branch x.id = some a) = onBranch t.branch L a :=
    List.filter_congr fun x inX => by rw [withBranch_old received inX]
  rw [onBranch, List.filter_append, old]
  congr 1
  by_cases same : a = b
  · simp [withBranch_new, same]
  · simp [withBranch_new, same, Ne.symm same]

theorem Line.ascending (line : Line events) (inside : ∀ x ∈ events, x ∈ D.events) :
    events.Pairwise fun x y => x.seq < y.seq := by
  have steps : events.IsChain fun x y => x.seq < y.seq := by
    refine line.imp_of_mem_imp fun x y inX inY self => ?_
    have facts := EventDag.SelfParent.facts (inside y inY) ⟨inside x inX, self⟩
    omega
  have trans : IsTrans Event fun x y => x.seq < y.seq := ⟨fun _ _ _ => lt_trans⟩
  exact List.isChain_iff_pairwise.mp steps

theorem Line.alone (line : Line events) (inside : ∀ x ∈ events, x ∈ D.events) :
    ∀ x ∈ events, ∀ y ∈ events, x.seq = y.seq → x = y := by
  have nodup : (events.map Event.seq).Nodup :=
    List.pairwise_map.mpr ((line.ascending inside).imp ne_of_lt)
  exact fun x inX y inY same => List.inj_on_of_nodup_map nodup inX inY same

theorem Line.getLast (line : Line events) (inside : ∀ x ∈ events, x ∈ D.events) {p : Event}
    (member : p ∈ events) (top : highestSeq events ≤ p.seq) : events.getLast? = some p := by
  rcases List.eq_nil_or_concat events with rfl | ⟨before, last, rfl⟩
  · cases member
  · rw [List.concat_eq_append] at line inside member top ⊢
    rw [List.getLast?_concat]
    rcases List.mem_append.mp member with earlier | own
    · have lower := (List.pairwise_append.mp (line.ascending inside)).2.2 p earlier last (by simp)
      have upper : last.seq ≤ highestSeq (before ++ [last]) := seq_le_highestSeq (by simp)
      omega
    · rw [List.mem_singleton.mp own]

theorem choice_lastSeq {selfBranch : Option Nat} (choice : Choice bi me selfBranch e b later)
    (consistent : bi.Consistent vv) (listed : me < vv.len)
    (selfKnown : ∀ b, selfBranch = some b → b < bi.width ∧ bi.creatorIdx b = me) (a : Nat) :
    later.lastSeq a = if a = b then max (bi.lastSeq b) e.seq else bi.lastSeq a := by
  cases choice with
  | first alone empty =>
    rw [BranchesInfo.lastSeq_setLastSeq consistent (listed.trans_le consistent.wide), empty,
      Nat.zero_max]
  | next self follows =>
    rw [BranchesInfo.lastSeq_setLastSeq consistent (selfKnown b self).1, max_eq_right (by omega)]
  | fork =>
    have unused : bi.lastSeq bi.width = 0 := by
      rw [BranchesInfo.lastSeq, List.getElem?_eq_none consistent.lastSeqs.le]
      rfl
    rw [BranchesInfo.lastSeq_addBranch consistent, unused, Nat.zero_max]
  | shared _ _ _ last =>
    have below := ((consistent.mem me listed b).mp (List.mem_of_getLast? last)).1
    split
    · next higher =>
      rw [BranchesInfo.lastSeq_setLastSeq consistent below, max_eq_right higher.le]
    · grind

/-- The branches of a validator become at most one more, never too many, and keep their order. -/
theorem choice_byCreator {selfBranch : Option Nat} (choice : Choice bi me selfBranch e b later)
    (consistent : bi.Consistent vv) (listed : me < vv.len) {n : Nat}
    (few : (bi.byCreator n).length ≤ maxBranchesPerValidator) :
    (later.byCreator n = bi.byCreator n ∨ later.byCreator n = bi.byCreator n ++ [b]) ∧
      (later.byCreator n).length ≤ maxBranchesPerValidator := by
  cases choice with
  | first => exact ⟨.inl rfl, few⟩
  | next => exact ⟨.inl rfl, few⟩
  | fork _ _ room =>
    rw [BranchesInfo.byCreator_addBranch consistent listed]
    split
    · grind
    · exact ⟨.inl rfl, few⟩
  | shared =>
    split
    · exact ⟨.inl rfl, few⟩
    · exact ⟨.inl rfl, few⟩

theorem onBranch_inside (received : D.Received L) :
    ∀ x ∈ onBranch branch L b, x ∈ D.events := fun x member =>
  received.inside x (List.mem_filter.mp member).1

theorem onBranch_empty (received : D.Received L) (zero : highestSeq (onBranch branch L b) = 0) :
    onBranch branch L b = [] := by
  refine List.eq_nil_iff_forall_not_mem.mpr fun x member => ?_
  have below := seq_le_highestSeq member
  have positive := EventDag.seq_pos (onBranch_inside received x member)
  omega

structure Entries (vv : Validators) (bi : BranchesInfo) (branch : EventID → Option Nat)
    (L : List Event) : Prop where
  first : ∀ n < vv.len, (bi.byCreator n).head? = some n
  few : ∀ n, (bi.byCreator n).length ≤ maxBranchesPerValidator
  highest : ∀ b, bi.lastSeq b = highestSeq (onBranch branch L b)
  lines : ∀ n < vv.len, (bi.byCreator n).length < maxBranchesPerValidator →
    ∀ b ∈ bi.byCreator n, Line (onBranch branch L b)

theorem entries_line (entries : Entries vv bi t.branch L) (spec : Spec D bi t L)
    (received : D.Received (L ++ [e]))
    (choice : Choice bi (vv.getIdx e.creator) (selfBranch t e) e b later)
    (room : (later.byCreator (vv.getIdx e.creator)).length < maxBranchesPerValidator) :
    Line (onBranch t.branch L b ++ [e]) := by
  obtain ⟨old, inside, parents, _⟩ := received.snoc
  have listed := getIdx_lt (D.valid e inside).listed
  obtain ⟨_, selfKnown⟩ := selfBranch_known spec received
  have empty : onBranch t.branch L b = [] → Line (onBranch t.branch L b ++ [e]) := fun none_ => by
    rw [none_]
    exact List.isChain_singleton e
  cases choice with
  | first _ zero => exact empty (onBranch_empty old ((entries.highest _).symm.trans zero))
  | fork =>
    refine empty (List.filter_eq_nil_iff.mpr fun x inX on => ?_)
    obtain ⟨a, stored, below, _⟩ := spec.branch x inX
    rw [decide_eq_true_eq, stored, Option.some.injEq] at on
    omega
  | shared _ _ full =>
    refine absurd room (not_lt.mpr ?_)
    split <;> exact full
  | next self follows =>
    obtain ⟨p, isParent⟩ : ∃ p, e.selfParent = some p := by grind
    obtain ⟨x, inX, rfl⟩ := parents p (selfParent_mem_parents isParent)
    have seq := (EventDag.SelfParent.facts inside ⟨old.inside x inX, isParent⟩).2
    have member : x ∈ onBranch t.branch L b := by
      refine List.mem_filter.mpr ⟨inX, ?_⟩
      simpa [selfBranch, isParent] using self
    have own : b ∈ bi.byCreator (vv.getIdx e.creator) :=
      (spec.consistent.mem _ listed b).mpr (selfKnown b self)
    have line := entries.lines _ listed room b own
    have top : highestSeq (onBranch t.branch L b) ≤ x.seq := by
      rw [← entries.highest]
      omega
    refine List.IsChain.append line (List.isChain_singleton e) fun y last z head => ?_
    rw [Line.getLast line (onBranch_inside old) member top] at last
    cases last
    cases head
    exact isParent

theorem entries_step (entries : Entries vv bi t.branch L) (spec : Spec D bi t L)
    (received : D.Received (L ++ [e]))
    (choice : Choice bi (vv.getIdx e.creator) (selfBranch t e) e b later) :
    Entries vv later (t.withBranch e b).branch (L ++ [e]) := by
  obtain ⟨old, inside, _, _⟩ := received.snoc
  have listed := getIdx_lt (D.valid e inside).listed
  obtain ⟨_, selfKnown⟩ := selfBranch_known spec received
  obtain ⟨consistent, grows, below, owner⟩ := choice.sound spec.consistent listed selfKnown
  have lists := fun n => choice_byCreator choice spec.consistent listed (entries.few n)
  refine ⟨fun n inN => ?_, fun n => (lists n).2, fun a => ?_, fun n inN room a member => ?_⟩
  · rcases (lists n).1 with is | is
    · rw [is, entries.first n inN]
    · rw [is, List.head?_append, entries.first n inN]
      rfl
  · rw [choice_lastSeq choice spec.consistent listed selfKnown, onBranch_snoc received]
    split
    · next same => rw [same, highestSeq_snoc, entries.highest]
    · rw [List.append_nil, entries.highest]
  · rw [onBranch_snoc received]
    obtain ⟨within, creator⟩ := (consistent.mem n inN a).mp member
    split
    · next same =>
      subst same
      rw [owner] at creator
      exact entries_line entries spec received choice (creator ▸ room)
    · next other =>
      rw [List.append_nil]
      rcases (lists n).1 with is | is
      · rw [is] at room member
        exact entries.lines n inN room a member
      · rw [is] at room member
        rw [List.length_append] at room
        refine entries.lines n inN (by omega) a ((List.mem_append.mp member).resolve_right ?_)
        exact fun new => other (List.mem_singleton.mp new)

end Notions

section Runs

inductive IndexAction where
  | add (e : Event)
  | flush
  | dropNotFlushed
  deriving DecidableEq

/-- An index together with the events it was given: those in the database, and all. -/
structure Session where
  kept : List Event
  added : List Event
  index : Index

def Session.step (s : Session) : IndexAction → Option Session
  | .add e =>
    match s.index.add e with
    | .ok index => some { s with added := s.added ++ [e], index := index }
    | .error _ => none
  | .flush => some ⟨s.added, s.added, s.index.flush⟩
  | .dropNotFlushed => some ⟨s.kept, s.kept, s.index.dropNotFlushed⟩

variable {vv : Validators} (D : EventDag vv)

/-- Events are added parents first, each once. -/
def Session.Admits (s : Session) : IndexAction → Prop
  | .add e => D.Received (s.added ++ [e])
  | .flush => True
  | .dropNotFlushed => True

structure Records (bi : BranchesInfo) (t : Tables) (L : List Event) : Prop where
  spec : Spec D bi t L
  entries : Entries vv bi t.branch L

structure Session.Sound (s : Session) : Prop where
  before : D.Received s.kept
  received : D.Received s.added
  group : s.index.validators = vv
  source : D.HeldBy s.index.source
  state : ∃ bi t, s.index.Knows s.index.persisted bi t ∧ Records D bi t s.added
  flushed : ∃ bi t, s.index.persisted.Stores vv bi t ∧ Records D bi t s.kept

def Session.bi (s : Session) : BranchesInfo := s.index.initBranchesInfo.1

def Session.branch (s : Session) (id : EventID) : Option Nat :=
  VecStore.callbacks.readEventBranch s.index.store id

variable {D} {s t : Session}

theorem Session.Sound.records (sound : s.Sound D) :
    ∃ tables : Tables, tables.branch = s.branch ∧ Records D s.bi tables s.added := by
  obtain ⟨bi, t, knows, records⟩ := sound.state
  have info : s.bi = bi := congrArg Prod.fst (Index.initBranchesInfo_knows knows)
  refine ⟨t, funext fun id => (knows.shows.branch id).symm, info ▸ records⟩

theorem Session.Sound.books (sound : s.Sound D) : BranchBooks vv s.bi s.branch s.added := by
  obtain ⟨tables, branch, spec, entries⟩ := sound.records
  rw [branch] at entries
  have consistent := spec.consistent
  refine ⟨⟨consistent.lastSeqs, consistent.wide⟩, ⟨consistent.creators, consistent.known,
    fun n inN => ⟨consistent.nodup n, consistent.mem n inN⟩⟩, entries.first, fun n _ => entries.few n,
    fun x inX => ?_, entries.highest, fun n inN room b member => ?_⟩
  · obtain ⟨b, stored, below, owner⟩ := spec.branch x inX
    exact ⟨b, below, branch ▸ stored, owner⟩
  · have line := entries.lines n inN room b member
    exact ⟨line, line.alone (onBranch_inside sound.received)⟩

theorem Session.Sound.add (sound : s.Sound D) {e : Event} (received : D.Received (s.added ++ [e])) :
    ∃ t, s.step (.add e) = some t ∧ t.Sound D ∧ ∀ b, s.bi.lastSeq b ≤ t.bi.lastSeq b := by
  obtain ⟨bi, tables, knows, spec, entries⟩ := sound.state
  obtain ⟨b, later, tables', fill, choice, _, branch, _, spec'⟩ :=
    fillEventVectors_spec sound.source spec received
  rw [← sound.group] at fill
  obtain ⟨store, run, knows'⟩ := Index.add_knows knows fill
  have entries' := entries_step entries spec received choice
  rw [← branch] at entries'
  have same := knows'.persisted
  rw [← same] at knows'
  refine ⟨⟨s.kept, s.added ++ [e], { s.index with bi := some later, store := store }⟩, ?_,
    ⟨sound.before, received, sound.group, sound.source, ⟨later, tables', knows', spec', entries'⟩,
      same ▸ sound.flushed⟩, fun a => ?_⟩
  · rw [Session.step, run]
  · have listed := getIdx_lt (D.valid e received.snoc.2.1).listed
    have info : s.bi = bi := congrArg Prod.fst (Index.initBranchesInfo_knows knows)
    change s.bi.lastSeq a ≤ later.lastSeq a
    rw [info, choice_lastSeq choice spec.consistent listed (selfBranch_known spec received).2]
    split
    · next own => exact own ▸ le_max_left _ _
    · exact le_rfl

theorem Session.Sound.flush (sound : s.Sound D) :
    Session.Sound D ⟨s.added, s.added, s.index.flush⟩ ∧
      Session.bi ⟨s.added, s.added, s.index.flush⟩ = s.bi := by
  obtain ⟨bi, tables, knows, records⟩ := sound.state
  obtain ⟨flushed, stores⟩ := Index.flush_knows knows
  rw [sound.group] at stores
  refine ⟨⟨sound.received, sound.received, sound.group, sound.source, ⟨bi, tables, flushed, records⟩,
    bi, tables, stores, records⟩, ?_⟩
  rw [Session.bi, Index.initBranchesInfo_knows flushed, Session.bi, Index.initBranchesInfo_knows knows]

theorem Session.Sound.drop (sound : s.Sound D) :
    Session.Sound D ⟨s.kept, s.kept, s.index.dropNotFlushed⟩ := by
  obtain ⟨bi', tables', knows, _⟩ := sound.state
  obtain ⟨bi, tables, stores, records⟩ := sound.flushed
  have dropped := Index.dropNotFlushed_knows knows (sound.group.symm ▸ stores)
  have same := dropped.persisted
  obtain ⟨group, source, _⟩ := Index.dropNotFlushed_rest s.index
  rw [← same] at dropped
  exact ⟨sound.before, sound.before, group.trans sound.group, source ▸ sound.source,
    ⟨bi, tables, dropped, records⟩, bi, tables, same ▸ stores, records⟩

theorem Session.Sound.step (sound : s.Sound D) {a : IndexAction} (admits : s.Admits D a)
    (moves : s.step a = some t) :
    t.Sound D ∧ (a ≠ .dropNotFlushed → ∀ b, s.bi.lastSeq b ≤ t.bi.lastSeq b) := by
  cases a with
  | add e =>
    obtain ⟨u, is, after, grows⟩ := sound.add admits
    cases is.symm.trans moves
    exact ⟨after, fun _ => grows⟩
  | flush =>
    cases moves
    obtain ⟨after, same⟩ := sound.flush
    exact ⟨after, fun _ b => by rw [same]⟩
  | dropNotFlushed =>
    cases moves
    exact ⟨sound.drop, fun no => absurd rfl no⟩

def Session.start (cfg : IndexConfig) (vv : Validators) (source : EventSource) : Session :=
  ⟨[], [], Index.new cfg vv .empty source⟩

theorem start_sound (cfg : IndexConfig) {source : EventSource} (held : D.HeldBy source) :
    (Session.start cfg vv source).Sound D := by
  have empty : Records D (newInitialBranchesInfo vv) noTables [] := by
    refine ⟨noTables_spec, fun n inN => ?_, fun n => ?_, BranchesInfo.lastSeq_initial vv,
      fun n _ _ b _ => List.isChain_nil⟩
    · rw [BranchesInfo.byCreator_initial inN]
      rfl
    · by_cases inN : n < vv.len
      · rw [BranchesInfo.byCreator_initial inN]
        exact Nat.succ_le_succ (Nat.zero_le _)
      · have past : ((List.range vv.len).map fun i => [i])[n]? = none := by simp; omega
        simp [BranchesInfo.byCreator, newInitialBranchesInfo, past]
  exact ⟨received_nil, received_nil, rfl, held,
    ⟨_, _, Index.new_knows cfg source empty_stores, empty⟩, _, _, empty_stores, empty⟩

/-- In every run of additions, flushes and drops the books are right, and an event that is admitted can
be added. -/
theorem branch_books (cfg : IndexConfig) {source : EventSource} (held : D.HeldBy source)
    {actions : List IndexAction}
    (run : Transition.Run Session.step (Session.Admits D) (.start cfg vv source) actions s) :
    BranchBooks vv s.bi s.branch s.added ∧
    (∀ e, D.Received (s.added ++ [e]) → ∃ index, s.index.add e = .ok index) ∧
    ∀ rest t, Transition.Run Session.step (Session.Admits D) s rest t → .dropNotFlushed ∉ rest →
      ∀ b, s.bi.lastSeq b ≤ t.bi.lastSeq b := by
  have sound : s.Sound D := run.invariant
    (fun s a t holds admits moves => (holds.step admits moves).1) (start_sound cfg held)
  refine ⟨sound.books, fun e received => ?_, fun rest t further => ?_⟩
  · obtain ⟨t, moves, _⟩ := sound.add received
    cases added : s.index.add e with
    | ok index => exact ⟨index, rfl⟩
    | error halt => simp [Session.step, added] at moves
  · clear run
    induction further with
    | nil => exact fun _ b => le_rfl
    | cons admits moves _ ih =>
      intro quiet b
      obtain ⟨after, grows⟩ := sound.step admits moves
      refine (grows (fun is => quiet (is ▸ List.mem_cons_self)) b).trans (ih after ?_ b)
      exact fun later => quiet (List.mem_cons_of_mem _ later)

end Runs

/-- A fork is added, dropped and added again. -/
theorem branch_books_forked : ∃ s : Session,
    Transition.Run Session.step (Session.Admits forkedDag)
      (.start ⟨2, 3, 4⟩ fourValidators forkedDag.source)
      [.add (firstEvent 4 41 []), .flush, .add (firstEvent 4 42 []), .dropNotFlushed,
        .add (firstEvent 4 42 [])] s ∧
    s.bi.byCreator 3 = [3, 4] ∧ BranchBooks fourValidators s.bi s.branch s.added := by
  have one : forkedDag.Received [firstEvent 4 41 []] := ⟨by decide, by decide⟩
  have two : forkedDag.Received [firstEvent 4 41 [], firstEvent 4 42 []] := ⟨by decide, by decide⟩
  obtain ⟨s₁, s₂, s₃, s₄, s₅, first, second, third, fourth, fifth, kept, again, forked⟩ :
      ∃ s₁ s₂ s₃ s₄ s₅ : Session,
        (Session.start ⟨2, 3, 4⟩ fourValidators forkedDag.source).step (.add (firstEvent 4 41 [])) =
          some s₁ ∧
        s₁.step .flush = some s₂ ∧ s₂.step (.add (firstEvent 4 42 [])) = some s₃ ∧
        s₃.step .dropNotFlushed = some s₄ ∧ s₄.step (.add (firstEvent 4 42 [])) = some s₅ ∧
        s₂.added = [firstEvent 4 41 []] ∧
        s₄.added = [firstEvent 4 41 []] ∧ s₅.bi.byCreator 3 = [3, 4] :=
    ⟨_, _, _, _, _, rfl, rfl, rfl, rfl, rfl, rfl, rfl, rfl⟩
  have run : Transition.Run Session.step (Session.Admits forkedDag)
      (.start ⟨2, 3, 4⟩ fourValidators forkedDag.source)
      [.add (firstEvent 4 41 []), .flush, .add (firstEvent 4 42 []), .dropNotFlushed,
        .add (firstEvent 4 42 [])] s₅ := by
    refine .cons one first (.cons trivial second (.cons ?_ third (.cons trivial fourth
      (.cons ?_ fifth (.nil _)))))
    · rw [Session.Admits, kept]
      exact two
    · rw [Session.Admits, again]
      exact two
  exact ⟨s₅, run, forked, (branch_books ⟨2, 3, 4⟩ EventDag.heldBy_source run).1⟩

end Lachesis.Vecfc
