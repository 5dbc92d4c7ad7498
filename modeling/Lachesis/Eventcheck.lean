import Lachesis.Graph

/-!
`eventcheck`: the checks that every event passes before anything else sees it. Each of them compares
an event with its parents only; together they number the whole graph. Sums are those of `uint32`.
-/

namespace Lachesis.Eventcheck

open Dag Pos

inductive Error where
  /-- "too big value" -/
  | hugeValue
  /-- "event field is not initialized" -/
  | notInited
  /-- "event has no parents" -/
  | noParents
  /-- "event has double parents" -/
  | doubleParents
  /-- "event is too old or too new" -/
  | notRelevant
  /-- "event creator isn't a validator" -/
  | auth
  /-- "event has wrong Lamport time" -/
  | wrongLamport
  /-- "event is missing self-parent" -/
  | wrongSelfParent
  /-- "event has wrong sequence time" -/
  | wrongSeq
  deriving DecidableEq

inductive Verdict where
  | valid
  | invalid (err : Error)
  /-- panic("parentscheck: expected event's parents as an argument") -/
  | notItsParents
  deriving DecidableEq

def maxInt32 : Nat := 2 ^ 31 - 1

def add32 (a b : Nat) : Nat := (a + b) % 2 ^ 32

namespace Basiccheck

def checkLimits (e : Event) : Option Error :=
  if e.seq ≥ maxInt32 - 1 ∨ e.epoch ≥ maxInt32 - 1 ∨ e.frame ≥ maxInt32 - 1 ∨
      e.lamport ≥ maxInt32 - 1 then some .hugeValue
  else none

def checkInited (e : Event) : Option Error :=
  if e.seq ≤ 0 ∨ e.epoch ≤ 0 ∨ e.frame ≤ 0 ∨ e.lamport ≤ 0 then some .notInited
  else if e.seq > 1 ∧ e.parents.length = 0 then some .noParents
  else none

def validate (e : Event) : Option Error :=
  match checkLimits e with
  | some err => some err
  | none =>
    match checkInited e with
    | some err => some err
    | none => if e.parents.dedup.length ≠ e.parents.length then some .doubleParents else none

end Basiccheck

def Epochcheck.validate (reader : Validators × Nat) (e : Event) : Option Error :=
  if e.epoch ≠ reader.2 then some .notRelevant
  else if ¬ reader.1.exists e.creator then some .auth
  else none

namespace Parentscheck

def maxLamport (parents : List Event) : Nat :=
  parents.foldl (fun known p => max known p.lamport) 0

def validate (e : Event) (parents : List Event) : Verdict :=
  if e.parents.length ≠ parents.length then .notItsParents
  else if e.lamport ≠ add32 (maxLamport parents) 1 then .invalid .wrongLamport
  else if (e.parents.zip parents).any fun (id, p) => (p.creator == e.creator) != e.isSelfParent id then
    .invalid .wrongSelfParent
  else if decide (e.seq = 1) ≠ e.selfParent.isNone then .invalid .wrongSeq
  else
    match e.selfParent, parents with
    | none, _ => .valid
    -- not reached: an event with a self-parent has parents
    | some _, [] => .notItsParents
    | some _, selfParent :: _ =>
      if !e.isSelfParent selfParent.id then .invalid .wrongSelfParent
      else if e.seq ≠ add32 selfParent.seq 1 then .invalid .wrongSeq
      else .valid

end Parentscheck

def validate (reader : Validators × Nat) (e : Event) (parents : List Event) : Verdict :=
  match Basiccheck.validate e with
  | some err => .invalid err
  | none =>
    match Epochcheck.validate reader e with
    | some err => .invalid err
    | none => Parentscheck.validate e parents

structure Numbered (e : Event) (parents : List Event) : Prop where
  seq_pos : 0 < e.seq
  seq_lt : e.seq < maxInt32 - 1
  lamport_lt : e.lamport < maxInt32 - 1
  nodup : e.parents.Nodup
  lamport : e.lamport = add32 (Parentscheck.maxLamport parents) 1
  /-- The parents of the own creator are those that the self-parent names. -/
  own : ∀ x ∈ e.parents.zip parents, x.2.creator = e.creator ↔ e.selfParent = some x.1
  first : e.seq = 1 ↔ e.selfParent = none
  next : ∀ p rest, parents = p :: rest → e.selfParent ≠ none →
    e.selfParent = some p.id ∧ e.seq = add32 p.seq 1

variable {e : Event} {parents : List Event} {reader : Validators × Nat}

theorem Basiccheck.passed (passes : Basiccheck.validate e = none) :
    0 < e.seq ∧ e.seq < maxInt32 - 1 ∧ e.lamport < maxInt32 - 1 ∧ e.parents.Nodup := by
  rw [Basiccheck.validate] at passes
  cases limits : checkLimits e with
  | some err => simp [limits] at passes
  | none =>
    cases inited : checkInited e with
    | some err => simp [limits, inited] at passes
    | none =>
      simp only [limits, inited, ite_eq_right_iff, reduceCtorEq, imp_false, not_not] at passes
      rw [checkLimits, ite_eq_right_iff] at limits
      rw [checkInited] at inited
      split_ifs at inited with zero
      refine ⟨by omega, ?_, ?_, ?_⟩
      · by_contra huge
        exact nomatch limits (.inl (not_lt.mp huge))
      · by_contra huge
        exact nomatch limits (.inr (.inr (.inr (not_lt.mp huge))))
      · rw [← List.dedup_eq_self]
        exact (List.dedup_sublist e.parents).eq_of_length passes

theorem Parentscheck.passed (passes : Parentscheck.validate e parents = .valid) :
    e.parents.length = parents.length ∧ e.lamport = add32 (maxLamport parents) 1 ∧
    (∀ x ∈ e.parents.zip parents, x.2.creator = e.creator ↔ e.selfParent = some x.1) ∧
    (e.seq = 1 ↔ e.selfParent = none) ∧
    ∀ p rest, parents = p :: rest → e.selfParent ≠ none →
      e.selfParent = some p.id ∧ e.seq = add32 p.seq 1 := by
  unfold Parentscheck.validate at passes
  by_cases length : e.parents.length ≠ parents.length
  · rw [if_pos length] at passes
    cases passes
  rw [if_neg length] at passes
  by_cases lamport : e.lamport ≠ add32 (maxLamport parents) 1
  · rw [if_pos lamport] at passes
    cases passes
  rw [if_neg lamport] at passes
  by_cases own : (e.parents.zip parents).any
      fun (id, p) => (p.creator == e.creator) != e.isSelfParent id
  · rw [if_pos own] at passes
    cases passes
  rw [if_neg own] at passes
  by_cases seq : decide (e.seq = 1) ≠ e.selfParent.isNone
  · rw [if_pos seq] at passes
    cases passes
  rw [if_neg seq] at passes
  refine ⟨not_not.mp length, not_not.mp lamport, fun x member => ?_, ?_, fun p rest shape has => ?_⟩
  · have same : ((x.2.creator == e.creator) != e.isSelfParent x.1) = false := by
      by_contra differ
      exact own (List.any_eq_true.mpr ⟨x, member, by simpa using differ⟩)
    simpa [Event.isSelfParent, beq_eq_beq] using same
  · rw [← Option.isNone_iff_eq_none, ← not_not.mp seq, decide_eq_true_iff]
  · subst shape
    cases self : e.selfParent with
    | none => exact absurd self has
    | some id =>
      rw [self] at passes
      dsimp only at passes
      split_ifs at passes with other wrong
      refine ⟨?_, not_not.mp wrong⟩
      simpa [Event.isSelfParent, self] using other

theorem passed (passes : validate reader e parents = .valid) :
    Basiccheck.validate e = none ∧ Epochcheck.validate reader e = none ∧
      Parentscheck.validate e parents = .valid := by
  rw [validate] at passes
  cases basic : Basiccheck.validate e with
  | some err => simp [basic] at passes
  | none => grind

theorem Epochcheck.passed (passes : Epochcheck.validate reader e = none) :
    e.creator ∈ reader.1.sortedIDs := by
  rw [Epochcheck.validate] at passes
  split_ifs at passes with _ listed
  simpa [Validators.exists] using listed

theorem numbered_of_validate (passes : validate reader e parents = .valid) :
    Numbered e parents := by
  obtain ⟨basic, _, against⟩ := passed passes
  obtain ⟨pos, seq, lamport, nodup⟩ := Basiccheck.passed basic
  obtain ⟨_, time, own, first, next⟩ := Parentscheck.passed against
  exact ⟨pos, seq, lamport, nodup, time, own, first, next⟩

section Numbering

variable {reader : Event → Validators × Nat}

/-- A finite set of events, each of which passes together with its actual parents. The reader of
`Epochcheck` may have moved on between two events. -/
structure Checked (reader : Event → Validators × Nat) where
  events : List Event
  parentsOf : Event → List Event
  inside : ∀ e ∈ events, ∀ p ∈ parentsOf e, p ∈ events
  named : ∀ e ∈ events, (parentsOf e).map Event.id = e.parents
  passes : ∀ e ∈ events, validate (reader e) e (parentsOf e) = .valid

namespace Checked

variable (C : Checked reader)

def Parent (e p : Event) : Prop := p ∈ C.parentsOf e

def SelfParent (e p : Event) : Prop := p ∈ C.parentsOf e ∧ e.selfParent = some p.id

/-- The events that are met by following `SelfParent` from `e` until there is none. -/
inductive Follows : Event → List Event → Prop where
  | first {e : Event} (none : e.selfParent = none) : Follows e [e]
  | next {e p : Event} {rest : List Event} (self : C.SelfParent e p) (later : Follows p rest) :
      Follows e (e :: rest)

variable {C}

variable {e p q : Event} {parents : List Event}

theorem numbered (member : e ∈ C.events) : Numbered e (C.parentsOf e) :=
  numbered_of_validate (C.passes e member)

theorem maxLamport_eq (parents : List Event) :
    Parentscheck.maxLamport parents = (parents.map Event.lamport).max?.getD 0 := by
  cases parents with
  | nil => rfl
  | cons p rest =>
    rw [List.map_cons, List.max?_cons', Option.getD_some, List.foldl_map, Parentscheck.maxLamport,
      List.foldl_cons, Nat.zero_max]

theorem le_maxLamport (member : p ∈ parents) : p.lamport ≤ Parentscheck.maxLamport parents := by
  rw [maxLamport_eq]
  exact List.le_max?_getD_of_mem (List.mem_map_of_mem member)

theorem maxLamport_mem (parented : parents ≠ []) :
    ∃ p ∈ parents, p.lamport = Parentscheck.maxLamport parents := by
  obtain ⟨most, found⟩ : ∃ most, (parents.map Event.lamport).max? = some most :=
    Option.isSome_iff_exists.mp (List.isSome_max?_of_ne_nil (by simpa using parented))
  obtain ⟨p, member, is⟩ := List.mem_map.mp (List.max?_mem found)
  exact ⟨p, member, by rw [maxLamport_eq, found, Option.getD_some, is]⟩

theorem maxLamport_lt (member : e ∈ C.events) :
    Parentscheck.maxLamport (C.parentsOf e) < maxInt32 - 1 := by
  by_cases orphan : C.parentsOf e = []
  · rw [orphan]
    decide
  · obtain ⟨p, parent, is⟩ := maxLamport_mem orphan
    rw [← is]
    exact (numbered (C.inside e member p parent)).lamport_lt

theorem lamport_eq (member : e ∈ C.events) :
    e.lamport = Parentscheck.maxLamport (C.parentsOf e) + 1 := by
  have below := maxLamport_lt member
  rw [(numbered member).lamport, add32, Nat.mod_eq_of_lt]
  rw [maxInt32] at below
  omega

theorem Parent.lamport (member : e ∈ C.events) (parent : C.Parent e p) : p.lamport < e.lamport := by
  rw [lamport_eq member, Nat.lt_succ_iff]
  exact le_maxLamport parent

theorem ancestor_lamport {a : Event} (member : e ∈ C.events)
    (ancestor : Relation.TransGen C.Parent e a) : a ∈ C.events ∧ a.lamport < e.lamport := by
  induction ancestor with
  | single parent => exact ⟨C.inside _ member _ parent, Parent.lamport member parent⟩
  | tail _ parent ih =>
    exact ⟨C.inside _ ih.1 _ parent, (Parent.lamport ih.1 parent).trans ih.2⟩

theorem path_length_le {rest : List Event} (member : e ∈ C.events)
    (path : (e :: rest).IsChain C.Parent) : rest.length + 1 ≤ e.lamport := by
  induction rest generalizing e with
  | nil =>
    rw [lamport_eq member]
    simp
  | cons p rest ih =>
    obtain ⟨parent, later⟩ := List.isChain_cons_cons.mp path
    have below := Parent.lamport member parent
    have shorter := ih (C.inside e member p parent) later
    rw [List.length_cons]
    omega

theorem exists_path (member : e ∈ C.events) :
    ∃ rest, (e :: rest).IsChain C.Parent ∧ rest.length + 1 = e.lamport := by
  induction time : e.lamport using Nat.strong_induction_on generalizing e with
  | _ time' ih =>
    subst time
    by_cases orphan : C.parentsOf e = []
    · refine ⟨[], List.isChain_singleton e, ?_⟩
      rw [lamport_eq member, orphan]
      rfl
    · obtain ⟨p, parent, latest⟩ := maxLamport_mem orphan
      obtain ⟨rest, path, length⟩ :=
        ih p.lamport (Parent.lamport member parent) (C.inside e member p parent) rfl
      refine ⟨p :: rest, List.isChain_cons_cons.mpr ⟨parent, path⟩, ?_⟩
      rw [List.length_cons, length, latest, lamport_eq member]

theorem lamport_isGreatest (member : e ∈ C.events) :
    IsGreatest {n | ∃ rest, (e :: rest).IsChain C.Parent ∧ rest.length + 1 = n} e.lamport := by
  refine ⟨exists_path member, ?_⟩
  rintro _ ⟨rest, path, rfl⟩
  exact path_length_le member path

theorem exists_selfParent (member : e ∈ C.events) (more : e.seq ≠ 1) :
    ∃ p rest, C.parentsOf e = p :: rest ∧ e.selfParent = some p.id := by
  have numbered := C.numbered member
  have self : e.selfParent ≠ none := fun none => more (numbered.first.mpr none)
  cases shape : C.parentsOf e with
  | nil =>
    have names := C.named e member
    rw [shape] at names
    simp [Event.selfParent, ← names] at self
  | cons p rest => exact ⟨p, rest, rfl, (numbered.next p rest shape self).1⟩

theorem own_iff (member : e ∈ C.events) (parent : C.Parent e p) :
    p.creator = e.creator ↔ e.selfParent = some p.id := by
  have pair : (p.id, p) ∈ e.parents.zip (C.parentsOf e) := by
    have zipped := @List.zip_map' _ _ _ Event.id id (C.parentsOf e)
    rw [List.map_id] at zipped
    rw [← C.named e member, zipped]
    exact List.mem_map_of_mem parent
  exact (C.numbered member).own _ pair

theorem parents_ids (member : e ∈ C.events) (left : C.Parent e p) (right : C.Parent e q)
    (same : p.id = q.id) : p = q :=
  List.inj_on_of_nodup_map (by rw [C.named e member]; exact (C.numbered member).nodup) left right same

theorem SelfParent.facts (member : e ∈ C.events) (self : C.SelfParent e p) :
    p.creator = e.creator ∧ e.seq = p.seq + 1 := by
  have numbered := C.numbered member
  have more : e.seq ≠ 1 := fun one => (nomatch self.2.symm.trans (numbered.first.mp one))
  obtain ⟨q, rest, shape, named⟩ := exists_selfParent member more
  obtain rfl : p = q := parents_ids member self.1 (by rw [Parent, shape]; exact List.mem_cons_self)
    (Option.some.inj (self.2.symm.trans named))
  refine ⟨(own_iff member self.1).mpr self.2, ?_⟩
  have below := (C.numbered (C.inside e member p self.1)).seq_lt
  rw [(numbered.next p rest shape (by simp [named])).2, add32, Nat.mod_eq_of_lt]
  rw [maxInt32] at below
  omega

theorem exists_follows (member : e ∈ C.events) : ∃ chain, C.Follows e chain := by
  induction number : e.seq generalizing e with
  | zero =>
    have := (C.numbered member).seq_pos
    omega
  | succ n ih =>
    by_cases one : e.seq = 1
    · exact ⟨[e], .first ((C.numbered member).first.mp one)⟩
    · obtain ⟨p, rest, shape, named⟩ := exists_selfParent member one
      have self : C.SelfParent e p := ⟨by rw [shape]; exact List.mem_cons_self, named⟩
      have lower := (SelfParent.facts member self).2
      obtain ⟨chain, follows⟩ := ih (C.inside e member p self.1) (by omega)
      exact ⟨e :: chain, .next self follows⟩

theorem Follows.seqs {chain : List Event} (member : e ∈ C.events) (follows : C.Follows e chain) :
    chain.map Event.seq = (List.range' 1 e.seq).reverse ∧
      ∀ x ∈ chain, x ∈ C.events ∧ x.creator = e.creator := by
  induction follows with
  | @first e none =>
    rw [(C.numbered member).first.mpr none, List.map_singleton, (C.numbered member).first.mpr none]
    exact ⟨rfl, by simp [member]⟩
  | @next e p rest self _ ih =>
    obtain ⟨creator, seq⟩ := SelfParent.facts member self
    obtain ⟨seqs, own⟩ := ih (C.inside e member p self.1)
    refine ⟨?_, List.forall_mem_cons.mpr ⟨⟨member, rfl⟩, fun x later => ?_⟩⟩
    · rw [List.map_cons, seqs, seq, List.range'_1_concat, List.reverse_append, Nat.add_comm]
      rfl
    · exact ⟨(own x later).1, (own x later).2.trans creator⟩

theorem one_own_parent (member : e ∈ C.events) (left : C.Parent e p) (right : C.Parent e q)
    (ownP : p.creator = e.creator) (ownQ : q.creator = e.creator) : p = q :=
  parents_ids member left right (Option.some.inj
    (((own_iff member left).mp ownP).symm.trans ((own_iff member right).mp ownQ)))

/-- Lamport times are the lengths of longest paths of parents, self-ancestors count down to one, parents
are different, one at most is of the event's creator, and no sum of the checks leaves `uint32`. -/
theorem checked_numbered (C : Checked reader) {e : Event} (member : e ∈ C.events) :
    e.lamport = ((C.parentsOf e).map Event.lamport).max?.getD 0 + 1 ∧
    IsGreatest {n | ∃ rest, (e :: rest).IsChain C.Parent ∧ rest.length + 1 = n} e.lamport ∧
    (∀ a, Relation.TransGen C.Parent e a → a.lamport < e.lamport) ∧
    (∃ chain, C.Follows e chain) ∧
    (∀ chain, C.Follows e chain → chain.length = e.seq ∧
      chain.map Event.seq = (List.range' 1 e.seq).reverse ∧ ∀ x ∈ chain, x.creator = e.creator) ∧
    e.parents.Nodup ∧
    (∀ p ∈ C.parentsOf e, ∀ q ∈ C.parentsOf e,
      p.creator = e.creator → q.creator = e.creator → p = q) ∧
    Parentscheck.maxLamport (C.parentsOf e) + 1 < 2 ^ 32 ∧
    ∀ p ∈ C.parentsOf e, p.seq + 1 < 2 ^ 32 := by
  have numbered := C.numbered member
  have limit : maxInt32 - 1 + 1 < 2 ^ 32 := by decide
  refine ⟨?_, lamport_isGreatest member, fun a ancestor => (ancestor_lamport member ancestor).2,
    exists_follows member, fun chain follows => ?_, numbered.nodup,
    fun p left q right => one_own_parent member left right, ?_, fun p parent => ?_⟩
  · rw [← maxLamport_eq]
    exact lamport_eq member
  · obtain ⟨seqs, own⟩ := follows.seqs member
    refine ⟨?_, seqs, fun x later => (own x later).2⟩
    rw [← List.length_map Event.seq, seqs, List.length_reverse, List.length_range']
  · have := maxLamport_lt member
    omega
  · have := (C.numbered (C.inside e member p parent)).seq_lt
    omega

/-- Two events of one validator. -/
theorem checked_numbered_pair : ∃ (vv : Validators) (C : Checked fun _ => (vv, 1)) (e : Event),
    e ∈ C.events ∧ e.seq = 2 ∧
    e.lamport = ((C.parentsOf e).map Event.lamport).max?.getD 0 + 1 ∧
    ∃ chain, C.Follows e chain ∧ chain.map Event.seq = [2, 1] := by
  let vv : Validators := ⟨[⟨7, 1⟩], by decide, by decide, by decide, by decide⟩
  let a : Event := ⟨1, 1, 1, 7, [], 1, 1⟩
  let b : Event := ⟨1, 2, 1, 7, [1], 2, 2⟩
  let C : Checked fun _ => (vv, 1) := ⟨[a, b], fun e => if e = b then [a] else [], by decide,
    by decide, by decide⟩
  have member : b ∈ C.events := by decide
  obtain ⟨lamport, _, _, ⟨chain, follows⟩, seqs, _⟩ := checked_numbered C member
  exact ⟨vv, C, b, member, rfl, lamport, chain, follows, (seqs chain follows).2.1⟩

end Checked

theorem parentsFirst_of_sorted {earlier rest : List Event}
    (ids : ((earlier ++ rest).map Event.id).Nodup)
    (sorted : rest.Pairwise fun x y => x.lamport ≤ y.lamport)
    (closed : ∀ e ∈ rest, ∀ id ∈ e.parents,
      ∃ p ∈ earlier ++ rest, p.id = id ∧ p.lamport < e.lamport) :
    ParentsFirst earlier rest := by
  induction rest generalizing earlier with
  | nil => trivial
  | cons e rest ih =>
    obtain ⟨first, later⟩ := List.pairwise_cons.mp sorted
    refine ⟨fun id parent => ?_, fun x old same => ?_, ?_⟩
    · obtain ⟨p, known, named, below⟩ := closed e List.mem_cons_self id parent
      rcases List.mem_append.mp known with old | new
      · exact ⟨p, old, named⟩
      · rcases List.mem_cons.mp new with rfl | new
        · omega
        · have := first p new
          omega
    · rw [List.map_append, List.nodup_append] at ids
      exact ids.2.2 x.id (List.mem_map_of_mem old) e.id (by simp) same
    · refine ih (by simpa using ids) later fun x member id parent => ?_
      simpa using closed x (List.mem_cons_of_mem e member) id parent

/-- Checked events of one epoch, named by their identifiers, are a graph of valid events. -/
theorem Checked.exists_eventDag {vv : Validators} {epoch : Nat} (C : Checked fun _ => (vv, epoch))
    (ids : (C.events.map Event.id).Nodup) : ∃ D : EventDag vv, D.events.Perm C.events := by
  let sorted := C.events.mergeSort fun x y => x.lamport ≤ y.lamport
  have perm : sorted.Perm C.events := List.mergeSort_perm _ _
  have ascending : sorted.Pairwise fun x y => x.lamport ≤ y.lamport := by
    have pairs := @List.pairwise_mergeSort _ (fun x y : Event => x.lamport ≤ y.lamport)
      (fun a b c left right => by simp at *; omega) (fun a b => by simp; omega) C.events
    simpa using pairs
  have parent : ∀ e ∈ sorted, ∀ id ∈ e.parents, ∃ p ∈ sorted, p ∈ C.parentsOf e ∧ p.id = id := by
    intro e member id listed
    have known := perm.subset member
    rw [← C.named e known] at listed
    obtain ⟨p, parent, named⟩ := List.mem_map.mp listed
    exact ⟨p, perm.symm.subset (C.inside e known p parent), parent, named⟩
  refine ⟨⟨sorted, parentsFirst_of_sorted ?_ ascending fun e member id listed => ?_,
    fun e member => ⟨?_, ?_, fun id self => ?_⟩⟩, perm⟩
  · exact (perm.map Event.id).nodup_iff.mpr ids
  · obtain ⟨p, inside, parent, named⟩ := parent e member id listed
    exact ⟨p, inside, named, Parent.lamport (perm.subset member) parent⟩
  · exact Epochcheck.passed (passed (C.passes e (perm.subset member))).2.1
  · exact (C.numbered (perm.subset member)).first.mpr
  · obtain ⟨p, inside, parent, rfl⟩ := parent e member id (selfParent_mem_parents self)
    obtain ⟨creator, seq⟩ := SelfParent.facts (perm.subset member) ⟨parent, self⟩
    exact ⟨p, inside, rfl, creator, seq⟩

/-- Two events that were checked child first. -/
theorem exists_eventDag_pair : ∃ (vv : Validators) (D : EventDag vv),
    D.events.Perm [⟨1, 2, 1, 7, [1], 2, 2⟩, ⟨1, 1, 1, 7, [], 1, 1⟩] := by
  let vv : Validators := ⟨[⟨7, 1⟩], by decide, by decide, by decide, by decide⟩
  let a : Event := ⟨1, 1, 1, 7, [], 1, 1⟩
  let b : Event := ⟨1, 2, 1, 7, [1], 2, 2⟩
  let C : Checked fun _ => (vv, 1) := ⟨[b, a], fun e => if e = b then [a] else [], by decide,
    by decide, by decide⟩
  exact ⟨vv, C.exists_eventDag (by decide)⟩

end Numbering

end Lachesis.Eventcheck
