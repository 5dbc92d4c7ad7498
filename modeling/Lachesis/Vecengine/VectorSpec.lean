import Lachesis.Vecengine.Merging

/-!
What the stored vectors say, for any assignment of branches. `HighestBefore` of an event
spans, branch by branch, the sequence numbers among its ancestors, until two branches of
one creator overlap; `LowestAfter` of an event tells which event of a branch was the
first to arrive that observes it.
-/

namespace Lachesis.Vecengine

open Dag Pos Vecfc

structure Tables where
  branch : EventID → Option Nat
  before : EventID → Option HighestBeforeSeq
  after : EventID → Option LowestAfterSeq

def tables : Callbacks Tables where
  getHighestBefore := fun t id => (t.before id, t)
  getLowestAfter := fun t id => (t.after id, t)
  setHighestBefore := fun t id vec => { t with before := Function.update t.before id (some vec) }
  setLowestAfter := fun t id vec => { t with after := Function.update t.after id (some vec) }
  readEventBranch := fun t id => t.branch id
  setEventBranchID := fun t id b => { t with branch := Function.update t.branch id (some b) }

def noTables : Tables := ⟨fun _ => none, fun _ => none, fun _ => none⟩

variable {vv : Validators} (D : EventDag vv)

section Notions

variable (bi : BranchesInfo) (t : Tables)

def SeqOn (a : Event) (b n : Nat) : Prop :=
  ∃ x, Observes D.events a x ∧ t.branch x.id = some b ∧ x.seq = n

def Clash (a : Event) (m : Nat) : Prop :=
  ∃ b b', b ≠ b' ∧ bi.creatorIdx b = m ∧ bi.creatorIdx b' = m ∧
    (∃ n n', SeqOn D t a b n ∧ SeqOn D t a b' n' ∧ n ≤ n') ∧
    ∃ n n', SeqOn D t a b n ∧ SeqOn D t a b' n' ∧ n' ≤ n

/-- The vector of `a`, computed when there were `width` branches. -/
structure BeforeIs (width : Nat) (a : Event) (vec : HighestBeforeSeq) : Prop where
  beyond : ∀ b, width ≤ b → vec.get b = .empty
  marked : ∀ b < width, Clash D bi t a (bi.creatorIdx b) → vec.get b = .forkDetectedSeq
  covers : ∀ b < width, ¬ Clash D bi t a (bi.creatorIdx b) →
    Covers (SeqOn D t a b) (vec.get b)

open scoped Classical in
noncomputable def firstSeq (L : List Event) (p : Event → Prop) : Nat :=
  ((L.find? fun x => decide (p x)).map Event.seq).getD 0

/-- The tables after the events of `L` have been added in this order. -/
structure Spec (L : List Event) : Prop where
  consistent : bi.Consistent vv
  branch : ∀ x ∈ L, ∃ b, t.branch x.id = some b ∧ b < bi.width ∧
    bi.creatorIdx b = vv.getIdx x.creator
  before : ∀ x ∈ L, ∃ vec width, t.before x.id = some vec ∧ width ≤ bi.width ∧
    BeforeIs D bi t width x vec ∧
    ∃ earlier later, L = earlier ++ x :: later ∧
      ∀ y ∈ earlier ++ [x], ∀ b, t.branch y.id = some b → b < width
  after : ∀ x ∈ L, ∃ vec, t.after x.id = some vec ∧
    ∀ b, vec.get b = firstSeq L fun y => t.branch y.id = some b ∧ Observes D.events y x

/-- On branch `c`, the first event that observes `x` is not above what `a` observes. -/
def Bridged (L : List Event) (a x : Event) (c : Nat) : Prop :=
  (∃ y ∈ L, t.branch y.id = some c ∧ Observes D.events y x) ∧ ∃ n, SeqOn D t a c n ∧
    firstSeq L (fun y => t.branch y.id = some c ∧ Observes D.events y x) ≤ n

end Notions

section FirstSeq

open scoped Classical

variable {L : List Event} {p q : Event → Prop}

theorem firstSeq_congr (same : ∀ x ∈ L, p x ↔ q x) : firstSeq L p = firstSeq L q := by
  unfold firstSeq
  congr 2
  induction L with
  | nil => rfl
  | cons x rest ih => grind

theorem firstSeq_snoc_old (some : ∃ x ∈ L, p x) (e : Event) :
    firstSeq (L ++ [e]) p = firstSeq L p := by
  unfold firstSeq
  rw [List.find?_append]
  cases found : L.find? fun x => decide (p x) with
  | none => grind
  | some x => rfl

theorem find_none (fails : ¬ ∃ x ∈ L, p x) : L.find? (fun x => decide (p x)) = none := by grind

theorem firstSeq_snoc_new (fails : ¬ ∃ x ∈ L, p x) {e : Event} (holds : p e) :
    firstSeq (L ++ [e]) p = e.seq := by
  rw [firstSeq, List.find?_append, find_none fails]
  simp [holds]

theorem firstSeq_none (fails : ¬ ∃ x ∈ L, p x) : firstSeq L p = 0 := by
  rw [firstSeq, find_none fails]
  rfl

theorem firstSeq_some (some : ∃ x ∈ L, p x) :
    ∃ earlier x later, L = earlier ++ x :: later ∧ p x ∧ (∀ y ∈ earlier, ¬ p y) ∧
      firstSeq L p = x.seq := by
  cases found : L.find? fun x => decide (p x) with
  | none => grind
  | some x =>
    obtain ⟨holds, earlier, later, split, before⟩ := List.find?_eq_some_iff_append.mp found
    refine ⟨earlier, x, later, split, by simpa using holds, ?_, ?_⟩
    · intro y member holdsY
      have := before y member
      simp [holdsY] at this
    · unfold firstSeq
      rw [found]
      rfl

theorem firstSeq_ne_zero (positive : ∀ x ∈ L, 0 < x.seq) :
    firstSeq L p ≠ 0 ↔ ∃ x ∈ L, p x := by
  constructor
  · intro nonzero
    by_contra none
    exact nonzero (firstSeq_none none)
  · intro some
    obtain ⟨earlier, x, later, split, _, _, same⟩ := firstSeq_some some
    have := positive x (by simp [split])
    omega

end FirstSeq

section Congruence

variable {D} {bi bi' : BranchesInfo} {t t' : Tables} {a : Event}

theorem seqOn_congr (same : ∀ y, Observes D.events a y → t'.branch y.id = t.branch y.id)
    {b n : Nat} : SeqOn D t' a b n ↔ SeqOn D t a b n := by
  constructor
  · rintro ⟨x, observes, branch, seq⟩
    exact ⟨x, observes, same x observes ▸ branch, seq⟩
  · rintro ⟨x, observes, branch, seq⟩
    exact ⟨x, observes, (same x observes).trans branch, seq⟩

variable {m : Nat}

theorem clash_congr (same : ∀ y, Observes D.events a y → t'.branch y.id = t.branch y.id)
    (owners : ∀ y b, Observes D.events a y → t.branch y.id = some b → bi'.creatorIdx b =
      bi.creatorIdx b) :
    Clash D bi' t' a m ↔ Clash D bi t a m := by
  have owner : ∀ {b n}, SeqOn D t a b n → bi'.creatorIdx b = bi.creatorIdx b := by
    rintro b n ⟨y, observes, branch, _⟩
    exact owners y b observes branch
  unfold Clash
  simp only [seqOn_congr same]
  grind

theorem beforeIs_congr {width : Nat} {vec : HighestBeforeSeq}
    (same : ∀ y, Observes D.events a y → t'.branch y.id = t.branch y.id)
    (within : ∀ y b, Observes D.events a y → t.branch y.id = some b → b < bi.width)
    (grows : bi.Extends bi') (below : width ≤ bi.width) (is : BeforeIs D bi t width a vec) :
    BeforeIs D bi' t' width a vec := by
  have clash : ∀ m, Clash D bi' t' a m ↔ Clash D bi t a m := fun m => clash_congr same
    fun y b observes branch => grows.creatorIdx b (within y b observes branch)
  refine ⟨is.beyond, fun b inside => ?_, fun b inside => ?_⟩
  · rw [clash, grows.creatorIdx b (by omega)]
    exact is.marked b inside
  · rw [clash, grows.creatorIdx b (by omega)]
    intro quiet
    exact (is.covers b inside quiet).congr fun n => (seqOn_congr same).symm

theorem clash_mono {a x : Event} (observes : Observes D.events a x) (clash : Clash D bi t x m) :
    Clash D bi t a m := by
  have on : ∀ {b n}, SeqOn D t x b n → SeqOn D t a b n := by
    rintro b n ⟨y, path, rest⟩
    exact ⟨y, observes.trans path, rest⟩
  obtain ⟨b, b', different, left, right, ⟨n, n', low, low', le⟩, m, m', high, high', ge⟩ := clash
  exact ⟨b, b', different, left, right, ⟨n, n', on low, on low', le⟩, m, m', on high, on high', ge⟩

end Congruence

section NewEvent

variable {D} {bi later : BranchesInfo} {t : Tables} {L : List Event} {e : Event} {b : Nat}

variable {x : Event}

theorem observes_head {y : Event} :
    Observes D.events x y ↔ y = x ∨ ∃ p, Parent D.events x p ∧ Observes D.events p y := by
  unfold Observes
  rw [Relation.ReflTransGen.cases_head_iff]
  exact or_congr_left eq_comm

theorem parent_of_mem (received : D.Received (L ++ [e])) {p : EventID} (member : p ∈ e.parents) :
    ∃ x ∈ L, x.id = p ∧ Parent D.events e x := by
  obtain ⟨before, _, parents, _⟩ := received.snoc
  obtain ⟨x, inside, rfl⟩ := parents p member
  exact ⟨x, inside, rfl, before.inside x inside, member⟩

theorem parent_mem (received : D.Received (L ++ [e])) (parent : Parent D.events e x) : x ∈ L := by
  obtain ⟨before, _, parents, _⟩ := received.snoc
  obtain ⟨y, inside, same⟩ := parents x.id parent.2
  exact EventDag.ids (before.inside y inside) parent.1 same ▸ inside

def Tables.withBranch (t : Tables) (e : Event) (b : Nat) : Tables :=
  { t with branch := Function.update t.branch e.id (some b) }

theorem withBranch_new : (t.withBranch e b).branch e.id = some b := by
  simp [Tables.withBranch]

theorem withBranch_old (received : D.Received (L ++ [e])) (inside : x ∈ L) :
    (t.withBranch e b).branch x.id = t.branch x.id := by
  have fresh := (parentsFirst_snoc.mp received.ordered).2.2 x inside
  simp [Tables.withBranch, Function.update_of_ne fresh]

theorem seqOn_new (received : D.Received (L ++ [e])) {b' n : Nat} :
    SeqOn D (t.withBranch e b) e b' n ↔ (b' = b ∧ n = e.seq) ∨
      ∃ x, Parent D.events e x ∧ SeqOn D t x b' n := by
  have old : ∀ x, Parent D.events e x → ∀ y, Observes D.events x y →
      (t.withBranch e b).branch y.id = t.branch y.id := fun x parent y observes =>
    withBranch_old received (received.snoc.1.observes (parent_mem received parent) observes)
  constructor
  · rintro ⟨y, observes, branch, rfl⟩
    rcases observes_head.mp observes with rfl | ⟨x, parent, rest⟩
    · rw [withBranch_new, Option.some.injEq] at branch
      exact Or.inl ⟨branch.symm, rfl⟩
    · exact Or.inr ⟨x, parent, y, rest, old x parent y rest ▸ branch, rfl⟩
  · rintro (⟨rfl, rfl⟩ | ⟨x, parent, y, rest, branch, seq⟩)
    · exact ⟨e, .refl, withBranch_new, rfl⟩
    · exact ⟨y, .head parent rest, (old x parent y rest).trans branch, seq⟩

theorem loadParents_tables (known : ∀ p ∈ e.parents, (t.branch p).isSome) :
    loadParents tables e.parents t = .ok (e.parents.map fun p => (p, t.before p), t) := by
  have each : ∀ ps : List EventID, (∀ p ∈ ps, (t.branch p).isSome) →
      loadParents tables ps t = .ok (ps.map fun p => (p, t.before p), t) := by
    intro ps
    induction ps with
    | nil => intro _; rfl
    | cons p rest ih =>
      intro known
      obtain ⟨b, found⟩ := Option.isSome_iff_exists.mp (known p List.mem_cons_self)
      have tail := ih fun q member => known q (List.mem_cons_of_mem p member)
      have read : getEventBranchID tables t p = .ok b := by
        simp [getEventBranchID, tables, found]
      have vec : tables.getHighestBefore t p = (t.before p, t) := rfl
      simp only [loadParents, read, vec, tail, bind, Except.bind, pure, Except.pure,
        List.map_cons]
  exact each e.parents known

theorem Spec.vector (spec : Spec D bi t L) (received : D.Received L) (inside : x ∈ L) :
    ∃ vec width, t.before x.id = some vec ∧ width ≤ bi.width ∧
      BeforeIs D bi t width x vec ∧
      ∀ y, Observes D.events x y → ∀ b, t.branch y.id = some b → b < width := by
  obtain ⟨vec, width, stored, narrow, is, earlier, later, rfl, below⟩ := spec.before x inside
  have start : D.Received (earlier ++ [x]) := by
    refine ⟨?_, fun y member => received.inside y ?_⟩
    · have ordered := received.ordered
      rw [List.append_cons, parentsFirst_append] at ordered
      exact ordered.1
    · rw [List.append_cons]
      exact List.mem_append_left _ member
  refine ⟨vec, width, stored, narrow, is, fun y observes b branch => below y ?_ b branch⟩
  exact start.observes (by simp) observes

section Collected

variable (spec : Spec D bi t L) (received : D.Received (L ++ [e])) (grows : bi.Extends later)
include spec received grows

theorem collected_covers {b' : Nat}
    (quiet : ∀ x, Parent D.events e x → ¬ Clash D bi t x (later.creatorIdx b')) :
    Covers (SeqOn D (t.withBranch e b) e b')
      ((e.parents.map fun p => ((t.before p).getD ⟨[]⟩).get b').foldl HighestBeforeSeq.merge
        (if b' = b then ⟨e.seq, e.seq⟩ else .empty)) := by
  have positive : 0 < e.seq := EventDag.seq_pos (received.inside e (by simp))
  have own : Covers (fun n => b' = b ∧ n = e.seq)
      (if b' = b then ⟨e.seq, e.seq⟩ else .empty) := by
    by_cases same : b' = b
    · rw [if_pos same]
      exact (Covers.single positive).congr fun n => by simp [same]
    · rw [if_neg same]
      exact .ofEmpty fun n => by simp [same]
  have each : ∀ p ∈ e.parents,
      Covers (fun n => ∃ x, Parent D.events e x ∧ x.id = p ∧ SeqOn D t x b' n)
        (((t.before p).getD ⟨[]⟩).get b') := by
    intro p member
    obtain ⟨x, inside, rfl, parent⟩ := parent_of_mem received member
    obtain ⟨vec, width, stored, narrow, is, below⟩ := spec.vector received.snoc.1 inside
    rw [stored, Option.getD_some]
    have alone : ∀ n, SeqOn D t x b' n ↔
        ∃ y, Parent D.events e y ∧ y.id = x.id ∧ SeqOn D t y b' n := by
      intro n
      constructor
      · intro on
        exact ⟨x, parent, rfl, on⟩
      · rintro ⟨y, parentY, same, on⟩
        exact EventDag.ids parentY.1 parent.1 same ▸ on
    by_cases inWidth : b' < width
    · refine (is.covers b' inWidth ?_).congr alone
      rw [← grows.creatorIdx b' (by omega)]
      exact quiet x parent
    · rw [is.beyond b' (by omega)]
      refine .ofEmpty fun n on => ?_
      obtain ⟨y, observes, branch, _⟩ := (alone n).mpr on
      exact inWidth (below y observes b' branch)
  refine (Covers.foldl_merge e.parents own each).congr fun n => ?_
  rw [seqOn_new received]
  refine or_congr_right ⟨?_, ?_⟩
  · rintro ⟨p, _, x, parent, _, on⟩
    exact ⟨x, parent, on⟩
  · rintro ⟨x, parent, on⟩
    exact ⟨x.id, parent.2, x, parent, rfl, on⟩

theorem collected_marked {x : Event} (parent : Parent D.events e x) {m : Nat}
    (clash : Clash D bi t x m) : ∃ a a', a ≠ a' ∧ (a < later.width ∧ later.creatorIdx a = m) ∧
      (a' < later.width ∧ later.creatorIdx a' = m) ∧ ∀ s,
      (e.parents.map fun p => ((t.before p).getD ⟨[]⟩).get a).foldl HighestBeforeSeq.merge s =
        .forkDetectedSeq := by
  obtain ⟨vec, width, stored, narrow, is, below⟩ :=
    spec.vector received.snoc.1 (parent_mem received parent)
  have wide := grows.width
  have within : ∀ {a n}, SeqOn D t x a n → a < width := by
    rintro a n ⟨y, observes, branch, _⟩
    exact below y observes a branch
  obtain ⟨a, a', different, owner, owner', ⟨_, _, on, on', _⟩, _⟩ := id clash
  have inA := within on
  have inA' := within on'
  refine ⟨a, a', different, ⟨by omega, ?_⟩, ⟨by omega, ?_⟩, fun s => foldl_merge_marked _ s ?_⟩
  · rw [grows.creatorIdx a (by omega), owner]
  · rw [grows.creatorIdx a' (by omega), owner']
  · refine List.mem_map.mpr ⟨x.id, parent.2, ?_⟩
    rw [stored, Option.getD_some]
    exact is.marked a inA (owner ▸ clash)

theorem newBefore_is (consistent : later.Consistent vv) (below : b < later.width) :
    ∃ vec, collectParents later.width (e.parents.map fun p => (p, t.before p))
        ((HighestBeforeSeq.new bi.width).initWithEvent b e) = .ok vec ∧
      BeforeIs D later (t.withBranch e b) later.width e (highestBefore vv later vec) := by
  have stored : (e.parents.map fun p => (p, t.before p)) =
      (e.parents.map fun p => (p, (t.before p).getD ⟨[]⟩)).map fun v => (v.1, some v.2) := by
    rw [List.map_map]
    refine List.map_congr_left fun p member => ?_
    obtain ⟨x, inside, rfl, _⟩ := parent_of_mem received member
    obtain ⟨vec, _, found, _⟩ := spec.vector received.snoc.1 inside
    simp [found]
  obtain ⟨vec, run, entries⟩ := collectParents_get later.width
    (e.parents.map fun p => (p, (t.before p).getD ⟨[]⟩))
    ((HighestBeforeSeq.new bi.width).initWithEvent b e)
  simp only [List.map_map, Function.comp_def, HighestBeforeSeq.initWithEvent,
    HighestBeforeSeq.get_set, HighestBeforeSeq.get_new] at entries
  refine ⟨vec, stored ▸ run, ?_⟩
  have clashOld : ∀ x, Parent D.events e x → ∀ m,
      Clash D later (t.withBranch e b) x m ↔ Clash D bi t x m := by
    intro x parent m
    have inside := fun y observes =>
      received.snoc.1.observes (y := y) (parent_mem received parent) observes
    refine clash_congr (fun y observes => withBranch_old received (inside y observes)) ?_
    intro y b' observes branch
    obtain ⟨b'', found, narrow, _⟩ := spec.branch y (inside y observes)
    rw [branch, Option.some.injEq] at found
    exact grows.creatorIdx b' (found ▸ narrow)
  have within : ∀ {a n}, SeqOn D (t.withBranch e b) e a n → a < later.width := by
    intro a n on
    rcases (seqOn_new received).mp on with ⟨rfl, _⟩ | ⟨x, parent, y, observes, branch, _⟩
    · exact below
    · obtain ⟨a', found, narrow, _⟩ :=
        spec.branch y (received.snoc.1.observes (parent_mem received parent) observes)
      rw [branch, Option.some.injEq] at found
      exact (found ▸ narrow).trans_le grows.width
  -- Whether a parent has caught the creator decides which of the two loops does the work.
  have quietCovers : ∀ m, (∀ x, Parent D.events e x → ¬ Clash D bi t x m) →
      ∀ a < later.width, later.creatorIdx a = m →
        Covers (SeqOn D (t.withBranch e b) e a) (vec.get a) := by
    rintro m quiet a inside rfl
    rw [entries a, if_pos inside]
    exact collected_covers spec received grows quiet
  have caught : ∀ m < vv.len, Clash D later (t.withBranch e b) e m ↔
      later.atLeastOneFork vv = true ∧
        (spreadMarks later vec m = true ∨ detectMarks later vec m = true) := by
    intro m listed
    by_cases noisy : ∃ x, Parent D.events e x ∧ Clash D bi t x m
    · obtain ⟨x, parent, clash⟩ := noisy
      have seen := clash_mono (.single parent) ((clashOld x parent m).mpr clash)
      obtain ⟨a, a', different, ⟨inA, owner⟩, ⟨inA', owner'⟩, marked⟩ :=
        collected_marked spec received grows parent clash
      obtain ⟨forked, many⟩ := forked_of_two consistent different inA inA' (owner.trans owner'.symm)
      refine iff_of_true seen ⟨forked, Or.inl ?_⟩
      refine (spreadMarks_iff consistent listed).mpr ⟨owner ▸ many, a, inA, owner, ?_⟩
      rw [entries a, if_pos inA]
      exact marked _
    · push Not at noisy
      have covers := quietCovers m noisy
      have unspread : spreadMarks later vec m ≠ true := by
        rw [ne_eq, spreadMarks_iff consistent listed]
        rintro ⟨_, a, inA, owner, mark⟩
        have unmarked := (covers a inA owner).unmarked
        rw [mark] at unmarked
        simp at unmarked
      rw [or_iff_right unspread, detectMarks_iff consistent listed covers]
      constructor
      · rintro ⟨a, a', different, owner, owner', low, high⟩
        obtain ⟨_, _, on, on', _⟩ := id low
        exact ⟨(forked_of_two consistent different (within on) (within on')
          (owner.trans owner'.symm)).1, a, a', different, ⟨within on, owner⟩,
          ⟨within on', owner'⟩, low, high⟩
      · rintro ⟨_, a, a', different, own, own', low, high⟩
        exact ⟨a, a', different, own.2, own'.2, low, high⟩
  refine ⟨fun a past => ?_, fun a inside clash => ?_, fun a inside quiet => ?_⟩
  · rw [get_highestBefore consistent, if_neg (by omega), entries a, if_neg (by omega),
      if_neg (by omega)]
  · obtain ⟨forked, marks⟩ := (caught _ (consistent.known a inside)).mp clash
    rw [get_highestBefore consistent, if_pos ⟨forked, inside, marks⟩]
  · have unmarked := mt (caught _ (consistent.known a inside)).mpr quiet
    rw [get_highestBefore consistent, if_neg fun marked => unmarked ⟨marked.1, marked.2.2⟩]
    refine quietCovers _ (fun x parent clash => quiet ?_) a inside rfl
    exact clash_mono (.single parent) ((clashOld x parent _).mpr clash)

end Collected

section Walk

def parentsOf (source : EventSource) (id : EventID) : List EventID :=
  match source.getEvent id with
  | none => []
  | some event => event.parents

variable {source : EventSource} (held : D.HeldBy source)
variable {x : Event}

include held

theorem parentsOf_mem (inside : x ∈ D.events) : parentsOf source x.id = x.parents := by
  simp [parentsOf, held x inside]

theorem reach_iff {y : Event} (received : D.Received L) (inX : x ∈ L) (inY : y ∈ D.events) :
    Relation.ReflTransGen (fun i j => j ∈ parentsOf source i) x.id y.id ↔
      Observes D.events x y := by
  constructor
  · intro path
    have ends : ∀ i, Relation.ReflTransGen (fun i j => j ∈ parentsOf source i) x.id i →
        ∃ z ∈ L, z.id = i ∧ Observes D.events x z := by
      intro i path
      induction path with
      | refl => exact ⟨x, inX, rfl, .refl⟩
      | tail _ step ih =>
        obtain ⟨z, inZ, rfl, observes⟩ := ih
        rw [parentsOf_mem held (received.inside z inZ)] at step
        obtain ⟨w, inW, rfl⟩ := parentsFirst_closed received.ordered z inZ _ step
        exact ⟨w, inW, rfl, observes.tail ⟨received.inside w inW, step⟩⟩
    obtain ⟨z, inZ, same, observes⟩ := ends y.id path
    exact EventDag.ids (received.inside z inZ) inY same ▸ observes
  · intro observes
    have inside : ∀ z, Observes D.events x z → z ∈ D.events := fun z path =>
      received.inside z (received.observes inX path)
    clear inY
    induction observes with
    | refl => exact .refl
    | @tail z w path step ih => exact ih.tail (by rw [parentsOf_mem held (inside z path)]; exact step.2)

def walkClosed (t : Tables) (b : Nat) (id : EventID) : Bool :=
  match t.after id with
  | none => false
  | some vec => decide (vec.get b ≠ 0)

structure Walked (t : Tables) (b : Nat) (e : Event) (s : Tables) (entered : List EventID) :
    Prop where
  branch : s.branch = t.branch
  before : s.before = t.before
  after : ∀ id, s.after id =
    if id ∈ entered then (t.after id).map fun vec => vec.set b e.seq else t.after id

theorem dfsFuel_enough (received : D.Received (L ++ [e])) :
    StackWalk.budget (parentsOf source) (L.map Event.id).toFinset e.parents.reverse [] ≤
      dfsFuel source e := by
  have nodup : (D.events.map Event.id).Nodup :=
    (parentsFirst_nodup D.ordered).map_on fun x inX y inY same => EventDag.ids inX inY same
  have inside : (L.map Event.id).toFinset ⊆ (D.events.map Event.id).toFinset := by
    intro id member
    obtain ⟨x, inX, rfl⟩ := List.mem_map.mp (List.mem_toFinset.mp member)
    exact List.mem_toFinset.mpr (List.mem_map_of_mem (received.snoc.1.inside x inX))
  have total : ∑ id ∈ (D.events.map Event.id).toFinset, (parentsOf source id).length =
      (D.events.map fun event => event.parents.length).sum := by
    rw [List.sum_toFinset _ nodup, List.map_map]
    refine congrArg List.sum (List.map_congr_left fun x inX => ?_)
    simp [parentsOf_mem held inX]
  have more : (D.events.map fun event => event.parents.length).sum ≤
      (source.events.map fun event => event.parents.length).sum := by
    have part := (parentsFirst_nodup D.ordered).subperm fun x inX => getEvent_mem (held x inX)
    obtain ⟨picked, perm, sub⟩ := part
    rw [← (perm.map _).sum_eq]
    exact (sub.map _).sum_le_sum fun _ _ => Nat.zero_le _
  simp only [StackWalk.budget, dfsFuel, List.length_reverse, List.toFinset_nil,
    Finset.sdiff_empty]
  exact Nat.add_le_add_left
    ((Finset.sum_le_sum_of_subset inside).trans (total.le.trans more)) _

variable (spec : Spec D bi t L) (received : D.Received (L ++ [e]))
include spec received

omit held in
theorem walkClosed_iff (inside : x ∈ L) :
    walkClosed t b x.id = true ↔ ∃ y ∈ L, t.branch y.id = some b ∧ Observes D.events y x := by
  obtain ⟨vec, stored, entries⟩ := spec.after x inside
  simp only [walkClosed, stored, decide_eq_true_eq, entries b]
  exact firstSeq_ne_zero fun y member => EventDag.seq_pos (received.snoc.1.inside y member)

theorem dfsSubgraph_walked : ∃ s entered,
    dfsSubgraph tables source b e t = .ok s ∧ Walked t b e s entered ∧
    ∀ x ∈ L, x.id ∈ entered ↔ walkClosed t b x.id = false ∧ Observes D.events e x := by
  obtain ⟨old, _, parents, _⟩ := received.snoc
  have positive : 0 < e.seq := EventDag.seq_pos (received.inside e (by simp))
  have known : ∀ id ∈ (L.map Event.id).toFinset, ∃ x ∈ L, x.id = id := by simp_all
  have member : ∀ x ∈ L, x.id ∈ (L.map Event.id).toFinset := fun x inX =>
    List.mem_toFinset.mpr (List.mem_map_of_mem inX)
  have stack : ∀ id ∈ e.parents.reverse, id ∈ (L.map Event.id).toFinset := by grind
  have inside : ∀ id ∈ (L.map Event.id).toFinset, ∀ j ∈ parentsOf source id,
      j ∈ (L.map Event.id).toFinset := by
    intro id isIn j pushed
    obtain ⟨x, inX, rfl⟩ := known id isIn
    rw [parentsOf_mem held (old.inside x inX)] at pushed
    obtain ⟨y, inY, rfl⟩ := parentsFirst_closed old.ordered x inX j pushed
    exact member y inY
  have enough := dfsFuel_enough held received
  obtain ⟨s, run, walked⟩ := StackWalk.walk_trail (parentsOf source) (walkClosed t b)
    (onWalk tables source b e) .outOfFuel (Walked t b e) inside
    (by
      intro s seen id walked isIn stop
      obtain ⟨x, inX, rfl⟩ := known id isIn
      obtain ⟨vec, stored, _⟩ := spec.after x inX
      refine ⟨s, ?_, walked⟩
      have read := walked.after x.id
      rw [stored] at read
      by_cases entered : x.id ∈ seen
      · rw [if_pos entered, Option.map_some] at read
        simp [onWalk, tables, read, LowestAfterSeq.visit, positive.ne']
      · rw [if_neg entered] at read
        have shut : vec.get b ≠ 0 := by
          simpa [walkClosed, stored] using stop.resolve_right entered
        simp [onWalk, tables, read, LowestAfterSeq.visit, shut])
    (by
      intro s seen id walked isIn isOpen fresh
      obtain ⟨x, inX, rfl⟩ := known id isIn
      obtain ⟨vec, stored, _⟩ := spec.after x inX
      have read := walked.after x.id
      rw [stored, if_neg fresh] at read
      have zero : vec.get b = 0 := by simpa [walkClosed, stored] using isOpen
      refine ⟨{ s with after := Function.update s.after x.id (some (vec.set b e.seq)) }, ?_,
        walked.branch, walked.before, fun j => ?_⟩
      · simp [onWalk, tables, read, LowestAfterSeq.visit, zero,
          held x (old.inside x inX), parentsOf]
      · by_cases same : j = x.id
        · subst j
          simp [stored]
        · simp only [Function.update_of_ne same, walked.after j]
          simp [same])
    (dfsFuel source e) e.parents.reverse [] t ⟨rfl, rfl, by simp⟩ stack enough
  refine ⟨s, _, run, walked, fun x inX => ?_⟩
  rw [StackWalk.mem_trail _ _ inside ?downward stack enough]
  case downward =>
    intro id isIn shut j pushed
    obtain ⟨x, inX, rfl⟩ := known id isIn
    rw [parentsOf_mem held (old.inside x inX)] at pushed
    obtain ⟨y, inY, rfl⟩ := parentsFirst_closed old.ordered x inX j pushed
    obtain ⟨z, inZ, branch, observes⟩ := (walkClosed_iff spec received inX).mp shut
    exact (walkClosed_iff spec received inY).mpr
      ⟨z, inZ, branch, observes.tail ⟨old.inside y inY, pushed⟩⟩
  refine and_congr_right fun _ => ?_
  constructor
  · rintro ⟨p, pushed, path⟩
    obtain ⟨y, inY, rfl, parent⟩ := parent_of_mem received (List.mem_reverse.mp pushed)
    exact .head parent ((reach_iff held old inY (old.inside x inX)).mp path)
  · intro observes
    rcases observes_head.mp observes with rfl | ⟨y, parent, rest⟩
    · exact absurd inX received.snoc.2.2.2
    · exact ⟨y.id, List.mem_reverse.mpr parent.2,
        (reach_iff held old (parent_mem received parent) (old.inside x inX)).mpr rest⟩

end Walk

def selfBranch (t : Tables) (e : Event) : Option Nat := e.selfParent.bind t.branch

theorem selfBranch_known (spec : Spec D bi t L) (received : D.Received (L ++ [e])) :
    (match e.selfParent with
      | none => selfBranch t e = none
      | some p => (selfBranch t e).isSome ∧ tables.readEventBranch t p = selfBranch t e) ∧
    ∀ b, selfBranch t e = some b → b < bi.width ∧ bi.creatorIdx b = vv.getIdx e.creator := by
  obtain ⟨old, inside, parents, _⟩ := received.snoc
  cases self : e.selfParent with
  | none => simp [selfBranch, self]
  | some p =>
    obtain ⟨x, inX, rfl⟩ := parents p (selfParent_mem_parents self)
    obtain ⟨b, stored, below, owner⟩ := spec.branch x inX
    have creator := (EventDag.SelfParent.facts inside ⟨old.inside x inX, self⟩).1
    simp only [selfBranch, self, Option.bind_some, stored]
    refine ⟨⟨rfl, stored⟩, fun b' same => ?_⟩
    cases same
    exact ⟨below, creator ▸ owner⟩

/-- Adding an event succeeds and extends what the tables say. -/
theorem fillEventVectors_spec {source : EventSource} (held : D.HeldBy source)
    (spec : Spec D bi t L) (received : D.Received (L ++ [e])) :
    ∃ b later t', fillEventVectors tables source vv bi t e = .ok (later, t') ∧
      Choice bi (vv.getIdx e.creator) (selfBranch t e) e b later ∧ bi.Extends later ∧
      t'.branch = (t.withBranch e b).branch ∧ (∀ x ∈ L, t'.before x.id = t.before x.id) ∧
      Spec D later t' (L ++ [e]) := by
  obtain ⟨old, inside, parents, fresh⟩ := received.snoc
  have freshId : ∀ x ∈ L, x.id ≠ e.id := (parentsFirst_snoc.mp received.ordered).2.2
  have listed := getIdx_lt (D.valid e inside).listed
  obtain ⟨known, selfKnown⟩ := selfBranch_known spec received
  obtain ⟨b, later, found, choice⟩ := fillGlobalBranchID_choice (c := tables) (s := t)
    spec.consistent (vv.getIdx e.creator) known
  obtain ⟨consistent, grows, below, owner⟩ := choice.sound spec.consistent listed selfKnown
  have loaded : loadParents tables e.parents t =
      .ok (e.parents.map fun p => (p, t.before p), t) := by
    refine loadParents_tables fun p member => ?_
    obtain ⟨x, inX, rfl⟩ := parents p member
    obtain ⟨b', stored, _⟩ := spec.branch x inX
    simp [stored]
  obtain ⟨vec, collected, is⟩ := newBefore_is spec received grows consistent below
  obtain ⟨s, entered, walk, walked, members⟩ := dfsSubgraph_walked (b := b) held spec received
  refine ⟨b, later, ⟨Function.update s.branch e.id (some b),
      Function.update s.before e.id (some (highestBefore vv later vec)),
      Function.update s.after e.id (some ((LowestAfterSeq.new bi.width).initWithEvent b e))⟩,
    ?_, choice, grows, ?_, ?_, consistent, ?_, ?_, ?_⟩
  · simp only [fillEventVectors, found, loaded, collected, walk, bind, Except.bind, pure,
      Except.pure]
    rfl
  · simp [Tables.withBranch, walked.branch]
  · intro x inX
    simp [Function.update_of_ne (freshId x inX), walked.before]
  all_goals
    have branch : Function.update s.branch e.id (some b) = (t.withBranch e b).branch := by
      simp [Tables.withBranch, walked.branch]
    simp only [branch]
  · -- branches
    intro x member
    rcases List.mem_append.mp member with inX | new
    · obtain ⟨b', stored, narrow, owner'⟩ := spec.branch x inX
      refine ⟨b', (withBranch_old received inX).trans stored, narrow.trans_le grows.width, ?_⟩
      rw [grows.creatorIdx b' narrow, owner']
    · rw [List.mem_singleton.mp new]
      exact ⟨b, withBranch_new, below, owner⟩
  · -- `HighestBefore`
    intro x member
    rcases List.mem_append.mp member with inX | new
    · obtain ⟨vec', width, stored, narrow, is', earlier, rest, split, within⟩ := spec.before x inX
      have early : ∀ y ∈ earlier ++ [x], y ∈ L := by grind
      refine ⟨vec', width, ?_, narrow.trans grows.width, ?_, earlier, rest ++ [e], ?_, ?_⟩
      · simp [Function.update_of_ne (freshId x inX), walked.before, stored]
      · refine beforeIs_congr (fun y observes => ?_) (fun y b' observes stored' => ?_) grows
          narrow is'
        · exact withBranch_old received (old.observes inX observes)
        · obtain ⟨b'', found', narrow', _⟩ := spec.branch y (old.observes inX observes)
          rw [stored', Option.some.injEq] at found'
          exact found' ▸ narrow'
      · simp [split]
      · intro y inY b' stored'
        rw [withBranch_old received (early y inY)] at stored'
        exact within y inY b' stored'
    · rw [List.mem_singleton.mp new]
      refine ⟨highestBefore vv later vec, later.width, by simp, le_rfl,
        ⟨is.beyond, is.marked, is.covers⟩, L, [], by simp, ?_⟩
      intro y inY b' stored'
      rcases List.mem_append.mp inY with inL | last
      · rw [withBranch_old received inL] at stored'
        obtain ⟨b'', found', narrow', _⟩ := spec.branch y inL
        rw [stored', Option.some.injEq] at found'
        exact (found' ▸ narrow').trans_le grows.width
      · rw [List.mem_singleton.mp last, withBranch_new, Option.some.injEq] at stored'
        exact stored' ▸ below
  · -- `LowestAfter`
    intro x member
    rcases List.mem_append.mp member with inX | new
    · obtain ⟨vec', stored, entries⟩ := spec.after x inX
      have oldSeq : ∀ b', firstSeq L (fun y => (t.withBranch e b).branch y.id = some b' ∧
          Observes D.events y x) = vec'.get b' := by
        intro b'
        rw [entries b']
        exact firstSeq_congr fun y inY => by rw [withBranch_old received inY]
      have oldSome : ∀ b', (∃ y ∈ L, (t.withBranch e b).branch y.id = some b' ∧
          Observes D.events y x) ↔ vec'.get b' ≠ 0 := by
        intro b'
        rw [← oldSeq b']
        exact (firstSeq_ne_zero fun y inY => EventDag.seq_pos (old.inside y inY)).symm
      have shut : walkClosed t b x.id = false ↔ vec'.get b = 0 := by
        simp [walkClosed, stored]
      have enters := members x inX
      rw [shut] at enters
      refine ⟨if x.id ∈ entered then vec'.set b e.seq else vec', ?_, fun b' => ?_⟩
      · simp only [Function.update_of_ne (freshId x inX), walked.after, stored]
        split <;> rfl
      by_cases zero : vec'.get b' = 0
      · have fails := mt (oldSome b').mp (not_not.mpr zero)
        by_cases hit : b' = b ∧ Observes D.events e x
        · obtain ⟨rfl, observes⟩ := hit
          rw [if_pos (enters.mpr ⟨zero, observes⟩), firstSeq_snoc_new fails
            ⟨withBranch_new, observes⟩]
          simp
        · have kept : (if x.id ∈ entered then vec'.set b e.seq else vec').get b' = 0 := by
            split
            · simp_all
            · exact zero
          rw [kept, firstSeq_none]
          rintro ⟨y, inY, stored', observes⟩
          rcases List.mem_append.mp inY with inL | last
          · exact fails ⟨y, inL, stored', observes⟩
          · rw [List.mem_singleton.mp last] at stored' observes
            rw [withBranch_new, Option.some.injEq] at stored'
            exact hit ⟨stored'.symm, observes⟩
      · rw [firstSeq_snoc_old ((oldSome b').mpr zero), oldSeq b']
        split
        · next seen =>
          have different : b' ≠ b := fun same => zero (same ▸ (enters.mp seen).1)
          simp [different]
        · rfl
    · rw [List.mem_singleton.mp new]
      refine ⟨(LowestAfterSeq.new bi.width).initWithEvent b e, by simp, fun b' => ?_⟩
      have none : ¬ ∃ y ∈ L, (t.withBranch e b).branch y.id = some b' ∧
          Observes D.events y e := by
        rintro ⟨y, inY, _, observes⟩
        exact fresh (old.observes inY observes)
      simp only [LowestAfterSeq.initWithEvent, LowestAfterSeq.get_set, LowestAfterSeq.get_new]
      by_cases same : b' = b
      · subst b'
        rw [if_pos rfl, firstSeq_snoc_new none ⟨withBranch_new, .refl⟩]
      · rw [if_neg same, firstSeq_none]
        rintro ⟨y, inY, stored', observes⟩
        rcases List.mem_append.mp inY with inL | last
        · exact none ⟨y, inL, stored', observes⟩
        · rw [List.mem_singleton.mp last, withBranch_new, Option.some.injEq] at stored'
          exact same stored'.symm

theorem noTables_spec : Spec D (newInitialBranchesInfo vv) noTables [] where
  consistent := BranchesInfo.initial_consistent vv
  branch := by simp
  before := by simp
  after := by simp

end NewEvent

end Lachesis.Vecengine
