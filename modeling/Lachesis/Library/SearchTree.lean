import Mathlib

/-!
Binary search trees of any shape. The walks from the root are described by the pairs in
key order; how a tree is balanced is left to whoever puts pairs in.
-/

namespace SearchTree

inductive Tree (K V : Type) where
  | leaf
  | node (left : Tree K V) (key : K) (value : V) (right : Tree K V)
  deriving DecidableEq

namespace Tree

variable {K V : Type}

/-- The pairs from the left to the right. -/
def toList : Tree K V → List (K × V)
  | leaf => []
  | node left key value right => left.toList ++ (key, value) :: right.toList

def leftmost : Tree K V → Option (K × V)
  | leaf => none
  | node left key value _ =>
    match left.leftmost with
    | some first => some first
    | none => some (key, value)

theorem leftmost_eq (t : Tree K V) : t.leftmost = t.toList.head? := by
  induction t with
  | leaf => rfl
  | node left key value right ihLeft _ =>
    rw [leftmost, ihLeft, toList, List.head?_append]
    cases left.toList.head? <;> rfl

variable [LinearOrder K]

def Ordered (t : Tree K V) : Prop := t.toList.Pairwise fun a b => a.1 < b.1

def find (k : K) : Tree K V → Option V
  | leaf => none
  | node left key value right =>
    if k = key then some value else if k < key then left.find k else right.find k

/-- The lowest pair whose key is not below `k`; `best` is the lowest one on the way. -/
def ceiling (k : K) (best : Option (K × V)) : Tree K V → Option (K × V)
  | leaf => best
  | node left key value right =>
    if k = key then some (key, value)
    else if k < key then left.ceiling k (some (key, value)) else right.ceiling k best

/-- The subtree at the node of `k` with the pairs above it, the nearest first. -/
def locate (k : K) : Tree K V → List (K × V) → Option (Tree K V × List (K × V))
  | leaf, _ => none
  | node left key value right, above =>
    if k = key then some (node left key value right, above)
    else if k < key then left.locate k ((key, value) :: above)
    else right.locate k ((key, value) :: above)

variable {left right : Tree K V} {key : K} {value : V}

theorem Ordered.parts (ordered : (node left key value right).Ordered) :
    left.Ordered ∧ right.Ordered ∧ (∀ x ∈ left.toList, x.1 < key) ∧
      ∀ x ∈ right.toList, key < x.1 := by
  obtain ⟨lower, upper, across⟩ := List.pairwise_append.mp ordered
  obtain ⟨above, rest⟩ := List.pairwise_cons.mp upper
  exact ⟨lower, rest, fun x member => across x member _ List.mem_cons_self, above⟩

theorem Ordered.join (lower : left.Ordered) (upper : right.Ordered)
    (below : ∀ x ∈ left.toList, x.1 < key) (above : ∀ x ∈ right.toList, key < x.1) :
    (node left key value right).Ordered := by
  refine List.pairwise_append.mpr ⟨lower, List.pairwise_cons.mpr ⟨above, upper⟩, ?_⟩
  intro x member y inside
  rcases List.mem_cons.mp inside with rfl | later
  · exact below x member
  · exact (below x member).trans (above y later)

omit [LinearOrder K] in
theorem mem_node (x : K × V) : x ∈ (node left key value right).toList ↔
    x ∈ left.toList ∨ x = (key, value) ∨ x ∈ right.toList := by
  rw [toList, List.mem_append, List.mem_cons]

variable {v : V} {t : Tree K V} {k : K} {x : K × V} {rest : List (K × V)}

theorem find_eq_some (ordered : t.Ordered) : t.find k = some v ↔ (k, v) ∈ t.toList := by
  induction t with
  | leaf => simp [find, toList]
  | node left key value right ihLeft ihRight =>
    obtain ⟨lower, upper, below, above⟩ := ordered.parts
    rw [find, mem_node]
    split
    · next same =>
      subst same
      constructor
      · rintro ⟨⟩
        exact .inr (.inl rfl)
      · rintro (inLeft | here | inRight)
        · exact absurd (below _ inLeft) (lt_irrefl k)
        · cases here
          rfl
        · exact absurd (above _ inRight) (lt_irrefl k)
    · next different =>
      split
      · next less =>
        rw [ihLeft lower]
        refine ⟨.inl, ?_⟩
        rintro (inLeft | here | inRight)
        · exact inLeft
        · cases here
          exact absurd rfl different
        · exact absurd (above _ inRight) (lt_asymm less)
      · next notLess =>
        rw [ihRight upper]
        refine ⟨fun inRight => .inr (.inr inRight), ?_⟩
        rintro (inLeft | here | inRight)
        · exact absurd (below _ inLeft) notLess
        · cases here
          exact absurd rfl different
        · exact inRight

theorem find_eq_none (ordered : t.Ordered) : t.find k = none ↔ ∀ x ∈ t.toList, x.1 ≠ k := by
  rw [Option.eq_none_iff_forall_ne_some]
  constructor
  · rintro absent ⟨_, v⟩ member rfl
    exact absent v ((find_eq_some ordered).mpr member)
  · intro absent v found
    exact absent _ ((find_eq_some ordered).mp found) rfl

def above (t : Tree K V) (k : K) : List (K × V) := t.toList.filter fun x => k < x.1

def since (t : Tree K V) (k : K) : List (K × V) := t.toList.filter fun x => k ≤ x.1

theorem filter_tail {l : List (K × V)} (ascending : l.Pairwise fun a b => a.1 < b.1)
    {p : K × V → Bool} (upward : ∀ x y : K × V, x.1 < y.1 → p x = true → p y = true)
    (start : l.filter p = x :: rest) : rest = l.filter fun y => x.1 < y.1 := by
  induction l with
  | nil => cases start
  | cons first later ih =>
    obtain ⟨higher, ascending⟩ := List.pairwise_cons.mp ascending
    by_cases holds : p first = true
    · rw [List.filter_cons_of_pos holds] at start
      cases start
      rw [List.filter_cons_of_neg (by simp),
        List.filter_eq_self.mpr fun y member => upward x y (higher y member) holds,
        List.filter_eq_self.mpr fun y member => by simpa using higher y member]
    · rw [List.filter_cons_of_neg holds] at start
      have inside : x ∈ later := (List.mem_filter.mp (start ▸ List.mem_cons_self)).1
      rw [List.filter_cons_of_neg (by simpa using (higher x inside).le)]
      exact ih ascending start

theorem since_of_mem (ordered : t.Ordered) (member : (k, v) ∈ t.toList) :
    t.since k = (k, v) :: t.above k := by
  rw [Ordered] at ordered
  rw [since, above]
  generalize t.toList = l at ordered member
  induction l with
  | nil => cases member
  | cons first later ih =>
    obtain ⟨higher, ordered⟩ := List.pairwise_cons.mp ordered
    rcases List.mem_cons.mp member with rfl | inside
    · rw [List.filter_cons_of_pos (by simp), List.filter_cons_of_neg (by simp),
        List.filter_eq_self.mpr fun x inside => by simpa using (higher x inside).le,
        List.filter_eq_self.mpr fun x inside => by simpa using higher x inside]
    · grind

theorem above_tail (ordered : t.Ordered) (start : t.above k = x :: rest) : rest = t.above x.1 :=
  filter_tail ordered (fun _ _ less holds => by simpa using (by simpa using holds : k < _).trans less)
    start

theorem since_tail (ordered : t.Ordered) (start : t.since k = x :: rest) : rest = t.above x.1 :=
  filter_tail ordered (fun _ _ less holds => by simpa using (by simpa using holds : k ≤ _).trans less.le)
    start

theorem ceiling_eq (ordered : t.Ordered) (k : K) (best : Option (K × V)) :
    t.ceiling k best = (t.since k).head?.or best := by
  induction t generalizing best with
  | leaf => rfl
  | node left key value right ihLeft ihRight =>
    obtain ⟨lower, upper, below, _⟩ := ordered.parts
    have noneLeft : key ≤ k → left.toList.filter (fun x => k ≤ x.1) = [] := fun enough =>
      List.filter_eq_nil_iff.mpr fun x member => by
        simpa using (below x member).trans_le enough
    rw [ceiling, since, toList, List.filter_append]
    split
    · next same =>
      subst same
      rw [noneLeft le_rfl, List.filter_cons_of_pos (by simp)]
      rfl
    · next different =>
      split
      · next less =>
        rw [ihLeft lower, List.filter_cons_of_pos (by simpa using less.le), List.head?_append]
        simp [since]
      · next notLess =>
        have less : key < k := lt_of_le_of_ne (not_lt.mp notLess) (Ne.symm different)
        rw [ihRight upper, noneLeft less.le, List.filter_cons_of_neg (by simpa using less)]
        rfl

/-- What follows the node of `k`: its right subtree, then the pairs above it that are higher. -/
theorem locate_spec (ordered : t.Ordered) (member : (k, v) ∈ t.toList) (ancestors : List (K × V)) :
    ∃ left right own, t.locate k ancestors = some (node left k v right, own ++ ancestors) ∧
      (t.above k).head? = right.leftmost.or (own.find? fun x => k ≤ x.1) := by
  induction t generalizing ancestors with
  | leaf => cases member
  | node left key value right ihLeft ihRight =>
    obtain ⟨lower, upper, below, higher⟩ := ordered.parts
    rw [mem_node] at member
    rw [locate, above, toList, List.filter_append]
    have noneLeft : key ≤ k → left.toList.filter (fun x => k < x.1) = [] := fun enough =>
      List.filter_eq_nil_iff.mpr fun x member => by
        simpa using ((below x member).trans_le enough).le
    split
    · next same =>
      subst same
      have here : v = value := by grind
      subst here
      refine ⟨left, right, [], rfl, ?_⟩
      rw [noneLeft le_rfl, List.filter_cons_of_neg (by simp), List.nil_append,
        List.filter_eq_self.mpr fun x inRight => by simpa using higher x inRight, leftmost_eq]
      simp
    · next different =>
      split
      · next less =>
        have inLeft : (k, v) ∈ left.toList := by grind
        obtain ⟨l, r, own, found, first⟩ := ihLeft lower inLeft ((key, value) :: ancestors)
        refine ⟨l, r, own ++ [(key, value)], by rw [found, List.append_assoc]; rfl, ?_⟩
        rw [List.filter_cons_of_pos (by simpa using less), List.head?_append,
          show (left.toList.filter fun x => k < x.1).head? = _ from first, List.find?_append,
          List.find?_cons_of_pos (by simpa using less.le), List.head?_cons, Option.or_assoc]
      · next notLess =>
        have less : key < k := lt_of_le_of_ne (not_lt.mp notLess) (Ne.symm different)
        have inRight : (k, v) ∈ right.toList := by grind
        obtain ⟨l, r, own, found, first⟩ := ihRight upper inRight ((key, value) :: ancestors)
        refine ⟨l, r, own ++ [(key, value)], by rw [found, List.append_assoc]; rfl, ?_⟩
        rw [noneLeft less.le, List.filter_cons_of_neg (by simpa using less.le), List.nil_append,
          show (right.toList.filter fun x => k < x.1).head? = _ from first, List.find?_append,
          List.find?_cons_of_neg (by simpa using less), List.find?_nil, Option.or_none]

end Tree

/-- A tree whose keys ascend. -/
structure OrderedTree (K V : Type) [LinearOrder K] where
  tree : Tree K V
  ordered : tree.Ordered

namespace OrderedTree

variable {K V : Type} [LinearOrder K]

def empty : OrderedTree K V := ⟨.leaf, List.Pairwise.nil⟩

def toList (t : OrderedTree K V) : List (K × V) := t.tree.toList

end OrderedTree

/-- A way to put pairs into ordered trees. -/
structure Putting (K V : Type) [LinearOrder K] where
  put : OrderedTree K V → K → V → OrderedTree K V
  mem_put : ∀ t k v x, x ∈ (put t k v).toList ↔ x = (k, v) ∨ x.1 ≠ k ∧ x ∈ t.toList

theorem Putting.find_put {K V : Type} [LinearOrder K] (putting : Putting K V) (t : OrderedTree K V)
    (key : K) (value : V) (k : K) :
    (putting.put t key value).tree.find k = if k = key then some value else t.tree.find k := by
  have member := putting.mem_put t key value
  have ordered := (putting.put t key value).ordered
  split
  · next same =>
    exact (Tree.find_eq_some ordered).mpr ((member _).mpr (.inl (by rw [same])))
  · next different =>
    cases found : t.tree.find k with
    | some v =>
      refine (Tree.find_eq_some ordered).mpr ((member _).mpr (.inr ⟨different, ?_⟩))
      exact (Tree.find_eq_some t.ordered).mp found
    | none =>
      refine (Tree.find_eq_none ordered).mpr fun x inside same => ?_
      rcases (member x).mp inside with rfl | ⟨_, old⟩
      · exact different same.symm
      · exact (Tree.find_eq_none t.ordered).mp found x old same

namespace OrderedTree

variable {K V S R : Type} [LinearOrder K] (read : S → K → R) (put : S → K × V → S) (answer : V → R)
  (reads : ∀ s x k, read (put s x) k = if k = x.1 then answer x.2 else read s k)

include reads

theorem foldl_distinct {l : List (K × V)} (ascending : l.Pairwise fun a b => a.1 < b.1) (s : S)
    (k : K) : (∀ v, (k, v) ∈ l → read (l.foldl put s) k = answer v) ∧
      ((∀ x ∈ l, x.1 ≠ k) → read (l.foldl put s) k = read s k) := by
  induction l generalizing s with
  | nil => exact ⟨fun _ inside => absurd inside List.not_mem_nil, fun _ => rfl⟩
  | cons first rest ih =>
    obtain ⟨higher, ascending⟩ := List.pairwise_cons.mp ascending
    obtain ⟨present, absent⟩ := ih ascending (put s first)
    rw [List.foldl_cons]
    constructor
    · intro v inside
      rcases List.mem_cons.mp inside with rfl | later
      · rw [absent fun x after => (higher x after).ne', reads, if_pos rfl]
      · exact present v later
    · intro free
      rw [absent fun x after => free x (List.mem_cons_of_mem _ after), reads,
        if_neg (free first List.mem_cons_self).symm]

/-- The pairs of a tree put into whatever is read by key. -/
theorem foldl_puts (t : OrderedTree K V) (s : S) (k : K) :
    read (t.toList.foldl put s) k = ((t.tree.find k).map answer).getD (read s k) := by
  obtain ⟨present, absent⟩ := foldl_distinct read put answer reads t.ordered s k
  cases found : t.tree.find k with
  | some v => exact present v ((Tree.find_eq_some t.ordered).mp found)
  | none => exact absent ((Tree.find_eq_none t.ordered).mp found)

end OrderedTree

namespace Tree

variable {K V : Type} [LinearOrder K]

/-- Putting without balancing. -/
def insert (k : K) (v : V) : Tree K V → Tree K V
  | leaf => node leaf k v leaf
  | node left key value right =>
    if k = key then node left key v right
    else if k < key then node (left.insert k v) key value right
    else node left key value (right.insert k v)

variable {t : Tree K V}

theorem mem_insert (ordered : t.Ordered) (k : K) (v : V) (x : K × V) :
    x ∈ (t.insert k v).toList ↔ x = (k, v) ∨ x.1 ≠ k ∧ x ∈ t.toList := by
  induction t with
  | leaf => simp [insert, toList]
  | node left key value right ihLeft ihRight =>
    obtain ⟨lower, upper, below, higher⟩ := ordered.parts
    rw [insert]
    split
    · next same =>
      subst same
      have left' : x ∈ left.toList → x.1 ≠ k := fun inside => (below x inside).ne
      have right' : x ∈ right.toList → x.1 ≠ k := fun inside => (higher x inside).ne'
      rw [mem_node, mem_node]
      grind
    · next different =>
      have kept : x = (key, value) → x.1 ≠ k := by
        rintro rfl
        exact Ne.symm different
      split
      · next less =>
        have right' : x ∈ right.toList → x.1 ≠ k := fun inside => (less.trans (higher x inside)).ne'
        rw [mem_node, mem_node, ihLeft lower]
        grind
      · next notLess =>
        have left' : x ∈ left.toList → x.1 ≠ k := fun inside =>
          ((below x inside).trans_le (not_lt.mp notLess)).ne
        rw [mem_node, mem_node, ihRight upper]
        grind

theorem Ordered.insert (ordered : t.Ordered) (k : K) (v : V) : (t.insert k v).Ordered := by
  induction t with
  | leaf => exact List.pairwise_singleton ..
  | node left key value right ihLeft ihRight =>
    obtain ⟨lower, upper, below, higher⟩ := ordered.parts
    rw [Tree.insert]
    split
    · exact lower.join upper below higher
    · next different =>
      split
      · next less =>
        refine (ihLeft lower).join upper (fun x inside => ?_) higher
        rcases (mem_insert lower k v x).mp inside with rfl | ⟨_, old⟩
        · exact less
        · exact below x old
      · next notLess =>
        refine lower.join (ihRight upper) below fun x inside => ?_
        rcases (mem_insert upper k v x).mp inside with rfl | ⟨_, old⟩
        · exact lt_of_le_of_ne (not_lt.mp notLess) (Ne.symm different)
        · exact higher x old

end Tree

def Putting.plain (K V : Type) [LinearOrder K] : Putting K V where
  put t k v := ⟨t.tree.insert k v, t.ordered.insert k v⟩
  mem_put t k v x := Tree.mem_insert t.ordered k v x

end SearchTree
