import Lachesis.Storage
import Lachesis.Library.Triples

/-!
`utils/simplewlru` with its pointers: `items` maps a key to an element of `evictList`, and the
element points to the entry. An element is its place in the heap of entries. `utils/wlru`
calls the same functions under a lock, so its runs are sequences of them. The list cache of
`Storage` is what the other modules use; here it is the model that the code refines.
-/

namespace Lachesis.Wlru

open Triples

variable {K V : Type}

abbrev Entry := Simplewlru.Entry

inductive Fault where
  | outOfFuel
  | nilPointer
  | indexOutOfRange

/-- `evictList` is kept oldest first, and `evicted` lists the calls of the callback. -/
structure Cache (K V : Type) where
  maxSize : Int
  weight : Nat
  maxWeight : Nat
  evictList : List Nat
  items : AList fun _ : K => Nat
  onEvict : Bool
  heap : List (Entry K V)
  evicted : List (K × V)

/-- A map is ranged over in any order. -/
structure RangeOrder (K : Type) where
  order : List (Sigma fun _ : K => Nat) → List (Sigma fun _ : K => Nat)
  perm : ∀ l, (order l).Perm l

inductive Action (K V : Type) where
  | add (key : K) (value : V) (weight : Nat)
  | get (key : K)
  | peek (key : K)
  | contains (key : K)
  | remove (key : K)
  | removeOldest
  | getOldest
  | keys
  | total
  | resize (maxWeight : Nat) (maxSize : Int)
  | purge

inductive Reply (K V : Type) where
  | evicted (count : Nat)
  | value (found : Option V)
  | present (ok : Bool)
  | oldest (found : Option (K × V))
  | keys (list : List (Option K))
  | total (weight num : Nat)
  | done

namespace Cache

def newWithEvict (maxWeight : Nat) (maxSize : Int) (onEvict : Bool) :
    Except String (Cache K V) :=
  if maxSize < 0 then .error "must provide a non-negative size"
  else .ok ⟨maxSize, 0, maxWeight, [], ∅, onEvict, [], []⟩

variable (c : Cache K V)

def len : Nat := c.evictList.length

def entry (element : Nat) : Except Fault (Entry K V) :=
  match c.heap[element]? with
  | some e => .ok e
  | none => .error .nilPointer

def subWeight (weight : Nat) : Nat := (c.weight + 2 ^ 64 - weight) % 2 ^ 64

def callback (e : Entry K V) : List (K × V) := if c.onEvict then [(e.key, e.value)] else []

def moveToFront (element : Nat) : Cache K V :=
  { c with evictList := c.evictList.erase element ++ [element] }

variable [DecidableEq K]

def removeElement (element : Nat) : Except Fault (Cache K V) := do
  let kv ← c.entry element
  .ok { c with
    evictList := c.evictList.erase element
    items := c.items.erase kv.key
    weight := c.subWeight kv.weight
    evicted := c.evicted ++ c.callback kv }

def dropOldest : Except Fault (Cache K V) :=
  match c.evictList.head? with
  | some element => c.removeElement element
  | none => .ok c

def normalize : Nat → Cache K V → Except Fault (Nat × Cache K V)
  | 0, _ => .error .outOfFuel
  | fuel + 1, c =>
    if c.maxWeight < c.weight ∨ c.maxSize < c.len then do
      let c ← c.dropOldest
      let (evicted, c) ← normalize fuel c
      .ok (evicted + 1, c)
    else .ok (0, c)

variable (fuel : Nat)

def add (key : K) (value : V) (weight : Nat) : Except Fault (Nat × Cache K V) :=
  match c.items.lookup key with
  | some element => do
    let c := c.moveToFront element
    let existing ← c.entry element
    let c := { c with
      weight := (c.subWeight existing.weight + weight) % 2 ^ 64
      heap := c.heap.set element { existing with value := value, weight := weight } }
    normalize fuel c
  | none =>
    let c := { c with
      heap := c.heap ++ [⟨key, value, weight⟩]
      evictList := c.evictList ++ [c.heap.length]
      items := c.items.insert key c.heap.length
      weight := (c.weight + weight) % 2 ^ 64 }
    normalize fuel c

/-- No element points to a nil entry, so `Get` finds what it looks up. -/
def get (key : K) : Except Fault (Option V × Cache K V) :=
  match c.items.lookup key with
  | some element => do
    let c := c.moveToFront element
    let e ← c.entry element
    .ok (some e.value, c)
  | none => .ok (none, c)

def contains (key : K) : Bool := (c.items.lookup key).isSome

def peek (key : K) : Except Fault (Option V) :=
  match c.items.lookup key with
  | some element => do
    let e ← c.entry element
    .ok (some e.value)
  | none => .ok none

def remove (key : K) : Except Fault (Bool × Cache K V) :=
  match c.items.lookup key with
  | some element => do
    let c ← c.removeElement element
    .ok (true, c)
  | none => .ok (false, c)

def getOldest : Except Fault (Option (K × V)) :=
  match c.evictList.head? with
  | some element => do
    let kv ← c.entry element
    .ok (some (kv.key, kv.value))
  | none => .ok none

def removeOldest : Except Fault (Option (K × V) × Cache K V) := do
  let c' ← c.dropOldest
  let oldest ← c.getOldest
  .ok (oldest, c')

def keys : Except Fault (List (Option K)) := do
  let found ← c.evictList.mapM c.entry
  let size := c.items.entries.length
  if size < found.length then .error .indexOutOfRange
  else .ok (found.map (some ·.key) ++ List.replicate (size - found.length) none)

def resize (maxWeight : Nat) (maxSize : Int) : Except Fault (Nat × Cache K V) :=
  normalize fuel { c with maxWeight := maxWeight, maxSize := maxSize }

def drop (c : Cache K V) (item : Sigma fun _ : K => Nat) : Except Fault (Cache K V) := do
  let e ← c.entry item.2
  .ok { c with
    weight := c.subWeight e.weight
    evicted := c.evicted ++ (if c.onEvict then [(item.1, e.value)] else [])
    items := c.items.erase item.1 }

def purge (range : RangeOrder K) : Except Fault (Cache K V) := do
  let c ← (range.order c.items.entries).foldlM drop c
  .ok { c with evictList := [] }

def step (range : RangeOrder K) : Action K V → Except Fault (Reply K V × Cache K V)
  | .add key value weight => do
    let (count, c) ← c.add fuel key value weight
    .ok (.evicted count, c)
  | .get key => do
    let (found, c) ← c.get key
    .ok (.value found, c)
  | .peek key => do
    let found ← c.peek key
    .ok (.value found, c)
  | .contains key => .ok (.present (c.contains key), c)
  | .remove key => do
    let (ok, c) ← c.remove key
    .ok (.present ok, c)
  | .removeOldest => do
    let (found, c) ← c.removeOldest
    .ok (.oldest found, c)
  | .getOldest => do
    let found ← c.getOldest
    .ok (.oldest found, c)
  | .keys => do
    let list ← c.keys
    .ok (.keys list, c)
  | .total => .ok (.total c.weight c.len, c)
  | .resize maxWeight maxSize => do
    let (count, c) ← c.resize fuel maxWeight maxSize
    .ok (.evicted count, c)
  | .purge => do
    let c ← c.purge range
    .ok (.done, c)

def run (range : RangeOrder K) : List (Action K V) → Cache K V → Except Fault (List (Reply K V) × Cache K V)
  | [], c => .ok ([], c)
  | action :: rest, c => do
    let (reply, c) ← c.step fuel range action
    let (replies, c) ← run range rest c
    .ok (reply :: replies, c)

end Cache

section Links

variable {c c' : Cache K V} {pairs front rest : List (Nat × Entry K V)} {element : Nat}
  {e : Entry K V}

structure Logs (c c' : Cache K V) (left : List (Entry K V)) : Prop where
  onEvict : c'.onEvict = c.onEvict
  evicted : c'.evicted = c.evicted ++ if c.onEvict then left.map fun e => (e.key, e.value) else []

structure Keeps (c c' : Cache K V) (left : List (Entry K V)) : Prop extends Logs c c' left where
  maxSize : c'.maxSize = c.maxSize
  maxWeight : c'.maxWeight = c.maxWeight

theorem Logs.refl : Logs c c [] := ⟨rfl, by simp⟩

variable {more left : List (Entry K V)} {d : Cache K V} {p : Nat × Entry K V} {key : K} {fuel : Nat}

theorem Logs.trans (first : Logs c c' left) (second : Logs c' d more) :
    Logs c d (left ++ more) where
  onEvict := second.onEvict.trans first.onEvict
  evicted := by
    rw [second.evicted, first.evicted, first.onEvict]
    cases c.onEvict <;> simp

theorem logs_quiet (onEvict : c'.onEvict = c.onEvict) (evicted : c'.evicted = c.evicted) :
    Logs c c' [] := ⟨onEvict, by simp [evicted]⟩

theorem Keeps.trans (first : Keeps c c' left) (second : Keeps c' d more) :
    Keeps c d (left ++ more) where
  toLogs := first.toLogs.trans second.toLogs
  maxSize := second.maxSize.trans first.maxSize
  maxWeight := second.maxWeight.trans first.maxWeight

theorem logs_callback (onEvict : c'.onEvict = c.onEvict)
    (evicted : c'.evicted = c.evicted ++ c.callback e) : Logs c c' [e] where
  onEvict := onEvict
  evicted := evicted

def weightOf (pairs : List (Nat × Entry K V)) : Nat := (pairs.map (·.2.weight)).sum

theorem weightOf_append : weightOf (front ++ rest) = weightOf front + weightOf rest := by
  simp [weightOf]

theorem weightOf_perm (perm : front.Perm pairs) : weightOf front = weightOf pairs :=
  (perm.map _).sum_eq

variable [DecidableEq K]

/-- The elements of the list with the entries they point to. `items` finds exactly these, and
the weight is theirs. -/
structure Linked (c : Cache K V) (pairs : List (Nat × Entry K V)) : Prop where
  list : c.evictList = pairs.map Prod.fst
  entries : ∀ p ∈ pairs, c.heap[p.1]? = some p.2
  elements : (pairs.map Prod.fst).Nodup
  keys : (pairs.map (·.2.key)).Nodup
  items : ∀ key element,
    c.items.lookup key = some element ↔ ∃ e, (element, e) ∈ pairs ∧ e.key = key
  weights : ∀ p ∈ pairs, p.2.weight < 2 ^ 64
  weight : c.weight = weightOf pairs % 2 ^ 64

def others (key : K) (pairs : List (Nat × Entry K V)) : List (Nat × Entry K V) :=
  pairs.filter (·.2.key ≠ key)

theorem mem_others : p ∈ others key pairs ↔ p ∈ pairs ∧ p.2.key ≠ key := by
  simp [others]

theorem others_of_fresh (fresh : ∀ p ∈ pairs, p.2.key ≠ key) : others key pairs = pairs :=
  List.filter_eq_self.mpr fun p member => decide_eq_true (fresh p member)

theorem Linked.same (linked : Linked c pairs) {q : Nat × Entry K V} (left : p ∈ pairs)
    (right : q ∈ pairs) (key : p.2.key = q.2.key) : p = q :=
  List.inj_on_of_nodup_map linked.keys left right key

theorem Linked.perm_others (linked : Linked c pairs) (member : (element, e) ∈ pairs) :
    ((element, e) :: others e.key pairs).Perm pairs := by
  have nodup : pairs.Nodup := linked.keys.of_map
  apply (List.perm_ext_iff_of_nodup ?_ nodup).mpr
  · intro p
    rw [List.mem_cons, mem_others]
    constructor
    · rintro (rfl | ⟨inside, _⟩)
      exacts [member, inside]
    · intro inside
      by_cases key : p.2.key = e.key
      · exact .inl (linked.same inside member key)
      · exact .inr ⟨inside, key⟩
  · exact List.nodup_cons.mpr ⟨by simp [mem_others], nodup.filter _⟩

theorem Linked.erase (linked : Linked c pairs) (member : (element, e) ∈ pairs) :
    c.evictList.erase element = (others e.key pairs).map Prod.fst := by
  rw [linked.list, linked.elements.erase_eq_filter, List.filter_map, others]
  congr 1
  apply List.filter_congr
  intro p inside
  have element : p.1 = element ↔ p.2.key = e.key := by
    constructor
    · intro same
      rw [List.inj_on_of_nodup_map linked.elements inside member same]
    · intro same
      rw [linked.same inside member same]
  simp [bne, beq_eq_decide, element]

theorem Linked.entry (linked : Linked c pairs) (member : (element, e) ∈ pairs) :
    c.entry element = .ok e := by
  rw [Cache.entry, linked.entries _ member]

theorem Linked.reorder (linked : Linked c pairs) (perm : front.Perm pairs) :
    Linked { c with evictList := front.map Prod.fst } front where
  list := rfl
  entries p member := linked.entries p (perm.subset member)
  elements := (perm.map _).nodup_iff.mpr linked.elements
  keys := (perm.map _).nodup_iff.mpr linked.keys
  items key element := by simpa only [perm.mem_iff] using linked.items key element
  weights p member := linked.weights p (perm.subset member)
  weight := by rw [weightOf_perm perm]; exact linked.weight

theorem Linked.moveToFront (linked : Linked c pairs) (member : (element, e) ∈ pairs) :
    Linked (c.moveToFront element) (others e.key pairs ++ [(element, e)]) := by
  have moved := linked.reorder
    ((List.perm_append_singleton (element, e) _).trans (linked.perm_others member))
  rwa [List.map_append, ← linked.erase member] at moved

theorem Linked.removeElement (linked : Linked c pairs) (member : (element, e) ∈ pairs) :
    Yields (c.removeElement element) fun c' => Linked c' (others e.key pairs) ∧ Keeps c c' [e] := by
  have sum : weightOf pairs = e.weight + weightOf (others e.key pairs) :=
    (weightOf_perm (linked.perm_others member)).symm
  rw [Cache.removeElement, linked.entry member]
  refine yields_ok ⟨⟨linked.erase member, ?_, ?_, ?_, ?_, ?_, ?_⟩, logs_callback rfl rfl, rfl, rfl⟩
  · exact fun p inside => linked.entries p (mem_others.mp inside).1
  · exact linked.elements.sublist (List.filter_sublist.map _)
  · exact linked.keys.sublist (List.filter_sublist.map _)
  · intro key found
    by_cases same : key = e.key
    · rw [same, AList.lookup_erase]
      simp [mem_others]
    · rw [AList.lookup_erase_ne same, linked.items]
      apply exists_congr
      intro e
      rw [mem_others]
      exact ⟨fun ⟨inside, own⟩ => ⟨⟨inside, own.symm ▸ same⟩, own⟩, fun ⟨⟨inside, _⟩, own⟩ => ⟨inside, own⟩⟩
  · exact fun p inside => linked.weights p (mem_others.mp inside).1
  · have small := linked.weights _ member
    change (c.weight + 2 ^ 64 - e.weight) % 2 ^ 64 = _
    rw [linked.weight, sum]
    dsimp only at small
    omega

theorem Linked.dropOldest (linked : Linked c ((element, e) :: rest)) :
    Yields c.dropOldest fun c' => Linked c' rest ∧ Keeps c c' [e] := by
  have fresh : others e.key ((element, e) :: rest) = rest := by
    have apart := (List.nodup_cons.mp linked.keys).1
    rw [others, List.filter_cons_of_neg (by simp)]
    apply others_of_fresh
    intro p inside same
    exact apart (List.mem_map.mpr ⟨p, inside, same⟩)
  rw [Cache.dropOldest, linked.list, List.map_cons, List.head?_cons]
  simpa only [fresh] using linked.removeElement List.mem_cons_self

structure Within (c : Cache K V) (pairs : List (Nat × Entry K V)) : Prop where
  weight : weightOf pairs % 2 ^ 64 ≤ c.maxWeight
  size : (pairs.length : Int) ≤ c.maxSize

omit [DecidableEq K] in
theorem within_nil (natural : 0 ≤ c.maxSize) : Within c [] := ⟨Nat.zero_le _, natural⟩

theorem Linked.exceeds_iff (linked : Linked c pairs) :
    (c.maxWeight < c.weight ∨ c.maxSize < c.len) ↔ ¬Within c pairs := by
  rw [linked.weight, Cache.len, linked.list, List.length_map]
  constructor
  · rintro (heavy | long) within
    exacts [Nat.not_lt.mpr within.weight heavy, Int.not_lt.mpr within.size long]
  · intro outside
    by_contra! fits
    exact outside ⟨fits.1, fits.2⟩

/-- `left` went, the shortest run of the oldest pairs whose removal is enough. -/
structure Normalized (c : Cache K V) (pairs left kept : List (Nat × Entry K V))
    (r : Nat × Cache K V) : Prop where
  split : pairs = left ++ kept
  count : r.1 = left.length
  linked : Linked r.2 kept
  keeps : Keeps c r.2 (left.map Prod.snd)
  within : Within c kept
  shortest : ∀ n < left.length, ¬Within c (pairs.drop n)

omit [DecidableEq K] in
theorem Keeps.within_iff (keeps : Keeps c c' left) : Within c' pairs ↔ Within c pairs := by
  constructor
  · rintro ⟨weight, size⟩
    exact ⟨keeps.maxWeight ▸ weight, keeps.maxSize ▸ size⟩
  · rintro ⟨weight, size⟩
    exact ⟨keeps.maxWeight.symm ▸ weight, keeps.maxSize.symm ▸ size⟩

theorem Normalized.of_keeps {left kept : List (Nat × Entry K V)} {r : Nat × Cache K V}
    (normalized : Normalized c' pairs left kept r) (keeps : Keeps c c' []) :
    Normalized c pairs left kept r where
  split := normalized.split
  count := normalized.count
  linked := normalized.linked
  keeps := keeps.trans normalized.keeps
  within := keeps.within_iff.mp normalized.within
  shortest n less within := normalized.shortest n less (keeps.within_iff.mpr within)

theorem Linked.normalize (linked : Linked c pairs) (natural : 0 ≤ c.maxSize)
    (enough : pairs.length < fuel) :
    Yields (c.normalize fuel) fun r => ∃ left kept, Normalized c pairs left kept r := by
  induction pairs generalizing c fuel with
  | nil =>
    obtain ⟨fuel, rfl⟩ := Nat.exists_eq_add_one.mpr enough
    rw [Cache.normalize, if_neg (by rw [linked.exceeds_iff, not_not]; exact within_nil natural)]
    exact yields_ok ⟨[], [], rfl, rfl, linked, ⟨.refl, rfl, rfl⟩, within_nil natural, nofun⟩
  | cons p rest ih =>
    obtain ⟨fuel, rfl⟩ := Nat.exists_eq_add_one.mpr (Nat.zero_lt_of_lt enough)
    rw [Cache.normalize]
    by_cases within : Within c (p :: rest)
    · rw [if_neg (by rw [linked.exceeds_iff, not_not]; exact within)]
      exact yields_ok ⟨[], p :: rest, rfl, rfl, linked, ⟨.refl, rfl, rfl⟩, within, nofun⟩
    · rw [if_pos (linked.exceeds_iff.mpr within)]
      apply yields_bind linked.dropOldest
      rintro d ⟨tail, first⟩
      apply yields_bind (ih tail (first.maxSize ▸ natural) (Nat.lt_of_succ_lt_succ enough))
      rintro ⟨count, d'⟩ ⟨left, kept, more⟩
      refine yields_ok ⟨p :: left, kept, by rw [more.split]; rfl, congrArg (· + 1) more.count,
        more.linked, first.trans more.keeps, first.within_iff.mp more.within, ?_⟩
      intro n less
      cases n with
      | zero => exact within
      | succ n =>
        intro fits
        exact more.shortest n (Nat.lt_of_succ_lt_succ less) (first.within_iff.mpr fits)

theorem Linked.store (linked : Linked c (front ++ [(element, e)])) (new : Entry K V)
    (key : new.key = e.key) (small : new.weight < 2 ^ 64) :
    Linked { c with
      weight := (c.subWeight e.weight + new.weight) % 2 ^ 64
      heap := c.heap.set element new } (front ++ [(element, new)]) := by
  have old : c.heap[element]? = some e := linked.entries (element, e) (by simp)
  have bound := (List.getElem?_eq_some_iff.mp old).1
  have smallOld : e.weight < 2 ^ 64 := linked.weights (element, e) (by simp)
  have apart : ∀ p ∈ front, p.1 ≠ element := by
    have elements := linked.elements
    rw [List.map_append, List.nodup_append] at elements
    exact fun p inside => elements.2.2 _ (List.mem_map_of_mem inside) _ (by simp)
  refine ⟨by simpa using linked.list, ?_, by simpa using linked.elements,
    by simpa [key] using linked.keys, ?_, ?_, ?_⟩
  · intro p member
    rcases List.mem_append.mp member with inside | last
    · rw [List.getElem?_set_ne (apart p inside).symm]
      exact linked.entries p (List.mem_append_left _ inside)
    · rw [List.mem_singleton.mp last]
      exact List.getElem?_set_self bound
  · intro sought found
    rw [linked.items]
    simp only [List.mem_append, List.mem_singleton, Prod.mk.injEq, or_and_right, exists_or,
      and_assoc, exists_and_left, exists_eq_left, key]
  · intro p member
    rcases List.mem_append.mp member with inside | last
    · exact linked.weights p (List.mem_append_left _ inside)
    · rwa [List.mem_singleton.mp last]
  · have weight := linked.weight
    simp only [weightOf, List.map_append, List.sum_append, List.map_cons, List.map_nil,
      List.sum_singleton] at weight ⊢
    rw [Cache.subWeight, weight]
    omega

theorem Linked.pushFront (linked : Linked c pairs) (new : Entry K V)
    (fresh : ∀ p ∈ pairs, p.2.key ≠ new.key) (small : new.weight < 2 ^ 64) :
    Linked { c with
      heap := c.heap ++ [new]
      evictList := c.evictList ++ [c.heap.length]
      items := c.items.insert new.key c.heap.length
      weight := (c.weight + new.weight) % 2 ^ 64 } (pairs ++ [(c.heap.length, new)]) := by
  have bound : ∀ p ∈ pairs, p.1 < c.heap.length := fun p inside =>
    (List.getElem?_eq_some_iff.mp (linked.entries p inside)).1
  refine ⟨by simp [linked.list], ?_, ?_, ?_, ?_, ?_, ?_⟩
  · intro p member
    rcases List.mem_append.mp member with inside | last
    · rw [List.getElem?_append_left (bound p inside)]
      exact linked.entries p inside
    · simp [List.mem_singleton.mp last]
  · rw [List.map_append]
    refine linked.elements.append (List.nodup_singleton _) ?_
    rw [List.map_singleton, List.disjoint_singleton, List.mem_map]
    rintro ⟨p, inside, same⟩
    exact (bound p inside).ne same
  · rw [List.map_append]
    refine linked.keys.append (List.nodup_singleton _) ?_
    rw [List.map_singleton, List.disjoint_singleton, List.mem_map]
    rintro ⟨p, inside, same⟩
    exact fresh p inside same
  · intro sought found
    by_cases same : sought = new.key
    · rw [same, AList.lookup_insert]
      constructor
      · rintro ⟨⟩
        exact ⟨new, by simp, rfl⟩
      · grind
    · rw [AList.lookup_insert_ne same, linked.items]
      apply exists_congr
      intro e
      constructor
      · exact fun ⟨inside, own⟩ => ⟨List.mem_append_left _ inside, own⟩
      · grind
  · intro p member
    rcases List.mem_append.mp member with inside | last
    · exact linked.weights p inside
    · rwa [List.mem_singleton.mp last]
  · rw [weightOf_append, linked.weight, Nat.mod_add_mod]
    simp [weightOf]

theorem Linked.lookup (linked : Linked c pairs) (key : K) :
    (c.items.lookup key = none ∧ ∀ p ∈ pairs, p.2.key ≠ key) ∨
      ∃ element e, c.items.lookup key = some element ∧ (element, e) ∈ pairs ∧ e.key = key := by
  cases found : c.items.lookup key with
  | none =>
    refine .inl ⟨rfl, fun p inside own => ?_⟩
    have listed := (linked.items key p.1).mpr ⟨p.2, inside, own⟩
    rw [found] at listed
    cases listed
  | some element =>
    obtain ⟨e, inside, own⟩ := (linked.items key element).mp found
    exact .inr ⟨element, e, rfl, inside, own⟩

theorem Linked.add (linked : Linked c pairs) {weight : Nat} (small : weight < 2 ^ 64) (key : K)
    (value : V) : ∃ d element, (∀ fuel, c.add fuel key value weight = d.normalize fuel) ∧
      Linked d (others key pairs ++ [(element, ⟨key, value, weight⟩)]) ∧ Keeps c d [] := by
  rcases linked.lookup key with ⟨absent, fresh⟩ | ⟨element, e, found, member, own⟩
  · rw [others_of_fresh fresh]
    refine ⟨_, _, fun fuel => ?_, linked.pushFront ⟨key, value, weight⟩ fresh small,
      logs_quiet rfl rfl, rfl, rfl⟩
    rw [Cache.add, absent]
  · subst own
    have moved := linked.moveToFront member
    have entry := moved.entry (List.mem_append_right _ List.mem_cons_self)
    refine ⟨_, _, fun fuel => ?_, moved.store { e with value := value, weight := weight } rfl small,
      logs_quiet rfl rfl, rfl, rfl⟩
    rw [Cache.add, found]
    dsimp only
    rw [entry]
    rfl

def item (p : Nat × Entry K V) : Sigma fun _ : K => Nat := ⟨p.2.key, p.1⟩

theorem Linked.items_perm (linked : Linked c pairs) : c.items.entries.Perm (pairs.map item) := by
  have nodup : (pairs.map item).Nodup := by
    apply List.Nodup.of_map Sigma.fst
    simpa [Function.comp_def, item] using linked.keys
  apply (List.perm_ext_iff_of_nodup c.items.nodupKeys.nodup nodup).mpr
  rintro ⟨key, element⟩
  rw [← AList.mem_lookup_iff, Option.mem_def, linked.items]
  simp [item, and_comm]

theorem Linked.drop_all {items : List (Sigma fun _ : K => Nat)}
    (linked : Linked { c with evictList := pairs.map Prod.fst } pairs)
    (perm : items.Perm (pairs.map item)) : Yields (items.foldlM Cache.drop c) fun c' =>
      Linked { c' with evictList := [] } [] ∧
        ∃ left, left.Perm (pairs.map Prod.snd) ∧ Keeps c c' left := by
  induction items generalizing c pairs with
  | nil =>
    obtain rfl : pairs = [] := List.map_eq_nil_iff.mp perm.nil_eq.symm
    exact yields_ok ⟨linked, [], .refl _, .refl, rfl, rfl⟩
  | cons first rest ih =>
    obtain ⟨⟨element, e⟩, member, rfl⟩ := List.mem_map.mp (perm.subset List.mem_cons_self)
    obtain ⟨d, run, links, keeps⟩ := linked.removeElement member
    have entry : c.entry element = .ok e := linked.entry member
    have parts := linked.perm_others member
    rw [List.foldlM_cons, Cache.drop, item, entry]
    rw [Cache.removeElement, linked.entry member] at run
    cases run
    apply yields_bind (yields_ok rfl)
    rintro _ rfl
    have remaining := (perm.trans (parts.map item).symm).cons_inv
    refine yields_mono (ih ?_ remaining) ?_
    · exact links.reorder (.refl _)
    rintro c' ⟨empty, left, order, more⟩
    refine ⟨empty, [e] ++ left, (order.cons e).trans (parts.map Prod.snd), Keeps.trans ?_ more⟩
    exact ⟨logs_callback rfl rfl, rfl, rfl⟩

theorem Linked.purge (linked : Linked c pairs) (range : RangeOrder K) :
    Yields (c.purge range) fun c' =>
      Linked c' [] ∧ ∃ left, left.Perm (pairs.map Prod.snd) ∧ Keeps c c' left := by
  have whole : Linked { c with evictList := pairs.map Prod.fst } pairs := linked.reorder (.refl _)
  apply yields_bind (whole.drop_all ((range.perm _).trans linked.items_perm))
  rintro c' ⟨links, left, perm, keeps⟩
  exact yields_ok ⟨links, left, perm, ⟨keeps.onEvict, keeps.evicted⟩, keeps.maxSize, keeps.maxWeight⟩

theorem Linked.mapM_entry (linked : Linked c pairs) :
    c.evictList.mapM c.entry = .ok (pairs.map Prod.snd) := by
  rw [linked.list]
  have entries := linked.entries
  clear linked
  induction pairs with
  | nil => rfl
  | cons p rest ih =>
    obtain ⟨first, more⟩ := List.forall_mem_cons.mp entries
    rw [List.map_cons, List.mapM_cons, Cache.entry, first, ih more]
    rfl

end Links

section Model

variable {maxWeight maxSize : Nat} {entries left kept : List (Entry K V)}

def total (entries : List (Entry K V)) : Nat := (entries.map Simplewlru.Entry.weight).sum

/-- `kept` is within the limits, and no shorter run of the oldest entries was enough. -/
structure Shrinks (maxWeight maxSize : Nat) (entries left kept : List (Entry K V)) : Prop where
  split : entries = left ++ kept
  weight : total kept ≤ maxWeight
  size : kept.length ≤ maxSize
  shortest : ∀ n < left.length,
    maxWeight < total (entries.drop n) ∨ maxSize < (entries.drop n).length

theorem Shrinks.normalize (shrinks : Shrinks maxWeight maxSize entries left kept) :
    Simplewlru.Cache.normalize maxWeight maxSize entries = kept := by
  induction left generalizing entries with
  | nil =>
    rw [shrinks.split]
    exact Simplewlru.Cache.normalize_of_fits shrinks.weight shrinks.size
  | cons e left ih =>
    have first := shrinks.shortest 0 (Nat.zero_lt_succ _)
    obtain ⟨rfl, weight, size, shortest⟩ := shrinks
    apply (if_pos first).trans
    exact ih ⟨rfl, weight, size, fun n less => shortest (n + 1) (Nat.succ_lt_succ less)⟩

variable [DecidableEq K]

def next (a : Simplewlru.Cache K V) : Action K V → Simplewlru.Cache K V
  | .add key value weight => a.add key value weight
  | .get key => (a.get key).2
  | .remove key => a.remove key
  | .removeOldest => { a with evictList := a.evictList.tail }
  | .resize maxWeight maxSize =>
    ⟨maxWeight, maxSize.toNat, Simplewlru.Cache.normalize maxWeight maxSize.toNat a.evictList⟩
  | .purge => a.purge
  | .peek _ | .contains _ | .getOldest | .keys | .total => a

def oldest (a : Simplewlru.Cache K V) : Option (K × V) :=
  a.evictList.head?.map fun e => (e.key, e.value)

inductive Answers (a : Simplewlru.Cache K V) :
    Action K V → Reply K V → List (Entry K V) → Prop where
  | add {key value weight} {left : List (Entry K V)}
      (shrinks : Shrinks a.maxWeight a.maxSize
        (a.evictList.filter (·.key ≠ key) ++ [⟨key, value, weight⟩]) left
        (a.add key value weight).evictList) :
      Answers a (.add key value weight) (.evicted left.length) left
  | get {key} : Answers a (.get key) (.value (a.get key).1) []
  | peek {key} : Answers a (.peek key) (.value (a.peek key)) []
  | contains {key} : Answers a (.contains key) (.present (key ∈ a.keys)) []
  | remove {key} :
      Answers a (.remove key) (.present (key ∈ a.keys)) (a.evictList.filter (·.key = key))
  | removeOldest : Answers a .removeOldest (.oldest (oldest a)) a.evictList.head?.toList
  | getOldest : Answers a .getOldest (.oldest (oldest a)) []
  | keys : Answers a .keys (.keys (a.keys.map some)) []
  | total : Answers a .total (.total a.weight a.len) []
  | resize {maxWeight : Nat} {maxSize : Int} {left : List (Entry K V)}
      (shrinks : Shrinks maxWeight maxSize.toNat a.evictList left
        (next a (.resize maxWeight maxSize)).evictList) :
      Answers a (.resize maxWeight maxSize) (.evicted left.length) left
  | purge {left : List (Entry K V)} (perm : left.Perm a.evictList) : Answers a .purge .done left

inductive Replies : Simplewlru.Cache K V → List (Action K V) → List (Reply K V) →
    List (Entry K V) → Prop where
  | nil {a} : Replies a [] [] []
  | cons {a action rest reply replies} {left more : List (Entry K V)} (first : Answers a action reply left)
      (others : Replies (next a action) rest replies more) :
      Replies a (action :: rest) (reply :: replies) (left ++ more)

/-- The stored weights, with the new one and before anything is evicted, sum to a `uint`, and
sizes are not negative. -/
def Fits (a : Simplewlru.Cache K V) : Action K V → Prop
  | .add key _ weight => (a.remove key).weight + weight < 2 ^ 64
  | .resize _ maxSize => 0 ≤ maxSize
  | _ => True

def Admissible : Simplewlru.Cache K V → List (Action K V) → Prop
  | _, [] => True
  | a, action :: rest => Fits a action ∧ Admissible (next a action) rest

structure Refines (c : Cache K V) (a : Simplewlru.Cache K V) : Prop where
  links : ∃ pairs, Linked c pairs ∧ a.evictList = pairs.map Prod.snd
  maxSize : c.maxSize = a.maxSize
  maxWeight : c.maxWeight = a.maxWeight
  weight : c.weight = a.weight
  fits : a.weight < 2 ^ 64

end Model

section Refinement

variable [DecidableEq K] {c : Cache K V} {a : Simplewlru.Cache K V}
  {pairs front left kept : List (Nat × Entry K V)} {element : Nat} {e : Entry K V}

omit [DecidableEq K] in
theorem total_map : total (pairs.map Prod.snd) = weightOf pairs := by
  simp [total, weightOf, Function.comp_def]

theorem Linked.refines (linked : Linked c pairs) (list : a.evictList = pairs.map Prod.snd)
    (maxSize : c.maxSize = a.maxSize) (maxWeight : c.maxWeight = a.maxWeight)
    (fits : weightOf pairs < 2 ^ 64) : Refines c a := by
  have weight : a.weight = weightOf pairs := by
    rw [Simplewlru.Cache.weight, list]
    exact total_map
  refine ⟨⟨pairs, linked, list⟩, maxSize, maxWeight, ?_, weight ▸ fits⟩
  rw [linked.weight, Nat.mod_eq_of_lt fits, weight]

variable {r : Nat × Cache K V} {key : K} {action : Action K V}

theorem Normalized.shrinks (normalized : Normalized c pairs left kept r) {maxSize : Nat}
    (size : c.maxSize = maxSize) (fits : weightOf pairs < 2 ^ 64) :
    Shrinks c.maxWeight maxSize (pairs.map Prod.snd) (left.map Prod.snd) (kept.map Prod.snd) := by
  have suffix : ∀ {l front}, pairs = front ++ l →
      (Within c l ↔ weightOf l ≤ c.maxWeight ∧ l.length ≤ maxSize) := by
    intro l front split
    have less : weightOf l < 2 ^ 64 := by
      rw [split, weightOf_append] at fits
      omega
    constructor
    · rintro ⟨weight, length⟩
      rw [Nat.mod_eq_of_lt less] at weight
      exact ⟨weight, by omega⟩
    · rintro ⟨weight, length⟩
      exact ⟨by rwa [Nat.mod_eq_of_lt less], by omega⟩
  obtain ⟨weight, length⟩ := (suffix normalized.split).mp normalized.within
  refine ⟨by rw [normalized.split, List.map_append], by rwa [total_map], by simpa using length, ?_⟩
  intro n less
  have outside := normalized.shortest n (by simpa using less)
  rw [suffix (List.take_append_drop n pairs).symm, not_and_or, Nat.not_le, Nat.not_le] at outside
  rw [← List.map_drop, total_map, List.length_map]
  exact outside

theorem entries_others :
    (pairs.map Prod.snd).filter (·.key ≠ key) = (others key pairs).map Prod.snd := by
  rw [others, List.filter_map]
  rfl

theorem Linked.mem_keys (linked : Linked c pairs) (list : a.evictList = pairs.map Prod.snd) :
    c.contains key = decide (key ∈ a.keys) := by
  rw [Cache.contains, Simplewlru.Cache.keys, list, List.map_map]
  rcases linked.lookup key with ⟨absent, fresh⟩ | ⟨element, e, found, member, own⟩
  · rw [absent]
    simpa using fun element e member own => fresh (element, e) member own
  · rw [found]
    simpa using ⟨element, e, member, own⟩

theorem Linked.find (linked : Linked c pairs) (member : (element, e) ∈ pairs) :
    (pairs.map Prod.snd).find? (fun ent => ent.key = e.key) = some e := by
  rw [List.find?_map, Option.map_eq_some_iff]
  refine ⟨(element, e), ?_, rfl⟩
  cases found : pairs.find? ((fun ent : Entry K V => decide (ent.key = e.key)) ∘ Prod.snd) with
  | none => simpa using List.find?_eq_none.mp found (element, e) member
  | some p =>
    have own : p.2.key = e.key := by simpa using List.find?_some found
    rw [linked.same (List.mem_of_find?_eq_some found) member own]

def Correct (c : Cache K V) (a : Simplewlru.Cache K V) (action : Action K V)
    (r : Reply K V × Cache K V) : Prop :=
  ∃ left, Answers a action r.1 left ∧ Logs c r.2 left ∧ Refines r.2 (next a action)

variable {range : RangeOrder K} {fuel : Nat}

theorem find_fresh (fresh : ∀ p ∈ pairs, p.2.key ≠ key) :
    (pairs.map Prod.snd).find? (fun ent => ent.key = key) = none := by
  apply List.find?_eq_none.mpr
  simpa using fun e element member => fresh (element, e) member

theorem Linked.filter_key (linked : Linked c pairs) (member : (element, e) ∈ pairs) :
    (pairs.map Prod.snd).filter (·.key = e.key) = [e] := by
  have empty : (others e.key pairs).filter (·.2.key = e.key) = [] := by
    apply List.filter_eq_nil_iff.mpr
    simpa using fun element' e' inside => (mem_others.mp inside).2
  have perm := (linked.perm_others member).filter (·.2.key = e.key)
  rw [List.filter_cons_of_pos (by simp), empty, List.singleton_perm] at perm
  rw [List.filter_map]
  exact congrArg (List.map Prod.snd) perm.symm

theorem Refines.light (refines : Refines c a) (list : a.evictList = pairs.map Prod.snd) :
    weightOf pairs < 2 ^ 64 := by
  rw [← total_map, ← list]
  exact refines.fits

theorem Normalized.refines (normalized : Normalized c pairs left kept r)
    (list : a.evictList = kept.map Prod.snd) (maxSize : c.maxSize = a.maxSize)
    (maxWeight : c.maxWeight = a.maxWeight) (fits : weightOf pairs < 2 ^ 64) : Refines r.2 a := by
  refine normalized.linked.refines list (normalized.keeps.maxSize.trans maxSize)
    (normalized.keeps.maxWeight.trans maxWeight) ?_
  rw [normalized.split, weightOf_append] at fits
  omega

theorem Refines.add (refines : Refines c a) {value : V} {weight : Nat}
    (fits : Fits a (.add key value weight)) (enough : a.len + 1 < fuel) :
    Yields (c.step fuel range (.add key value weight)) (Correct c a (.add key value weight)) := by
  obtain ⟨pairs, linked, list⟩ := refines.links
  have size : a.len = pairs.length := by rw [Simplewlru.Cache.len, list, List.length_map]
  have bound : weightOf (others key pairs) + weight < 2 ^ 64 := by
    rw [← total_map, ← entries_others, ← list]
    exact fits
  have natural : 0 ≤ c.maxSize := refines.maxSize ▸ Int.natCast_nonneg _
  obtain ⟨d, element, same, links, keeps⟩ := linked.add (by omega : weight < 2 ^ 64) key value
  have full : weightOf (others key pairs ++ [(element, ⟨key, value, weight⟩)]) < 2 ^ 64 := by
    rw [weightOf_append]
    exact bound
  have length : (others key pairs).length ≤ pairs.length := List.length_filter_le _ _
  rw [Cache.step, same]
  refine yields_bind (links.normalize (keeps.maxSize ▸ natural) (by simp; omega)) ?_
  rintro ⟨count, c'⟩ ⟨left, kept, after⟩
  have normalized := after.of_keeps keeps
  have shrinks := normalized.shrinks refines.maxSize full
  rw [List.map_append, ← entries_others, ← list, refines.maxWeight] at shrinks
  have after : (a.add key value weight).evictList = kept.map Prod.snd := shrinks.normalize
  refine yields_ok ⟨left.map Prod.snd, ?_, normalized.keeps.toLogs,
    normalized.refines after refines.maxSize refines.maxWeight full⟩
  have answer := Answers.add (after ▸ shrinks)
  rwa [List.length_map, ← normalized.count] at answer

theorem Refines.resize (refines : Refines c a) {maxWeight : Nat} {maxSize : Int}
    (natural : 0 ≤ maxSize) (enough : a.len < fuel) :
    Yields (c.step fuel range (.resize maxWeight maxSize))
      (Correct c a (.resize maxWeight maxSize)) := by
  obtain ⟨pairs, linked, list⟩ := refines.links
  have size : a.len = pairs.length := by rw [Simplewlru.Cache.len, list, List.length_map]
  have fits := refines.light list
  have limited : Linked { c with maxWeight := maxWeight, maxSize := maxSize } pairs :=
    { linked with }
  have natCast : maxSize = (maxSize.toNat : Int) := (Int.toNat_of_nonneg natural).symm
  refine yields_bind (limited.normalize natural (size ▸ enough)) ?_
  rintro ⟨count, c'⟩ ⟨left, kept, normalized⟩
  have shrinks := normalized.shrinks natCast fits
  rw [← list] at shrinks
  have after : (next a (.resize maxWeight maxSize)).evictList = kept.map Prod.snd :=
    shrinks.normalize
  refine yields_ok ⟨left.map Prod.snd, ?_, ⟨normalized.keeps.onEvict, normalized.keeps.evicted⟩,
    normalized.refines after natCast rfl fits⟩
  have answer := Answers.resize (after ▸ shrinks)
  rwa [List.length_map, ← normalized.count] at answer

theorem Refines.get (refines : Refines c a) :
    Yields (c.step fuel range (.get key)) (Correct c a (.get key)) := by
  obtain ⟨pairs, linked, list⟩ := refines.links
  have fits := refines.light list
  rcases linked.lookup key with ⟨absent, fresh⟩ | ⟨element, e, found, member, own⟩
  · have same : a.get key = (none, a) := by rw [Simplewlru.Cache.get, list, find_fresh fresh]
    have answer : Answers a (.get key) (.value (a.get key).1) [] := .get
    rw [same] at answer
    rw [Cache.step, Cache.get, absent]
    exact yields_ok ⟨[], answer, .refl, by rwa [next, same]⟩
  · subst own
    have moved := linked.moveToFront member
    have entry := moved.entry (List.mem_append_right _ List.mem_cons_self)
    have same : a.get e.key = (some e.value,
        { a with evictList := a.evictList.filter (·.key ≠ e.key) ++ [e] }) := by
      rw [Simplewlru.Cache.get, list, linked.find member]
    have answer : Answers a (.get e.key) (.value (a.get e.key).1) [] := .get
    rw [same] at answer
    rw [Cache.step, Cache.get, found]
    dsimp only
    rw [entry]
    refine yields_ok ⟨[], answer, ⟨rfl, by simp [Cache.moveToFront]⟩, ?_⟩
    rw [next, same]
    refine moved.refines ?_ refines.maxSize refines.maxWeight ?_
    · rw [list, entries_others, List.map_append]
      rfl
    · rw [weightOf_perm ((List.perm_append_singleton _ _).trans (linked.perm_others member))]
      exact fits

theorem Refines.remove (refines : Refines c a) :
    Yields (c.step fuel range (.remove key)) (Correct c a (.remove key)) := by
  obtain ⟨pairs, linked, list⟩ := refines.links
  have fits := refines.light list
  have answer : Answers a (.remove key) (.present (key ∈ a.keys))
      (a.evictList.filter (·.key = key)) := .remove
  have others : (next a (.remove key)).evictList = (others key pairs).map Prod.snd := by
    rw [← entries_others, ← list]
    rfl
  rw [← linked.mem_keys list, Cache.contains, list] at answer
  rw [Cache.step, Cache.remove]
  rcases linked.lookup key with ⟨absent, fresh⟩ | ⟨element, e, found, member, own⟩
  · have empty : (pairs.map Prod.snd).filter (·.key = key) = [] := by
      apply List.filter_eq_nil_iff.mpr
      simpa using fun e element member => fresh (element, e) member
    rw [absent, empty] at answer
    rw [absent]
    refine yields_ok ⟨[], answer, .refl, linked.refines ?_ refines.maxSize refines.maxWeight fits⟩
    rw [others, others_of_fresh fresh]
  · subst own
    rw [found, linked.filter_key member] at answer
    rw [found]
    obtain ⟨c', run, links, keeps⟩ := linked.removeElement member
    dsimp only
    rw [run]
    refine yields_ok ⟨[e], answer, keeps.toLogs, links.refines others
      (keeps.maxSize.trans refines.maxSize) (keeps.maxWeight.trans refines.maxWeight) ?_⟩
    rw [← weightOf_perm (linked.perm_others member), weightOf, List.map_cons, List.sum_cons] at fits
    exact (Nat.le_add_left _ _).trans_lt fits

theorem Linked.getOldest (linked : Linked c pairs) (list : a.evictList = pairs.map Prod.snd) :
    c.getOldest = .ok (oldest a) := by
  rw [Cache.getOldest, oldest, list]
  cases pairs with
  | nil => rw [show c.evictList = [] from linked.list]; rfl
  | cons p rest =>
    have head : c.evictList.head? = some p.1 := by rw [linked.list]; rfl
    rw [head]
    dsimp only
    rw [linked.entry List.mem_cons_self]
    rfl

theorem Refines.removeOldest (refines : Refines c a) :
    Yields (c.step fuel range .removeOldest) (Correct c a .removeOldest) := by
  obtain ⟨pairs, linked, list⟩ := refines.links
  have fits := refines.light list
  have answer : Answers a .removeOldest (.oldest (oldest a)) a.evictList.head?.toList :=
    .removeOldest
  rw [list] at answer
  cases pairs with
  | nil =>
    rw [Cache.step, Cache.removeOldest, Cache.dropOldest, linked.getOldest list,
      show c.evictList = [] from linked.list]
    exact yields_ok ⟨[], answer, .refl,
      linked.refines (congrArg List.tail list) refines.maxSize refines.maxWeight fits⟩
  | cons p rest =>
    obtain ⟨c', run, links, keeps⟩ := linked.dropOldest
    rw [Cache.step, Cache.removeOldest, run, linked.getOldest list]
    refine yields_ok ⟨[p.2], answer, keeps.toLogs, links.refines (congrArg List.tail list)
      (keeps.maxSize.trans refines.maxSize) (keeps.maxWeight.trans refines.maxWeight) ?_⟩
    rw [weightOf, List.map_cons, List.sum_cons] at fits
    exact (Nat.le_add_left _ _).trans_lt fits

theorem Refines.purge (refines : Refines c a) :
    Yields (c.step fuel range .purge) (Correct c a .purge) := by
  obtain ⟨pairs, linked, list⟩ := refines.links
  apply yields_bind (linked.purge range)
  rintro c' ⟨links, left, perm, keeps⟩
  refine yields_ok ⟨left, .purge (list ▸ perm), keeps.toLogs, ?_⟩
  exact links.refines rfl (keeps.maxSize.trans refines.maxSize)
    (keeps.maxWeight.trans refines.maxWeight) (by simp [weightOf])

theorem Refines.observe (refines : Refines c a) {reply : Reply K V}
    (run : c.step fuel range action = .ok (reply, c)) (answer : Answers a action reply [])
    (same : next a action = a) : Yields (c.step fuel range action) (Correct c a action) := by
  rw [run]
  exact yields_ok ⟨[], answer, .refl, same.symm ▸ refines⟩

theorem Refines.step (refines : Refines c a) (fits : Fits a action) (enough : a.len + 1 < fuel) :
    Yields (c.step fuel range action) (Correct c a action) := by
  obtain ⟨pairs, linked, list⟩ := refines.links
  cases action with
  | add key value weight => exact refines.add fits enough
  | get key => exact refines.get
  | remove key => exact refines.remove
  | removeOldest => exact refines.removeOldest
  | resize maxWeight maxSize => exact refines.resize fits (Nat.lt_of_succ_lt enough)
  | purge => exact refines.purge
  | contains key =>
    have answer : Answers a (.contains key) (.present (key ∈ a.keys)) [] := .contains
    refine refines.observe ?_ answer rfl
    rw [Cache.step, linked.mem_keys list]
  | peek key =>
    refine refines.observe ?_ .peek rfl
    rw [Cache.step, Cache.peek, Simplewlru.Cache.peek, list]
    rcases linked.lookup key with ⟨absent, fresh⟩ | ⟨element, e, found, member, own⟩
    · rw [absent, find_fresh fresh]
      rfl
    · subst own
      rw [found, linked.find member]
      dsimp only
      rw [linked.entry member]
      rfl
  | getOldest =>
    refine refines.observe ?_ .getOldest rfl
    rw [Cache.step, linked.getOldest list]
    rfl
  | keys =>
    refine refines.observe ?_ .keys rfl
    rw [Cache.step, Cache.keys, linked.mapM_entry, linked.items_perm.length_eq,
      Simplewlru.Cache.keys, list]
    simp [bind, Except.bind]
  | total =>
    refine refines.observe ?_ .total rfl
    rw [Cache.step, refines.weight, Cache.len, linked.list, Simplewlru.Cache.len, list]
    simp

theorem len_next {action : Action K V} : (next a action).len ≤ a.len + 1 := by
  have shorter : ∀ {maxWeight maxSize : Nat} {entries : List (Entry K V)}, entries.length ≤ a.evictList.length + 1 →
      (Simplewlru.Cache.normalize maxWeight maxSize entries).length ≤ a.evictList.length + 1 :=
    fun length => (Simplewlru.Cache.normalize_suffix _ _ _).length_le.trans length
  have others : ∀ p : Entry K V → Bool, (a.evictList.filter p).length ≤ a.evictList.length :=
    fun p => List.length_filter_le p _
  unfold Simplewlru.Cache.len
  cases action with
  | add key value weight => exact shorter (by simpa using others _)
  | get key =>
    rw [next, Simplewlru.Cache.get]
    split
    · exact Nat.le_succ _
    · simpa using others _
  | remove key => exact (others _).trans (Nat.le_succ _)
  | resize maxWeight maxSize => exact shorter (Nat.le_succ _)
  | removeOldest => simp [next]; omega
  | purge => exact Nat.zero_le _
  | _ => exact Nat.le_succ _

theorem Refines.run (refines : Refines c a) {actions : List (Action K V)}
    (admissible : Admissible a actions) (enough : a.len + actions.length < fuel) :
    Yields (c.run fuel range actions) fun r => ∃ left, Replies a actions r.1 left ∧
      Logs c r.2 left ∧ Refines r.2 (actions.foldl next a) := by
  induction actions generalizing c a with
  | nil => exact yields_ok ⟨[], .nil, .refl, refines⟩
  | cons action rest ih =>
    rw [List.length_cons] at enough
    have grown := @len_next K V _ a action
    apply yields_bind (refines.step admissible.1 (by omega))
    rintro ⟨reply, d⟩ ⟨left, answer, logs, after⟩
    apply yields_bind (ih after admissible.2 (by omega))
    rintro ⟨replies, d'⟩ ⟨more, answers, logs', final⟩
    exact yields_ok ⟨left ++ more, .cons answer answers, logs.trans logs', final⟩

/-- The cache behaves as the list cache: it answers as that does, holds the same entries, and
calls back once for every entry that leaves. -/
theorem cache_refines (range : RangeOrder K) (maxWeight maxSize fuel : Nat) (onEvict : Bool)
    (actions : List (Action K V)) (enough : actions.length < fuel)
    (admissible : Admissible (Simplewlru.Cache.new maxWeight maxSize) actions) :
    ∃ c : Cache K V, Cache.newWithEvict maxWeight maxSize onEvict = .ok c ∧
      ∃ c' replies left, c.run fuel range actions = .ok (replies, c') ∧
        Replies (Simplewlru.Cache.new maxWeight maxSize) actions replies left ∧
        Refines c' (actions.foldl next (Simplewlru.Cache.new maxWeight maxSize)) ∧
        c'.evicted = if onEvict then left.map fun e => (e.key, e.value) else [] := by
  refine ⟨⟨maxSize, 0, maxWeight, [], ∅, onEvict, [], []⟩,
    if_neg (Int.not_lt.mpr (Int.natCast_nonneg _)), ?_⟩
  have empty : Linked (⟨maxSize, 0, maxWeight, [], ∅, onEvict, [], []⟩ : Cache K V) [] :=
    ⟨rfl, nofun, .nil, .nil, by simp, nofun, rfl⟩
  have refines := empty.refines (a := Simplewlru.Cache.new maxWeight maxSize) rfl rfl rfl (by simp [weightOf])
  obtain ⟨⟨replies, c'⟩, run, left, answers, logs, final⟩ :=
    refines.run admissible (by simpa [Simplewlru.Cache.new, Simplewlru.Cache.len] using enough)
  exact ⟨c', replies, left, run, answers, final, logs.evicted⟩

/-- Two entries of weight two in a cache of weight three, and one that does not fit at all. -/
theorem cache_refines_heavy : ∃ c : Cache Nat Nat, Cache.newWithEvict 3 4 true = .ok c ∧
    ∃ c' replies left, c.run 5 ⟨id, .refl⟩ [.add 1 10 2, .add 2 20 2, .add 3 30 7, .purge] =
      .ok (replies, c') ∧ c'.evicted = left ∧ left.length = 3 := by
  obtain ⟨c, made, c', replies, left, run, _⟩ := cache_refines (K := Nat) (V := Nat) ⟨id, .refl⟩ 3 4 5
    true [.add 1 10 2, .add 2 20 2, .add 3 30 7, .purge] (by decide)
    (by simp only [Admissible, Fits]; decide)
  cases made
  cases run
  exact ⟨_, rfl, _, _, _, rfl, rfl, rfl⟩

end Refinement

section Shrinking

variable [DecidableEq K] {c : Cache K V} {fuel : Nat}

theorem dropOldest_maxSize : Ensures c.dropOldest fun d => d.maxSize = c.maxSize := by
  unfold Cache.dropOldest
  split
  · exact ensures_bind (ensures_any _) fun kv _ => ensures_ok rfl
  · exact ensures_ok rfl

theorem normalize_negative (negative : c.maxSize < 0) :
    Ensures (c.normalize fuel) fun _ => False := by
  induction fuel generalizing c with
  | zero => exact ensures_error
  | succ fuel ih =>
    have exceeds : c.maxSize < c.len := negative.trans_le (Int.natCast_nonneg _)
    rw [Cache.normalize, if_pos (.inr exceeds)]
    refine ensures_bind dropOldest_maxSize fun d same => ?_
    exact ensures_bind (ih (same.symm ▸ negative)) fun _ => False.elim

structure Sound (c : Cache K V) : Prop where
  natural : 0 ≤ c.maxSize
  links : ∃ pairs, Linked c pairs

theorem Sound.keeps {d : Cache K V} {pairs : List (Nat × Entry K V)} {left : List (Entry K V)}
    (sound : Sound c) (linked : Linked d pairs) (keeps : Keeps c d left) : Sound d :=
  ⟨keeps.maxSize ▸ sound.natural, pairs, linked⟩

theorem Sound.dropOldest (sound : Sound c) : Ensures c.dropOldest Sound := by
  obtain ⟨pairs, linked⟩ := sound.links
  cases pairs with
  | nil =>
    rw [Cache.dropOldest, linked.list]
    exact ensures_ok sound
  | cons p rest =>
    refine ensures_mono (ensures_of_yields linked.dropOldest) ?_
    exact fun d ⟨links, keeps⟩ => sound.keeps links keeps

theorem Sound.normalize (sound : Sound c) : Ensures (c.normalize fuel) fun r => Sound r.2 := by
  induction fuel generalizing c with
  | zero => exact ensures_error
  | succ fuel ih =>
    rw [Cache.normalize]
    split_ifs
    · refine ensures_bind sound.dropOldest fun d after => ?_
      exact ensures_bind (ih after) fun r last => ensures_ok last
    · exact ensures_ok sound

def Typed : Action K V → Prop
  | .add _ _ weight => weight < 2 ^ 64
  | _ => True

theorem Sound.step {range : RangeOrder K} {action : Action K V} (sound : Sound c)
    (typed : Typed action) : Ensures (c.step fuel range action) fun r => Sound r.2 := by
  obtain ⟨pairs, linked⟩ := sound.links
  cases action with
  | add key value weight =>
    obtain ⟨d, element, same, links, keeps⟩ := linked.add typed key value
    rw [Cache.step, same]
    exact ensures_bind (sound.keeps links keeps).normalize fun r after => ensures_ok after
  | get key =>
    rw [Cache.step, Cache.get]
    rcases linked.lookup key with ⟨absent, _⟩ | ⟨element, e, found, member, _⟩
    · rw [absent]
      exact ensures_ok sound
    · rw [found]
      have moved : Sound (c.moveToFront element) := ⟨sound.natural, _, linked.moveToFront member⟩
      refine ensures_bind (ensures_bind (ensures_any _) ?_) fun r after => ensures_ok after
      exact fun e _ => ensures_ok moved
  | remove key =>
    rw [Cache.step, Cache.remove]
    rcases linked.lookup key with ⟨absent, _⟩ | ⟨element, e, found, member, _⟩
    · rw [absent]
      exact ensures_ok sound
    · rw [found]
      refine ensures_bind (ensures_bind (ensures_of_yields (linked.removeElement member)) ?_)
        fun r after => ensures_ok after
      exact fun d ⟨links, keeps⟩ => ensures_ok (sound.keeps links keeps)
  | removeOldest =>
    refine ensures_bind (ensures_bind sound.dropOldest fun d after => ?_) fun r after => ensures_ok after
    exact ensures_bind (ensures_any _) fun _ _ => ensures_ok after
  | resize maxWeight maxSize =>
    refine ensures_bind ?_ fun r after => ensures_ok after
    rcases lt_or_ge maxSize 0 with negative | natural
    · exact ensures_mono (normalize_negative negative) fun _ => False.elim
    · exact Sound.normalize ⟨natural, pairs, { linked with }⟩
  | purge =>
    refine ensures_bind (ensures_of_yields (linked.purge range)) ?_
    rintro d ⟨links, _, _, keeps⟩
    exact ensures_ok (sound.keeps links keeps)
  | peek | getOldest | keys => exact ensures_bind (ensures_any _) fun _ _ => ensures_ok sound
  | contains | total => exact ensures_ok sound

/-- The states between the calls, of one `Purge` after the other in any order. -/
inductive Reachable : Cache K V → Prop where
  | new {maxWeight : Nat} {maxSize : Int} {onEvict : Bool} {c : Cache K V}
      (made : Cache.newWithEvict maxWeight maxSize onEvict = .ok c) : Reachable c
  | step {c c' : Cache K V} {fuel : Nat} {range : RangeOrder K} {action : Action K V}
      {reply : Reply K V} (before : Reachable c) (typed : Typed action)
      (run : c.step fuel range action = .ok (reply, c')) : Reachable c'

theorem Reachable.sound (reachable : Reachable c) : Sound c := by
  induction reachable with
  | @new maxWeight maxSize onEvict c made =>
    rw [Cache.newWithEvict] at made
    split_ifs at made with negative
    cases made
    exact ⟨Int.not_lt.mp negative, [], rfl, nofun, .nil, .nil, by simp, nofun, rfl⟩
  | step _ typed run ih => exact ih.step typed _ run

/-- `Resize` ends, with the cache within the limits or empty, unless the size is negative. -/
theorem resize_ends_iff (reachable : Reachable c) (maxWeight : Nat) (maxSize : Int) :
    (∃ fuel r, c.resize fuel maxWeight maxSize = .ok r ∧
      (r.2.weight ≤ maxWeight ∧ r.2.len ≤ maxSize ∨ r.2.evictList = [])) ↔ 0 ≤ maxSize := by
  obtain ⟨_, pairs, linked⟩ := reachable.sound
  constructor
  · rintro ⟨fuel, r, run, _⟩
    by_contra negative
    exact normalize_negative (Int.not_le.mp negative) r run
  · intro natural
    have limited : Linked { c with maxWeight := maxWeight, maxSize := maxSize } pairs :=
      { linked with }
    obtain ⟨r, run, left, kept, normalized⟩ := limited.normalize natural (Nat.lt_succ_self _)
    refine ⟨_, r, run, .inl ?_⟩
    rw [normalized.linked.weight, Cache.len, normalized.linked.list, List.length_map]
    exact ⟨normalized.within.weight, normalized.within.size⟩

/-- `Resize(5, -1)` of an empty cache never returns. -/
theorem resize_hangs : ∃ c : Cache Nat Nat, Reachable c ∧ c.evictList = [] ∧
    ∀ fuel r, c.resize fuel 5 (-1) ≠ .ok r := by
  refine ⟨_, @Reachable.new _ _ _ 5 3 false _ rfl, rfl, ?_⟩
  exact fun fuel r run => normalize_negative (by decide) r run

theorem resize_ends_heavy : ∃ c : Cache Nat Nat, Reachable c ∧ ∃ fuel r,
    c.resize fuel 1 2 = .ok r ∧ (r.2.weight ≤ 1 ∧ r.2.len ≤ (2 : Int) ∨ r.2.evictList = []) := by
  obtain ⟨c, reachable⟩ : ∃ c : Cache Nat Nat, Reachable c :=
    ⟨_, @Reachable.step _ _ _ _ _ 5 ⟨id, .refl⟩ (.add 1 10 2) _
      (@Reachable.new _ _ _ 5 3 false _ rfl) (show 2 < 2 ^ 64 by decide) rfl⟩
  exact ⟨c, reachable, (resize_ends_iff reachable 1 2).mpr (by decide)⟩

end Shrinking

end Lachesis.Wlru
