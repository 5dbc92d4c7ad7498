import Mathlib

/-!
The two storage layers under the index and the orderer: the weighted LRU cache of
`utils/simplewlru` and the write overlay of `kvdb/flushable`.
-/

namespace Lachesis.Simplewlru

structure Entry (K V : Type) where
  key : K
  value : V
  weight : Nat
  deriving DecidableEq

/-- The eviction list is kept oldest first. -/
structure Cache (K V : Type) where
  maxWeight : Nat
  maxSize : Nat
  evictList : List (Entry K V)
  deriving DecidableEq

namespace Cache

variable {K V : Type}

def new (maxWeight maxSize : Nat) : Cache K V :=
  { maxWeight := maxWeight
    maxSize := maxSize
    evictList := [] }

def purge (c : Cache K V) : Cache K V := { c with evictList := [] }

/-- `normalize`: remove the oldest entries until weight and number fit. -/
def normalize (maxWeight maxSize : Nat) : List (Entry K V) → List (Entry K V)
  | [] => []
  | oldest :: rest =>
    if maxWeight < ((oldest :: rest).map Entry.weight).sum ∨
        maxSize < (oldest :: rest).length then
      normalize maxWeight maxSize rest
    else oldest :: rest

variable [DecidableEq K]

def add (c : Cache K V) (key : K) (value : V) (weight : Nat) : Cache K V :=
  let entries := c.evictList.filter (fun ent => ent.key ≠ key) ++ [⟨key, value, weight⟩]
  { c with evictList := normalize c.maxWeight c.maxSize entries }

def get (c : Cache K V) (key : K) : Option V × Cache K V :=
  match c.evictList.find? fun ent => ent.key = key with
  | none => (none, c)
  | some ent =>
    (some ent.value,
      { c with evictList := c.evictList.filter (fun ent => ent.key ≠ key) ++ [ent] })

def peek (c : Cache K V) (key : K) : Option V :=
  (c.evictList.find? fun ent => ent.key = key).map Entry.value

def remove (c : Cache K V) (key : K) : Cache K V :=
  { c with evictList := c.evictList.filter fun ent => ent.key ≠ key }

def keys (c : Cache K V) : List K := c.evictList.map Entry.key

def len (c : Cache K V) : Nat := c.evictList.length

def weight (c : Cache K V) : Nat := (c.evictList.map Entry.weight).sum

def Holds (c : Cache K V) (p : K → V → Prop) : Prop := ∀ ent ∈ c.evictList, p ent.key ent.value

variable {c : Cache K V} {p : K → V → Prop}

omit [DecidableEq K] in
theorem new_holds (maxWeight maxSize : Nat) : (new maxWeight maxSize : Cache K V).Holds p := by
  simp [Holds, new]

omit [DecidableEq K] in
theorem purge_holds : c.purge.Holds p := by
  simp [Holds, purge]

variable {maxSize maxWeight : Nat}

omit [DecidableEq K] in
theorem mem_of_mem_normalize {ent : Entry K V} :
    ∀ {entries : List (Entry K V)}, ent ∈ normalize maxWeight maxSize entries → ent ∈ entries := by
  intro entries
  induction entries with
  | nil => simp [normalize]
  | cons oldest rest ih =>
    intro member
    simp only [normalize] at member
    split at member
    · exact List.mem_cons_of_mem _ (ih member)
    · exact member

omit [DecidableEq K] in
theorem normalize_suffix (maxWeight maxSize : Nat) :
    ∀ entries : List (Entry K V), normalize maxWeight maxSize entries <:+ entries := by
  intro entries
  induction entries with
  | nil => exact List.suffix_refl _
  | cons oldest rest ih =>
    rw [normalize]
    split
    · exact ih.trans (List.suffix_cons oldest rest)
    · exact List.suffix_refl _

omit [DecidableEq K] in
theorem normalize_of_fits {entries : List (Entry K V)}
    (weight : (entries.map Entry.weight).sum ≤ maxWeight) (size : entries.length ≤ maxSize) :
    normalize maxWeight maxSize entries = entries := by
  cases entries with
  | nil => rfl
  | cons oldest rest => rw [normalize, if_neg (by omega)]

theorem add_holds {key : K} {value : V} {weight : Nat}
    (others : ∀ ent ∈ c.evictList, ent.key ≠ key → p ent.key ent.value) (fits : p key value) :
    (c.add key value weight).Holds p := by
  intro ent member
  rcases List.mem_append.mp (mem_of_mem_normalize member) with old | new
  · grind
  · rw [List.mem_singleton.mp new]
    exact fits

theorem get_holds (holds : c.Holds p) (key : K) :
    (c.get key).2.Holds p ∧ ∀ value, (c.get key).1 = some value → p key value := by
  unfold get
  split
  · exact ⟨holds, by simp⟩
  · next ent found =>
    have inside := List.mem_of_find?_eq_some found
    have same : ent.key = key := by simpa using List.find?_some found
    refine ⟨?_, fun value eq => ?_⟩
    · intro other member
      rcases List.mem_append.mp member with old | new
      · exact holds other (List.mem_filter.mp old).1
      · rw [List.mem_singleton.mp new]
        exact holds ent inside
    · cases eq
      exact same ▸ holds ent inside

theorem get_none {key : K} (missing : (c.get key).1 = none) :
    (c.get key).2 = c ∧ ∀ ent ∈ c.evictList, ent.key ≠ key := by
  unfold get at missing ⊢
  split at missing
  · next none => exact ⟨rfl, by simpa using none⟩
  · cases missing

end Cache

end Lachesis.Simplewlru

namespace Lachesis

/-- A table of `flushable`: writes wait in `modified` until they are flushed. -/
structure Flushable (K V : Type) where
  underlying : List (K × V)
  modified : List (K × V)
  deriving DecidableEq

namespace Flushable

variable {K V : Type} [DecidableEq K]

def wrap (underlying : List (K × V)) : Flushable K V :=
  { underlying := underlying
    modified := [] }

def get (f : Flushable K V) (key : K) : Option V :=
  match f.modified.lookup key with
  | some value => some value
  | none => f.underlying.lookup key

def put (f : Flushable K V) (key : K) (value : V) : Flushable K V :=
  { f with modified := (key, value) :: f.modified.filter fun pair => pair.1 ≠ key }

def notFlushedPairs (f : Flushable K V) : Nat := f.modified.length

def flush (f : Flushable K V) : Flushable K V :=
  { underlying := f.modified ++ f.underlying
    modified := [] }

def dropNotFlushed (f : Flushable K V) : Flushable K V := { f with modified := [] }

theorem lookup_filter_ne (pairs : List (K × V)) {key other : K} (different : other ≠ key) :
    (pairs.filter fun pair => pair.1 ≠ key).lookup other = pairs.lookup other := by
  induction pairs with
  | nil => rfl
  | cons pair rest ih => grind

@[simp] theorem get_put (f : Flushable K V) (key other : K) (value : V) :
    (f.put key value).get other = if other = key then some value else f.get other := by
  unfold get put
  by_cases same : other = key
  · simp [same]
  · have miss : (other == key) = false := by simpa using same
    simp only [List.lookup, miss, same, ↓reduceIte]
    rw [lookup_filter_ne _ same]

omit [DecidableEq K] in
theorem lookup_append [BEq K] (left right : List (K × V)) (key : K) :
    (left ++ right).lookup key = match left.lookup key with
      | some value => some value
      | none => right.lookup key := by
  induction left with
  | nil => rfl
  | cons pair rest ih => grind

@[simp] theorem get_flush (f : Flushable K V) (key : K) : f.flush.get key = f.get key := by
  simp only [get, flush, List.lookup, lookup_append]

@[simp] theorem get_wrap (underlying : List (K × V)) (key : K) :
    (wrap underlying).get key = underlying.lookup key := rfl

@[simp] theorem get_dropNotFlushed (f : Flushable K V) (key : K) :
    f.dropNotFlushed.get key = f.underlying.lookup key := rfl

end Flushable

end Lachesis
