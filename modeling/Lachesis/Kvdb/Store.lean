import Lachesis.Library.BigEndian

/-!
`kvdb.Store` and what it means that a store behaves as an ordered map of byte strings.
A batch is the list of its writes; an iterator is the list of the pairs that `Next` walks
through, or the error it holds.
-/

namespace Lachesis.Kvdb

abbrev Bytes := List (Fin 256)

inductive Error where
  /-- "database closed" -/
  | databaseClosed
  /-- "flushable: key or value is nil" -/
  | nilKeyOrValue
  /-- "operation is unsupported" -/
  | unsupportedOp
  /-- A nil tree is dereferenced: a panic, not a returned error. -/
  | nilTree
  /-- An error of the disk. -/
  | failed (code : Nat)
  deriving DecidableEq

/-- A write with no value deletes its key. -/
structure Write where
  key : Bytes
  value : Option Bytes
  deriving DecidableEq

/-- A write that returns an error leaves the state as it was. -/
structure Store (S : Type) where
  has : S → Bytes → Except Error Bool
  get : S → Bytes → Except Error (Option Bytes)
  newIterator : S → (pre start : Bytes) → Except Error (List (Bytes × Bytes))
  put : S → Bytes → Bytes → Except Error S
  delete : S → Bytes → Except Error S
  write : S → List Write → Except Error S
  valueSize : List Write → Nat

def idealBatchSize : Nat := 100 * 1024

abbrev Contents := Bytes → Option Bytes

namespace Contents

def apply (m : Contents) (w : Write) : Contents := Function.update m w.key w.value

def applyAll (m : Contents) (writes : List Write) : Contents := writes.foldl apply m

theorem applyAll_append (m : Contents) (first second : List Write) :
    m.applyAll (first ++ second) = (m.applyAll first).applyAll second := List.foldl_append

structure Listing (m : Contents) (pre start : Bytes) (pairs : List (Bytes × Bytes)) : Prop where
  ascending : pairs.Pairwise fun a b => a.1 < b.1
  mem : ∀ k v, (k, v) ∈ pairs ↔ m k = some v ∧ pre <+: k ∧ pre ++ start ≤ k

theorem Listing.unique {m : Contents} {pre start : Bytes} {pairs pairs' : List (Bytes × Bytes)}
    (listing : m.Listing pre start pairs) (listing' : m.Listing pre start pairs') :
    pairs = pairs' := by
  have distinct : ∀ {l : List (Bytes × Bytes)}, l.Pairwise (fun a b => a.1 < b.1) → l.Nodup :=
    fun ascending => ascending.imp fun less same => absurd (congrArg Prod.fst same) less.ne
  have perm : pairs.Perm pairs' := by
    rw [List.perm_ext_iff_of_nodup (distinct listing.ascending) (distinct listing'.ascending)]
    intro x
    rw [listing.mem x.1 x.2, listing'.mem x.1 x.2]
  refine perm.eq_of_pairwise ?_ listing.ascending listing'.ascending
  intro a b _ _ less more
  exact absurd more (lt_asymm less)

end Contents

/-- The states that meet `Valid` read as ordered maps. -/
structure ReadMap {S : Type} (store : Store S) where
  Valid : S → Prop
  contents : S → Contents
  has : ∀ {s}, Valid s → ∀ k, store.has s k = .ok (contents s k).isSome
  get : ∀ {s}, Valid s → ∀ k, store.get s k = .ok (contents s k)
  newIterator : ∀ {s}, Valid s → ∀ pre start,
    ∃ pairs, store.newIterator s pre start = .ok pairs ∧ (contents s).Listing pre start pairs

structure OrderedMap {S : Type} (store : Store S) extends ReadMap store where
  put : ∀ {s}, Valid s → ∀ k v, ∃ t, store.put s k v = .ok t ∧ Valid t ∧
    contents t = (contents s).apply ⟨k, some v⟩
  delete : ∀ {s}, Valid s → ∀ k, ∃ t, store.delete s k = .ok t ∧ Valid t ∧
    contents t = (contents s).apply ⟨k, none⟩
  write : ∀ {s}, Valid s → ∀ writes, ∃ t, store.write s writes = .ok t ∧ Valid t ∧
    contents t = (contents s).applyAll writes

structure Creates {S : Type} {store : Store S} (map : OrderedMap store) (fresh : S) : Prop where
  valid : map.Valid fresh
  empty : map.contents fresh = fun _ => none

def devnulldb : Store Unit where
  has _ _ := .ok false
  get _ _ := .ok none
  newIterator _ _ _ := .ok []
  put s _ _ := .ok s
  delete s _ := .ok s
  write s _ := .ok s
  valueSize _ := 0

def devnulldb.readMap : ReadMap devnulldb where
  Valid _ := True
  contents _ _ := none
  has _ _ := rfl
  get _ _ := rfl
  newIterator _ _ _ := ⟨[], rfl, .nil, by simp⟩

section Order

variable {α : Type} [LinearOrder α]

variable {m l pre : List α}

theorem cons_le_cons_iff {a b : α} : a :: l ≤ b :: m ↔ a < b ∨ a = b ∧ l ≤ m := by
  rw [← not_lt, List.cons_lt_cons_iff, not_or, not_lt, not_and, not_lt]
  grind

theorem nil_le (l : List α) : [] ≤ l := not_lt.mp (List.not_lt_nil l)

theorem append_le_append_iff (pre : List α) : pre ++ l ≤ pre ++ m ↔ l ≤ m := by
  induction pre with
  | nil => rfl
  | cons first rest ih => simp [cons_le_cons_iff, ih]

theorem append_lt_append_iff (pre : List α) : pre ++ l < pre ++ m ↔ l < m := by
  rw [← not_le, ← not_le, append_le_append_iff]

theorem le_of_prefixed (starts : pre <+: l) : pre ≤ l := by
  obtain ⟨rest, rfl⟩ := starts
  simpa using (append_le_append_iff pre).mpr (nil_le rest)

theorem not_prefixed_of_le (after : pre ≤ l) (gap : ¬ pre <+: l) (le : l ≤ m) : ¬ pre <+: m := by
  induction pre generalizing l m with
  | nil => exact absurd List.nil_prefix gap
  | cons first rest ih =>
    cases l with
    | nil => exact absurd after (not_le.mpr (List.nil_lt_cons first rest))
    | cons a l =>
      cases m with
      | nil => exact absurd le (not_le.mpr (List.nil_lt_cons a l))
      | cons b m =>
        rw [List.cons_prefix_cons] at gap ⊢
        rintro ⟨rfl, starts⟩
        rcases cons_le_cons_iff.mp after with less | ⟨rfl, afterRest⟩
        · rcases cons_le_cons_iff.mp le with more | ⟨rfl, _⟩
          · exact lt_asymm less more
          · exact lt_irrefl _ less
        · rcases cons_le_cons_iff.mp le with more | ⟨_, le⟩
          · exact lt_irrefl _ more
          · exact ih afterRest (fun starts => gap ⟨rfl, starts⟩) le starts

end Order

end Lachesis.Kvdb
