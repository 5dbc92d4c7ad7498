import Lachesis.Kvdb.Store

/-!
`table.Table`: the part of a store under a prefix, with the prefix taken off.
-/

namespace Lachesis.Kvdb.Table

/-- NOTE: key collisions are possible -/
def separator : Bytes := []

def prefixed (key pre : Bytes) : Bytes := pre ++ separator ++ key

def noPrefix (key pre : Bytes) : Bytes :=
  if key.length < pre.length + separator.length then key
  else key.drop (pre.length + separator.length)

def prefixedWrite (pre : Bytes) (w : Write) : Write := ⟨prefixed w.key pre, w.value⟩

variable {S : Type} (store : Store S) (pre : Bytes)

def asStore : Store S where
  has s key := store.has s (prefixed key pre)
  get s key := store.get s (prefixed key pre)
  newIterator s itPrefix start :=
    match store.newIterator s (prefixed itPrefix pre) start with
    | .error err => .error err
    | .ok pairs => .ok (pairs.map fun pair => (noPrefix pair.1 pre, pair.2))
  put s key value := store.put s (prefixed key pre) value
  delete s key := store.delete s (prefixed key pre)
  write s writes := store.write s (writes.map (prefixedWrite pre))
  valueSize writes := store.valueSize (writes.map (prefixedWrite pre))

theorem prefixed_eq (key : Bytes) : prefixed key pre = pre ++ key := by
  rw [prefixed, separator, List.append_nil]

theorem noPrefix_append (key : Bytes) : noPrefix (pre ++ key) pre = key := by
  simp [noPrefix, separator]

def part (m : Contents) : Contents := fun k => m (pre ++ k)

variable {pre}

theorem part_apply (m : Contents) (w : Write) :
    part pre (m.apply (prefixedWrite pre w)) = (part pre m).apply w := by
  funext k
  simp only [part, Contents.apply, prefixedWrite, prefixed_eq]
  by_cases same : k = w.key
  · simp [same]
  · rw [Function.update_of_ne (by simpa using same), Function.update_of_ne same]
    rfl

theorem part_applyAll (m : Contents) (writes : List Write) :
    part pre (m.applyAll (writes.map (prefixedWrite pre))) = (part pre m).applyAll writes := by
  induction writes generalizing m with
  | nil => rfl
  | cons w rest ih =>
    rw [List.map_cons, Contents.applyAll, List.foldl_cons, ← Contents.applyAll, ih, part_apply]
    rfl

theorem listing_part {m : Contents} {itPrefix start : Bytes} {pairs : List (Bytes × Bytes)}
    (listing : m.Listing (prefixed itPrefix pre) start pairs) :
    (part pre m).Listing itPrefix start (pairs.map fun pair => (noPrefix pair.1 pre, pair.2)) := by
  have own : ∀ x ∈ pairs, ∃ k, x.1 = pre ++ k := by
    intro x inside
    obtain ⟨rest, eq⟩ := ((listing.mem x.1 x.2).mp inside).2.1
    rw [prefixed_eq, List.append_assoc] at eq
    exact ⟨_, eq.symm⟩
  refine ⟨List.pairwise_map.mpr (listing.ascending.imp_of_mem fun {a b} insideA insideB less => ?_),
    fun k v => ?_⟩
  · obtain ⟨k, eqA⟩ := own a insideA
    obtain ⟨l, eqB⟩ := own b insideB
    rw [eqA, eqB] at less
    rw [eqA, eqB, noPrefix_append, noPrefix_append]
    exact (append_lt_append_iff pre).mp less
  · have here : (k, v) ∈ pairs.map (fun pair => (noPrefix pair.1 pre, pair.2)) ↔
        (pre ++ k, v) ∈ pairs := by
      rw [List.mem_map]
      constructor
      · rintro ⟨x, inside, eq⟩
        obtain ⟨l, eqX⟩ := own x inside
        rw [eqX, noPrefix_append, Prod.mk.injEq] at eq
        rwa [← eq.1, ← eq.2, ← eqX]
      · exact fun inside => ⟨_, inside, by rw [noPrefix_append]⟩
    rw [here, listing.mem, prefixed_eq, List.prefix_append_right_inj, List.append_assoc,
      append_le_append_iff]
    rfl

variable {store} (pre)

def orderedMap (map : OrderedMap store) : OrderedMap (asStore store pre) where
  Valid := map.Valid
  contents s := part pre (map.contents s)
  has valid k := by
    rw [asStore, map.has valid, prefixed_eq]
    rfl
  get valid k := by
    rw [asStore, map.get valid, prefixed_eq]
    rfl
  newIterator {s} valid itPrefix start := by
    obtain ⟨pairs, found, listing⟩ := map.newIterator valid (prefixed itPrefix pre) start
    exact ⟨_, by simp only [asStore, found], listing_part listing⟩
  put {s} valid k v := by
    obtain ⟨t, done, after, contents⟩ := map.put valid (prefixed k pre) v
    exact ⟨t, done, after, by rw [contents, ← part_apply]; rfl⟩
  delete {s} valid k := by
    obtain ⟨t, done, after, contents⟩ := map.delete valid (prefixed k pre)
    exact ⟨t, done, after, by rw [contents, ← part_apply]; rfl⟩
  write {s} valid writes := by
    obtain ⟨t, done, after, contents⟩ := map.write valid (writes.map (prefixedWrite pre))
    exact ⟨t, done, after, by rw [contents, part_applyAll]⟩

end Lachesis.Kvdb.Table
