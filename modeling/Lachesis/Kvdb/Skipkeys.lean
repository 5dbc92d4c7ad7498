import Lachesis.Kvdb.TableViews

/-!
`kvdb/skipkeys`: a store that hides the keys of one prefix. `Has`, `Get` and `NewIterator`
are its own; whatever else a store can do, snapshots included, is the underlying store's.
-/

namespace Lachesis.Kvdb.Skipkeys

variable {S Snap : Type} (store : Store S) (snaps : Snapshots S Snap) (skipPrefix : Bytes)

/-- `Next` of the iterator: it moves on at least once, and on from every skipped key. The
list is what the underlying iterator has ahead. -/
def next : List (Bytes × Bytes) → Option ((Bytes × Bytes) × List (Bytes × Bytes))
  | [] => none
  | pair :: rest => if skipPrefix <+: pair.1 then next rest else some (pair, rest)

def walk : Nat → List (Bytes × Bytes) → List (Bytes × Bytes)
  | 0, _ => []
  | rounds + 1, pairs =>
    match next skipPrefix pairs with
    | none => []
    | some (pair, rest) => pair :: walk rounds rest

def asStore : Store S where
  has s key := if skipPrefix <+: key then .ok false else store.has s key
  get s key := if skipPrefix <+: key then .ok none else store.get s key
  newIterator s pre start :=
    match store.newIterator s pre start with
    | .error err => .error err
    | .ok pairs => .ok (walk skipPrefix pairs.length pairs)
  put := store.put
  delete := store.delete
  write := store.write
  valueSize := store.valueSize

def snapshots : Snapshots S Snap := snaps

def hidden (m : Contents) : Contents := fun k => if skipPrefix <+: k then none else m k

variable {skipPrefix} {store snaps}

variable {pairs : List (Bytes × Bytes)}

/-- Enough calls of `Next` yield every key that is not skipped, and no other. -/
theorem walk_eq {rounds : Nat} (enough : pairs.length ≤ rounds) :
    walk skipPrefix rounds pairs = pairs.filter fun pair => ¬ skipPrefix <+: pair.1 := by
  induction pairs generalizing rounds with
  | nil => cases rounds <;> rfl
  | cons pair rest ih =>
    obtain _ | rounds := rounds
    · cases enough
    · by_cases skipped : skipPrefix <+: pair.1
      · have again := ih (Nat.le_of_succ_le enough)
        simp only [walk, next, skipped, ↓reduceIte] at again ⊢
        simp [again, skipped]
      · simp only [walk, next, skipped, ↓reduceIte]
        rw [ih (Nat.le_of_succ_le_succ enough)]
        simp [skipped]

theorem listing_hidden {m : Contents} {pre start : Bytes} (listing : m.Listing pre start pairs) :
    (hidden skipPrefix m).Listing pre start
      (pairs.filter fun pair => ¬ skipPrefix <+: pair.1) where
  ascending := listing.ascending.filter _
  mem k v := by
    rw [List.mem_filter, listing.mem]
    by_cases skipped : skipPrefix <+: k <;> simp [hidden, skipped]

theorem readsAs_hidden (map : ReadMap store) {s : S} (valid : map.Valid s) :
    ReadsAs (asStore store skipPrefix) s (hidden skipPrefix (map.contents s)) := by
  constructor
  · intro k
    by_cases skipped : skipPrefix <+: k <;> simp [asStore, hidden, skipped, map.has valid]
  · intro k
    by_cases skipped : skipPrefix <+: k <;> simp [asStore, hidden, skipped, map.get valid]
  · intro pre start
    obtain ⟨pairs, found, listing⟩ := map.newIterator valid pre start
    refine ⟨_, ?_, listing_hidden listing⟩
    simp only [asStore, found, walk_eq le_rfl]

/-- The store's reads always present the contents without the skipped keys. All read paths
do, the reads of a snapshot included, exactly when there is no skipped key to hide. -/
theorem skipped_hidden_iff (map : ReadMap store) (frozen : Frozen map snaps) (skipPrefix : Bytes)
    {s : S} (valid : map.Valid s) :
    ReadsAs (asStore store skipPrefix) s (hidden skipPrefix (map.contents s)) ∧
    ((ReadsAs (asStore store skipPrefix) s (hidden skipPrefix (map.contents s)) ∧
      ∃ snap, (snapshots snaps).getSnapshot s = .ok snap ∧
        ReadsAs (snapshots snaps).asStore (s, snap) (hidden skipPrefix (map.contents s))) ↔
      ∀ k, skipPrefix <+: k → map.contents s k = none) := by
  have own : ReadsAs (asStore store skipPrefix) s _ := readsAs_hidden map valid
  obtain ⟨snap, taken, holds⟩ := frozen.take valid
  refine ⟨own, ?_, ?_⟩
  · rintro ⟨_, other, again, reads⟩ k skipped
    cases taken.symm.trans again
    have value := (frozen.get holds k).symm.trans (reads.get k)
    rw [hidden, if_pos skipped] at value
    exact Except.ok.inj value
  · intro absent
    have same : hidden skipPrefix (map.contents s) = map.contents s := by
      funext k
      by_cases skipped : skipPrefix <+: k
      · rw [hidden, if_pos skipped, absent k skipped]
      · rw [hidden, if_neg skipped]
    refine ⟨own, snap, taken, ?_⟩
    rw [same]
    exact (frozen.readMap _).readsAs (s := (s, snap)) holds

def memorydbSnapshots : Snapshots (Flushable Unit) (Flushable.Snapshot Unit) :=
  Flushable.snapshots devnulldb.snapshots (.plain _ _)

/-- The snapshot of a memory database shows a key that its store hides. -/
theorem snapshot_shows_skipped : ∃ t snap, memorydb.put (.wrap ()) [1] [5] = .ok t ∧
    (asStore memorydb [1]).get t [1] = .ok none ∧
    (snapshots memorydbSnapshots).getSnapshot t = .ok snap ∧
    (snapshots memorydbSnapshots).get t snap [1] = .ok (some [5]) :=
  ⟨_, _, rfl, rfl, rfl, rfl⟩

/-- A key beside the skipped ones: the snapshot shows it as well. -/
theorem skipped_hidden_beside : ∃ t snap, memorydb.put (.wrap ()) [2] [5] = .ok t ∧
    (snapshots memorydbSnapshots).getSnapshot t = .ok snap ∧
    (snapshots memorydbSnapshots).get t snap [2] = .ok (some [5]) ∧
    ReadsAs (snapshots memorydbSnapshots).asStore (t, snap)
      (hidden [1] (Contents.apply (fun _ => none) ⟨[2], some [5]⟩)) := by
  have frozen : Frozen memorydb.orderedMap.toReadMap memorydbSnapshots :=
    Flushable.frozen (.plain _ _) devnulldb.frozen
  obtain ⟨t, put, valid, contents⟩ := memorydb.orderedMap.put creates_memorydb.valid [2] [5]
  rw [creates_memorydb.empty] at contents
  have absent : ∀ k, [1] <+: k → memorydb.orderedMap.contents t k = none := by
    rw [contents]
    rintro _ ⟨rest, rfl⟩
    rfl
  obtain ⟨_, snap, taken, reads⟩ :=
    (skipped_hidden_iff memorydb.orderedMap.toReadMap frozen [1] valid).2.mpr absent
  rw [contents] at reads
  exact ⟨t, snap, put, taken, reads.get [2], reads⟩

end Lachesis.Kvdb.Skipkeys
