import Lachesis.Kvdb.FlushableOverlay

/-!
`Flush` over a parent whose batches may fail. Any call of the batch may return an error, and
a `Write` that does may have applied a beginning of its writes. The parent is then left with
a part of the overlay, which the overlay still hides.
-/

namespace Lachesis.Kvdb

open SearchTree

/-- A failing call; `applied` counts the writes that a failing `Write` has made. -/
structure Fault where
  err : Error
  applied : Nat

namespace Flushable

variable {S : Type} (store : Store S) (fault : Nat → Option Fault)

def writeBatch (fault : Option Fault) (s : S) (batch : List Write) : Option Error × S :=
  match fault with
  | none =>
    match store.write s batch with
    | .error err => (some err, s)
    | .ok t => (none, t)
  | some fault =>
    match store.write s (batch.take fault.applied) with
    | .error _ => (some fault.err, s)
    | .ok t => (some fault.err, t)

def flushLoop (n : Nat) (s : S) (batch : List Write) :
    List (Bytes × Option Bytes) → Option Error × S
  | [] => writeBatch store (fault n) s batch
  | (key, value) :: rest =>
    -- `batch.Delete` or `batch.Put`
    match fault n with
    | some fault => (some fault.err, s)
    | none =>
      let batch := batch ++ [⟨key, value⟩]
      if idealBatchSize < store.valueSize batch then
        match writeBatch store (fault (n + 1)) s batch with
        | (some err, s) => (some err, s)
        | (none, s) => flushLoop (n + 2) s [] rest
      else flushLoop (n + 1) s batch rest

def flushFaulty (w : Flushable S) : Option Error × Flushable S :=
  match w.modified with
  | none => (some .databaseClosed, w)
  | some tree =>
    match flushLoop store fault 0 w.underlying [] tree.toList with
    | (some err, s) => (some err, { w with underlying := s })
    | (none, s) => (none, ⟨s, some .empty, 0⟩)

def loopCalls (batch : List Write) : List (Bytes × Option Bytes) → Nat
  | [] => 1
  | (key, value) :: rest =>
    if idealBatchSize < store.valueSize (batch ++ [⟨key, value⟩]) then loopCalls [] rest + 2
    else loopCalls (batch ++ [⟨key, value⟩]) rest + 1

def batchCalls (w : Flushable S) : Nat :=
  match w.modified with
  | none => 0
  | some tree => loopCalls store [] tree.toList

theorem flushLoop_faultless (n : Nat) (s : S) (batch : List Write)
    (entries : List (Bytes × Option Bytes)) :
    flushLoop store (fun _ => none) n s batch entries =
      writeBatches store s (subBatches store entries batch) := by
  induction entries generalizing n s batch with
  | nil =>
    rw [flushLoop, subBatches, writeBatches, writeBatch]
    cases store.write s batch <;> rfl
  | cons first rest ih =>
    rw [flushLoop, subBatches]
    dsimp only
    split
    · rw [writeBatches, writeBatch]
      cases store.write s (batch ++ [⟨first.1, first.2⟩]) with
      | error err => rfl
      | ok t => exact ih (n + 2) t []
    · exact ih (n + 1) s _

theorem flushFaulty_faultless (w : Flushable S) :
    w.flushFaulty store (fun _ => none) = w.flush store := by
  rw [flushFaulty, flush]
  cases w.modified with
  | none => rfl
  | some tree =>
    dsimp only
    generalize loop : flushLoop store (fun _ => none) 0 w.underlying [] tree.toList = result
    rw [flushLoop_faultless] at loop
    subst loop
    rfl

variable {store} {fault}

section Loop

variable {map : OrderedMap store}

/-- What the parent holds after a part of a flush: a beginning of the writes was applied. -/
structure Applied (map : OrderedMap store) (s t : S) (writes : List Write) (result : Option Error) :
    Prop where
  valid : map.Valid t
  contents : ∃ applied, applied <+: writes ∧ map.contents t = (map.contents s).applyAll applied ∧
    (result = none → applied = writes)

theorem writeBatch_applied {s : S} (valid : map.Valid s) (f : Option Fault) (batch : List Write) :
    Applied map s (writeBatch store f s batch).2 batch (writeBatch store f s batch).1 ∧
    (writeBatch store f s batch).1 = f.map Fault.err := by
  cases f with
  | none =>
    obtain ⟨t, done, after, contents⟩ := map.write valid batch
    rw [writeBatch, done]
    exact ⟨⟨after, batch, List.prefix_rfl, contents, fun _ => rfl⟩, rfl⟩
  | some f =>
    obtain ⟨t, done, after, contents⟩ := map.write valid (batch.take f.applied)
    rw [writeBatch, done]
    exact ⟨⟨after, _, List.take_prefix _ _, contents, fun none_ => nomatch none_⟩, rfl⟩

theorem flushLoop_applied (entries : List (Bytes × Option Bytes)) :
    ∀ (n : Nat) {s : S} (batch : List Write), map.Valid s →
      Applied map s (flushLoop store fault n s batch entries).2
        (batch ++ entries.map fun x => ⟨x.1, x.2⟩) (flushLoop store fault n s batch entries).1 := by
  induction entries with
  | nil =>
    intro n s batch valid
    rw [flushLoop, List.map_nil, List.append_nil]
    exact (writeBatch_applied valid (fault n) batch).1
  | cons first rest ih =>
    intro n s batch valid
    rw [flushLoop]
    cases fault n with
    | some f => exact ⟨valid, [], List.nil_prefix, rfl, fun none_ => nomatch none_⟩
    | none =>
      have split : batch ++ (first :: rest).map (fun x => (⟨x.1, x.2⟩ : Write)) =
          batch ++ [⟨first.1, first.2⟩] ++ rest.map fun x => ⟨x.1, x.2⟩ := by simp
      rw [split]
      dsimp only
      split
      · -- the batch is full: what it holds is written first
        obtain ⟨written, answer⟩ :=
          writeBatch_applied valid (fault (n + 1)) (batch ++ [⟨first.1, first.2⟩])
        generalize writeBatch store (fault (n + 1)) s _ = result at written answer ⊢
        obtain ⟨result, t⟩ := result
        obtain ⟨applied, start, contents, all⟩ := written.contents
        cases result with
        | some err =>
          exact ⟨written.valid, applied, start.trans (List.prefix_append _ _), contents,
            fun none_ => nomatch none_⟩
        | none =>
          have later := ih (n + 2) [] written.valid
          rw [List.nil_append] at later
          obtain ⟨applied', start', contents', all'⟩ := later.contents
          refine ⟨later.valid, applied ++ applied', ?_, ?_, ?_⟩
          · rw [all rfl]
            exact (List.prefix_append_right_inj _).mpr start'
          · rw [contents', contents, Contents.applyAll_append]
          · intro none_
            rw [all rfl, all' none_]
      · exact ih (n + 1) _ valid

theorem flushLoop_err (entries : List (Bytes × Option Bytes)) :
    ∀ (n : Nat) {s : S} (batch : List Write), map.Valid s → ∀ {i : Nat} {f : Fault},
      i < loopCalls store batch entries → fault (n + i) = some f →
      (∀ j < i, fault (n + j) = none) → (flushLoop store fault n s batch entries).1 = some f.err := by
  induction entries with
  | nil =>
    intro n s batch valid i f within fails _
    obtain rfl : i = 0 := Nat.lt_one_iff.mp within
    rw [flushLoop, (writeBatch_applied valid (fault n) batch).2, show fault n = some f from fails]
    rfl
  | cons first rest ih =>
    intro n s batch valid i f within fails before
    rw [flushLoop]
    rw [loopCalls] at within
    cases i with
    | zero => rw [show fault n = some f from fails]
    | succ i =>
      rw [show fault n = none from before 0 (Nat.succ_pos i)]
      dsimp only
      split
      · next full =>
        rw [if_pos full] at within
        obtain ⟨written, answer⟩ :=
          writeBatch_applied valid (fault (n + 1)) (batch ++ [⟨first.1, first.2⟩])
        generalize writeBatch store (fault (n + 1)) s _ = result at written answer ⊢
        obtain ⟨result, t⟩ := result
        cases i with
        | zero => grind
        | succ i =>
          rw [show fault (n + 1) = none from before 1 (by omega)] at answer
          cases answer
          refine ih (n + 2) [] written.valid (i := i) (by omega) ?_ ?_
          · rwa [Nat.add_assoc, Nat.add_comm 2 i]
          · intro j less
            rw [Nat.add_assoc, Nat.add_comm 2 j]
            exact before (j + 2) (by omega)
      · next room =>
        rw [if_neg room] at within
        refine ih (n + 1) _ valid (i := i) (by omega) ?_ ?_
        · rwa [Nat.add_assoc, Nat.add_comm 1 i]
        · grind

end Loop

section Masked

variable {map : OrderedMap store} {w w' : Flushable S}

variable {tree : Modified}

theorem overlay_applyAll {writes : List Write}
    (inside : ∀ kv ∈ writes, ∃ v, tree.tree.find kv.key = some v) (base : Contents) :
    overlay (base.applyAll writes) tree = overlay base tree := by
  funext k
  rw [overlay, overlay]
  cases found : tree.tree.find k with
  | some v => rfl
  | none =>
    -- none of the writes is to this key
    have same : base.applyAll writes k = base k := by
      induction writes generalizing base with
      | nil => rfl
      | cons kv rest ih =>
        obtain ⟨v, member⟩ := inside kv List.mem_cons_self
        have other : k ≠ kv.key := by grind
        rw [Contents.applyAll, List.foldl_cons, ← Contents.applyAll,
          ih fun kv later => inside kv (List.mem_cons_of_mem _ later)]
        exact Function.update_of_ne other ..
    rw [same]

theorem flushFaulty_failed (opened : w.Opened map.toReadMap tree) {err : Error}
    (failed : w.flushFaulty store fault = (some err, w')) :
    w'.Opened map.toReadMap tree ∧ w'.contents map.toReadMap = w.contents map.toReadMap := by
  have applied := @flushLoop_applied _ store fault map tree.toList 0 _ [] opened.1
  rw [flushFaulty, opened.2] at failed
  dsimp only at failed
  generalize flushLoop store fault 0 w.underlying [] tree.toList = result at applied failed
  obtain ⟨_ | _, s⟩ := result
  · cases failed
  · cases failed
    have after : (⟨s, some tree, w.sizeEstimation⟩ : Flushable S).Opened map.toReadMap tree :=
      ⟨applied.valid, rfl⟩
    obtain ⟨writes, start, contents, _⟩ := applied.contents
    refine ⟨after, ?_⟩
    rw [contents_opened after, contents_opened opened]
    refine (congrArg (overlay · tree) contents).trans (overlay_applyAll ?_ _)
    intro kv member
    obtain ⟨x, inside, rfl⟩ := List.mem_map.mp (start.subset member)
    exact ⟨x.2, (Tree.find_eq_some tree.ordered).mpr inside⟩

theorem flushFaulty_done (opened : w.Opened map.toReadMap tree)
    (done : w.flushFaulty store fault = (none, w')) :
    map.contents w'.underlying = w.contents map.toReadMap := by
  have applied := @flushLoop_applied _ store fault map tree.toList 0 _ [] opened.1
  rw [flushFaulty, opened.2] at done
  dsimp only at done
  generalize flushLoop store fault 0 w.underlying [] tree.toList = result at applied done
  obtain ⟨_ | _, s⟩ := result
  · cases done
    obtain ⟨writes, _, contents, all⟩ := applied.contents
    rw [contents, all rfl, List.nil_append, applyAll_tree, contents_opened opened]
  · cases done

theorem newIterator_eq {tree' : Modified} (opened : w.Opened map.toReadMap tree)
    (opened' : w'.Opened map.toReadMap tree')
    (same : w'.contents map.toReadMap = w.contents map.toReadMap) (pre start : Bytes) :
    w'.newIterator store pre start = w.newIterator store pre start := by
  obtain ⟨pairs, run, listing⟩ := newIterator_opened opened pre start
  obtain ⟨pairs', run', listing'⟩ := newIterator_opened opened' pre start
  rw [same] at listing'
  rw [run, run', listing.unique listing']

end Masked

/-- A failed flush loses nothing, and a later flush that succeeds gives the parent the contents the first
would have given it. -/
theorem failed_flush_retried (map : OrderedMap store) {w : Flushable S}
    (valid : map.Valid w.underlying) (fault : Nat → Option Fault) :
    (∀ n f, n < w.batchCalls store → fault n = some f → (∀ i < n, fault i = none) →
      (w.flushFaulty store fault).1 = some f.err) ∧
    ∀ err w', w.flushFaulty store fault = (some err, w') →
      (∀ k, w'.get store k = w.get store k) ∧
      (∀ k, w'.has store k = w.has store k) ∧
      (∀ pre start, w'.newIterator store pre start = w.newIterator store pre start) ∧
      w'.notFlushedPairs = w.notFlushedPairs ∧
      ∀ later v, w'.flushFaulty store later = (none, v) →
        map.contents v.underlying = map.contents (w.flush store).2.underlying := by
  cases modified : w.modified with
  | none =>
    -- a closed store is left alone
    have closed : ∀ fault, w.flushFaulty store fault = (some .databaseClosed, w) := by
      intro fault
      rw [flushFaulty, modified]
    refine ⟨fun n f within => ?_, fun err w' failed => ?_⟩
    · rw [batchCalls, modified] at within
      exact absurd within (Nat.not_lt_zero n)
    · grind
  | some tree =>
    have opened : w.Opened map.toReadMap tree := ⟨valid, modified⟩
    refine ⟨fun n f within fails before => ?_, fun err w' failed => ?_⟩
    · rw [batchCalls, modified] at within
      have returned := @flushLoop_err _ store fault map tree.toList 0 _ [] valid n f within
        (by rwa [Nat.zero_add]) (fun j less => by rw [Nat.zero_add]; exact before j less)
      rw [flushFaulty, modified]
      dsimp only
      generalize flushLoop store fault 0 w.underlying [] tree.toList = result at returned ⊢
      obtain ⟨_ | _, s⟩ := result
      · cases returned
      · exact returned
    · obtain ⟨after, same⟩ := flushFaulty_failed opened failed
      refine ⟨fun k => ?_, fun k => ?_, newIterator_eq opened after same, ?_, fun later v done => ?_⟩
      · rw [get_opened after, get_opened opened, same]
      · rw [has_opened after, has_opened opened, same]
      · rw [notFlushedPairs, notFlushedPairs, after.2, modified]
      · obtain ⟨u, flushed, _, contents⟩ := flush_opened opened
        rw [flushFaulty_done after done, same, flushed, contents]

section Sample

def secondCallFails (n : Nat) : Option Fault := if n = 1 then some ⟨.failed 5, 0⟩ else none

def onePair : Flushable (Flushable Unit) :=
  ⟨.wrap (), some ((Putting.plain _ _).put .empty [1] (some [2])), 130⟩

end Sample

theorem failed_flush_retried_memorydb :
    (onePair.flushFaulty memorydb secondCallFails).1 = some (.failed 5) ∧
    ∀ v, (onePair.flushFaulty memorydb secondCallFails).2.flushFaulty memorydb (fun _ => none) =
      (none, v) → memorydb.orderedMap.contents v.underlying =
        memorydb.orderedMap.contents (onePair.flush memorydb).2.underlying := by
  obtain ⟨returned, kept⟩ := failed_flush_retried memorydb.orderedMap (w := onePair)
    ⟨.empty, trivial, rfl⟩ secondCallFails
  have failed : (onePair.flushFaulty memorydb secondCallFails).1 = some (.failed 5) :=
    returned 1 ⟨.failed 5, 0⟩ (by decide) rfl fun i less => by
      obtain rfl : i = 0 := Nat.lt_one_iff.mp less
      rfl
  exact ⟨failed, fun v => (kept _ _ (Prod.ext failed rfl)).2.2.2.2 (fun _ => none) v⟩

end Flushable

end Lachesis.Kvdb
