import Lachesis.Validators
import Lachesis.Library.Triples

/-!
`emitter/ancestor/quorum_indexer.go` and `utils/wmedian`. The matrix is a buffer whose size
and row bounds are 32-bit products. `GetMetricOf`, `SearchStrategy` and `GetGlobalMedianSeqs`
all begin with `refresh`, which computes the medians anew when an event has come in.
-/

namespace Lachesis.Ancestor

open Dag Pos WeightedQuorum Triples

inductive Panic where
  /-- "invalid median" -/
  | invalidMedian
  | sliceBounds
  | indexOutOfRange

structure Seq where
  seq : Nat
  isForkDetected : Bool

def seqOf (seq : Seq) : Nat := if seq.isForkDetected then (2 ^ 32 - 1) / 2 - 1 else seq.seq

structure WeightedSeq where
  seq : Nat
  weight : Nat

def medianOf (stop : Nat) : Nat → List WeightedSeq → Except Panic WeightedSeq
  | _, [] => .error .invalidMedian
  | curWeight, value :: rest =>
    let curWeight := (curWeight + value.weight) % 2 ^ 32
    if stop ≤ curWeight then .ok value else medianOf stop curWeight rest

structure Matrix where
  buffer : List Nat
  columns : Nat

def newMatrix (rows cols : Nat) : Matrix := ⟨List.replicate (rows * cols % 2 ^ 32) 0, cols⟩

namespace Matrix

variable (m : Matrix) (i : Nat)

def low : Nat := i * m.columns % 2 ^ 32

def high : Nat := (i + 1) * m.columns % 2 ^ 32

def row : Except Panic (List Nat) :=
  if m.low i ≤ m.high i ∧ m.high i ≤ m.buffer.length then
    .ok ((m.buffer.drop (m.low i)).take (m.high i - m.low i))
  else .error .sliceBounds

def setRow (j seq : Nat) : Except Panic Matrix := do
  let row ← m.row i
  if j < row.length then .ok { m with buffer := m.buffer.set (m.low i + j) seq }
  else .error .indexOutOfRange

end Matrix

/-- `sort.Slice` by descending seqs: equal seqs may come in any order. -/
structure Sorting where
  sort : List WeightedSeq → List WeightedSeq
  perm : ∀ l, (sort l).Perm l
  ordered : ∀ l, (sort l).Pairwise fun a b => b.seq ≤ a.seq

structure QuorumIndexer where
  globalMatrix : Matrix
  selfParentSeqs : List Nat
  globalMedianSeqs : List Nat
  dirty : Bool

/-- `dagi` tells the merged vector clock of an event. -/
abbrev DagIndex := EventID → Nat → Seq

variable (sorting : Sorting) (validators : Validators) (dagi : DagIndex)

def newQuorumIndexer : QuorumIndexer where
  globalMatrix := newMatrix validators.len validators.len
  selfParentSeqs := List.replicate validators.len 0
  globalMedianSeqs := List.replicate validators.len 0
  dirty := true

namespace QuorumIndexer

def update (event : Event) (selfEvent : Bool) (h : QuorumIndexer) (validatorIdx : Nat) :
    Except Panic QuorumIndexer := do
  let seq := seqOf (dagi event.id validatorIdx)
  let matrix ← h.globalMatrix.setRow validatorIdx (validators.getIdx event.creator) seq
  .ok { h with
    globalMatrix := matrix
    selfParentSeqs := if selfEvent then h.selfParentSeqs.set validatorIdx seq
      else h.selfParentSeqs }

def processEvent (h : QuorumIndexer) (event : Event) (selfEvent : Bool) :
    Except Panic QuorumIndexer := do
  let h ← (List.range validators.len).foldlM (update validators dagi event selfEvent) h
  .ok { h with dirty := true }

def pairs (row : List Nat) : List WeightedSeq :=
  (List.range validators.len).map fun i => ⟨row[i]?.getD 0, validators.getWeightByIdx i⟩

def recache (h : QuorumIndexer) (validatorIdx : Nat) : Except Panic QuorumIndexer := do
  let row ← h.globalMatrix.row validatorIdx
  let median ← medianOf validators.quorum 0 (sorting.sort (pairs validators row))
  .ok { h with globalMedianSeqs := h.globalMedianSeqs.set validatorIdx median.seq }

def recacheState (h : QuorumIndexer) : Except Panic QuorumIndexer := do
  let h ← (List.range validators.len).foldlM (recache sorting validators) h
  .ok { h with dirty := false }

def refresh (h : QuorumIndexer) : Except Panic QuorumIndexer :=
  if h.dirty then h.recacheState sorting validators else .ok h

def getGlobalMedianSeqs (h : QuorumIndexer) : Except Panic (List Nat × QuorumIndexer) := do
  let h ← h.refresh sorting validators
  .ok (h.globalMedianSeqs, h)

inductive Action where
  | processEvent (event : Event) (selfEvent : Bool)
  | query

def step (h : QuorumIndexer) : Action → Except Panic QuorumIndexer
  | .processEvent event selfEvent => h.processEvent validators dagi event selfEvent
  | .query => h.refresh sorting validators

def Action.event : Action → Option Event
  | .processEvent event _ => some event
  | .query => none

end QuorumIndexer

section Median

def heavy (l : List WeightedSeq) (s : Nat) : Nat :=
  ((l.filter (s ≤ ·.seq)).map WeightedSeq.weight).sum

/-- `wmedian.Of` finds the largest seq that enough weight has reached. -/
theorem medianOf_spec {stop cur : Nat} {l : List WeightedSeq}
    (ordered : l.Pairwise fun a b => b.seq ≤ a.seq) (early : cur < stop)
    (enough : stop ≤ cur + (l.map WeightedSeq.weight).sum)
    (fits : cur + (l.map WeightedSeq.weight).sum < 2 ^ 32) :
    Yields (medianOf stop cur l) fun r =>
      r ∈ l ∧ stop ≤ cur + heavy l r.seq ∧ ∀ s, r.seq < s → cur + heavy l s < stop := by
  induction l generalizing cur with
  | nil => exact absurd enough (Nat.not_le.mpr early)
  | cons v rest ih =>
    obtain ⟨above, ordered⟩ := List.pairwise_cons.mp ordered
    rw [List.map_cons, List.sum_cons] at enough fits
    have sum : (cur + v.weight) % 2 ^ 32 = cur + v.weight := Nat.mod_eq_of_lt (by omega)
    simp only [medianOf, sum]
    split_ifs with reached
    · refine yields_ok ⟨List.mem_cons_self, ?_, ?_⟩
      · simp only [heavy, List.filter_cons, le_refl, decide_true, ↓reduceIte, List.map_cons,
          List.sum_cons]
        omega
      · intro s more
        have empty : (v :: rest).filter (s ≤ ·.seq) = [] := by
          apply List.filter_eq_nil_iff.mpr
          simp only [List.forall_mem_cons, decide_eq_true_iff]
          exact ⟨by omega, fun u member => by have := above u member; omega⟩
        rw [heavy, empty]
        exact early
    · obtain ⟨r, run, member, low, high⟩ :=
        @ih (cur + v.weight) ordered (by omega) (by omega) (by omega)
      have before := above r member
      have split : ∀ s, heavy (v :: rest) s =
          (if s ≤ v.seq then v.weight else 0) + heavy rest s := by
        intro s
        by_cases reach : s ≤ v.seq <;> simp [heavy, reach]
      refine ⟨r, run, List.mem_cons_of_mem v member, ?_, ?_⟩
      · rw [split, if_pos before]
        omega
      · grind

end Median

structure Shows (m : Matrix) (n : Nat) (f : Nat → Nat → Nat) : Prop where
  columns : m.columns = n
  size : m.buffer.length = n * n
  entry : ∀ i < n, ∀ j < n, m.buffer[i * n + j]? = some (f i j)

section Rows

variable {m : Matrix} {n i j : Nat} {f g : Nat → Nat → Nat}

theorem Shows.row (shows : Shows m n f) (fits : n * n < 2 ^ 32) (inside : i < n) :
    m.low i = i * n ∧ Yields (m.row i) fun row =>
      row.length = n ∧ ∀ j < n, row[j]? = some (f i j) := by
  have next : (i + 1) * n ≤ n * n := Nat.mul_le_mul_right n inside
  have step : (i + 1) * n = i * n + n := Nat.succ_mul i n
  have low : m.low i = i * n := by
    rw [Matrix.low, shows.columns, Nat.mod_eq_of_lt (by omega)]
  have high : m.high i = i * n + n := by
    rw [Matrix.high, shows.columns, Nat.mod_eq_of_lt (by omega), step]
  have size := shows.size
  refine ⟨low, ?_⟩
  rw [Matrix.row, low, high, if_pos (by omega), Nat.add_sub_cancel_left]
  refine yields_ok ⟨by simp; omega, ?_⟩
  intro j small
  rw [List.getElem?_take_of_lt small, List.getElem?_drop]
  exact shows.entry i inside j small

theorem Shows.setRow (shows : Shows m n f) (fits : n * n < 2 ^ 32) (insideI : i < n)
    (insideJ : j < n) (seq : Nat) : Yields (m.setRow i j seq) fun m =>
      Shows m n fun a b => if a = i ∧ b = j then seq else f a b := by
  obtain ⟨low, row, found, length, _⟩ := shows.row fits insideI
  rw [Matrix.setRow, found, low]
  dsimp only [bind, Except.bind]
  rw [if_pos (by omega)]
  refine yields_ok ⟨shows.columns, by rw [List.length_set, shows.size], ?_⟩
  intro a insideA b insideB
  have place : ∀ {c d : Nat}, d < n → (c * n + d) / n = c ∧ (c * n + d) % n = d := by
    intro c d small
    rw [Nat.add_comm, Nat.add_mul_div_right _ _ (by omega), Nat.div_eq_of_lt small,
      Nat.add_mul_mod_self_right, Nat.mod_eq_of_lt small]
    exact ⟨Nat.zero_add c, rfl⟩
  have here := shows.entry a insideA b insideB
  by_cases same : a = i ∧ b = j
  · grind
  · have apart : i * n + j ≠ a * n + b := by
      intro equal
      have left := @place i j insideJ
      rw [equal, (place insideB).1, (place insideB).2] at left
      exact same left
    simpa [List.getElem?_set_ne apart, same] using here

theorem Shows.congr (shows : Shows m n f) (same : ∀ i < n, ∀ j < n, f i j = g i j) :
    Shows m n g where
  columns := shows.columns
  size := shows.size
  entry i insideI j insideJ := by rw [shows.entry i insideI j insideJ, same i insideI j insideJ]

end Rows

section Exact

variable {sorting validators dagi} {h : QuorumIndexer} {events : List Event} {n v : Nat}

def seen (dagi : DagIndex) (events : List Event) (v : Nat) (id : ValidatorID) : Nat :=
  ((events.reverse.find? (·.creator = id)).map fun e => seqOf (dagi e.id v)).getD 0

def reached (validators : Validators) (dagi : DagIndex) (events : List Event) (v s : Nat) : Nat :=
  mass validators.get (validators.group.filter fun id => s ≤ seen dagi events v id)

/-- The largest seq of `v` that a quorum has reached. -/
def IsMedian (validators : Validators) (dagi : DagIndex) (events : List Event) (v s : Nat) : Prop :=
  validators.quorum ≤ reached validators dagi events v s ∧
    ∀ more, s < more → reached validators dagi events v more < validators.quorum

structure Exact (validators : Validators) (dagi : DagIndex) (events : List Event)
    (medians : List Nat) (n : Nat) : Prop where
  length : medians.length = validators.len
  median : ∀ v < n, ∃ s, medians[v]? = some s ∧ IsMedian validators dagi events v s

def entry (validators : Validators) (dagi : DagIndex) (events : List Event) (v c : Nat) : Nat :=
  (validators.sortedIDs[c]?.map (seen dagi events v)).getD 0

variable {row : List Nat}

theorem pairs_eq (shows : ∀ c < validators.len, row[c]? = some (entry validators dagi events v c)) :
    QuorumIndexer.pairs validators row =
      validators.sortedArray.map fun u => ⟨seen dagi events v u.id, u.weight⟩ := by
  apply List.ext_getElem
  · simp [QuorumIndexer.pairs, Validators.len]
  · intro c left right
    have inside : c < validators.sortedArray.length := by simpa using right
    simp [QuorumIndexer.pairs, shows c inside, entry, Validators.sortedIDs,
      Validators.getWeightByIdx, inside]

theorem median_row (inside : v < validators.len)
    (shows : ∀ c < validators.len, row[c]? = some (entry validators dagi events v c)) :
    Yields (medianOf validators.quorum 0 (sorting.sort (QuorumIndexer.pairs validators row)))
      fun r => IsMedian validators dagi events v r.seq := by
  have perm := sorting.perm (QuorumIndexer.pairs validators row)
  have sum : ((sorting.sort (QuorumIndexer.pairs validators row)).map WeightedSeq.weight).sum =
      validators.totalWeight := by
    rw [(perm.map _).sum_eq, pairs_eq shows, List.map_map]
    rfl
  have weight : ∀ s, heavy (sorting.sort (QuorumIndexer.pairs validators row)) s =
      reached validators dagi events v s := by
    intro s
    rw [heavy, ((perm.filter _).map _).sum_eq, pairs_eq shows, List.filter_map, List.map_map]
    exact sum_filter_eq_mass fun id => s ≤ seen dagi events v id
  have limit : validators.totalWeight ≤ 2 ^ 31 - 1 := validators.limited
  have positive : 0 < validators.totalWeight := by
    have found : validators.sortedArray.get ⟨v, inside⟩ ∈ validators.sortedArray := List.get_mem ..
    exact (validators.positive _ found).trans_le
      (List.single_le_sum (by simp) _ (List.mem_map_of_mem found))
  have quorum : validators.quorum = validators.totalWeight * 2 / 3 + 1 := rfl
  obtain ⟨r, run, _, low, high⟩ := medianOf_spec (sorting.ordered _)
    (quorum_pos : 0 < validators.quorum) (by rw [sum]; omega) (by rw [sum]; omega)
  simp only [Nat.zero_add, weight] at low high
  exact ⟨r, run, low, high⟩

structure Tracks (validators : Validators) (dagi : DagIndex) (events : List Event)
    (h : QuorumIndexer) : Prop where
  matrix : Shows h.globalMatrix validators.len (entry validators dagi events)
  length : h.globalMedianSeqs.length = validators.len
  clean : h.dirty = false → Exact validators dagi events h.globalMedianSeqs validators.len

theorem tracks_new (fits : validators.len * validators.len < 2 ^ 32) :
    Tracks validators dagi [] (newQuorumIndexer validators) where
  matrix := by
    have buffer : (newQuorumIndexer validators).globalMatrix.buffer =
        List.replicate (validators.len * validators.len) 0 := by
      rw [newQuorumIndexer, newMatrix, Nat.mod_eq_of_lt fits]
    refine ⟨rfl, by rw [buffer, List.length_replicate], ?_⟩
    intro i insideI j insideJ
    have next : (i + 1) * validators.len ≤ validators.len * validators.len :=
      Nat.mul_le_mul_right _ insideI
    rw [Nat.succ_mul] at next
    have zero : entry validators dagi [] i j = 0 := by cases h : validators.sortedIDs[j]? <;>
      simp [entry, seen, h]
    rw [buffer, zero, List.getElem?_replicate, if_pos (by omega)]
  length := by simp [newQuorumIndexer]
  clean dirty := nomatch dirty

theorem entry_append {e : Event} (member : e.creator ∈ validators.sortedIDs) {c : Nat}
    (inside : c < validators.len) :
    (if c = validators.getIdx e.creator then seqOf (dagi e.id v)
      else entry validators dagi events v c) = entry validators dagi (events ++ [e]) v c := by
  have listed : c < validators.sortedIDs.length := by
    simpa [Validators.sortedIDs, Validators.len] using inside
  obtain ⟨id, found⟩ : ∃ id, validators.sortedIDs[c]? = some id :=
    ⟨_, List.getElem?_eq_getElem listed⟩
  by_cases same : e.creator = id
  · rw [if_pos (same ▸ (getIdx_of_getElem found).symm)]
    simp [entry, found, seen, same]
  · have apart : c ≠ validators.getIdx e.creator := by
      rintro rfl
      rw [sortedIDs_getIdx member, Option.some_inj] at found
      exact same found
    simp [entry, found, seen, same, apart]

structure Updated (validators : Validators) (dagi : DagIndex) (events : List Event) (e : Event)
    (k : Nat) (h : QuorumIndexer) : Prop where
  matrix : Shows h.globalMatrix validators.len fun v c =>
    if v < k then entry validators dagi (events ++ [e]) v c else entry validators dagi events v c
  length : h.globalMedianSeqs.length = validators.len

theorem Tracks.processEvent (tracks : Tracks validators dagi events h)
    (fits : validators.len * validators.len < 2 ^ 32) {e : Event}
    (member : e.creator ∈ validators.sortedIDs) (selfEvent : Bool) :
    Yields (h.processEvent validators dagi e selfEvent) (Tracks validators dagi (events ++ [e])) := by
  have loop : Yields
      ((List.range validators.len).foldlM (QuorumIndexer.update validators dagi e selfEvent) h)
      (Updated validators dagi events e validators.len) := by
    apply yields_range
    · exact ⟨by simpa using tracks.matrix, tracks.length⟩
    · intro k inside g updated
      apply yields_bind (updated.matrix.setRow fits inside (getIdx_lt member) _)
      intro m changed
      apply yields_ok
      refine ⟨changed.congr fun v _ c small => ?_, updated.length⟩
      have new := @entry_append validators dagi events v e member c small
      rcases Nat.lt_trichotomy v k with less | rfl | more
      · simp [less.ne, less, less.trans (Nat.lt_succ_self k)]
      · simpa using new
      · simp [more.ne', Nat.not_lt.mpr more.le, Nat.not_lt.mpr (Nat.succ_le_of_lt more)]
  refine yields_bind loop fun g updated => yields_ok ⟨?_, updated.length, nofun⟩
  exact updated.matrix.congr fun v inside c _ => if_pos inside

structure Recached (validators : Validators) (dagi : DagIndex) (events : List Event) (k : Nat)
    (h : QuorumIndexer) : Prop where
  matrix : Shows h.globalMatrix validators.len (entry validators dagi events)
  medians : Exact validators dagi events h.globalMedianSeqs k

theorem Recached.next (fits : validators.len * validators.len < 2 ^ 32) (inside : n < validators.len)
    (before : Recached validators dagi events n h) :
    Yields (h.recache sorting validators n) (Recached validators dagi events (n + 1)) := by
  apply yields_bind (before.matrix.row fits inside).2
  rintro row ⟨_, shows⟩
  apply yields_bind (median_row inside shows)
  intro r median
  apply yields_ok
  refine ⟨before.matrix, by rw [List.length_set, before.medians.length], ?_⟩
  intro v less
  rcases Nat.lt_succ_iff_lt_or_eq.mp less with less | rfl
  · obtain ⟨s, found, exact⟩ := before.medians.median v less
    exact ⟨s, by rw [List.getElem?_set_ne less.ne', found], exact⟩
  · exact ⟨r.seq, List.getElem?_set_self (before.medians.length.symm ▸ inside), median⟩

theorem Tracks.refresh (tracks : Tracks validators dagi events h)
    (fits : validators.len * validators.len < 2 ^ 32) :
    Yields (h.refresh sorting validators) fun h => Tracks validators dagi events h ∧
      Exact validators dagi events h.globalMedianSeqs validators.len := by
  rw [QuorumIndexer.refresh]
  cases dirty : h.dirty with
  | false => exact yields_ok ⟨tracks, tracks.clean dirty⟩
  | true =>
    have loop : Yields ((List.range validators.len).foldlM (QuorumIndexer.recache sorting validators) h)
        (Recached validators dagi events validators.len) := by
      apply yields_range
      · exact ⟨tracks.matrix, tracks.length, nofun⟩
      · exact fun k inside g before => before.next fits inside
    refine yields_bind loop fun g after => yields_ok ?_
    exact ⟨⟨after.matrix, after.medians.length, fun _ => after.medians⟩, after.medians⟩

open QuorumIndexer

theorem Tracks.run (tracks : Tracks validators dagi events h)
    (fits : validators.len * validators.len < 2 ^ 32) {actions : List Action}
    (member : ∀ e ∈ actions.filterMap Action.event, e.creator ∈ validators.sortedIDs) :
    Yields (actions.foldlM (step sorting validators dagi) h)
      (Tracks validators dagi (events ++ actions.filterMap Action.event)) := by
  induction actions generalizing h events with
  | nil =>
    rw [List.filterMap_nil, List.append_nil]
    exact yields_ok tracks
  | cons action rest ih =>
    rw [List.foldlM_cons]
    cases action with
    | processEvent e selfEvent =>
      obtain ⟨own, later⟩ := List.forall_mem_cons.mp member
      apply yields_bind (tracks.processEvent fits own selfEvent)
      intro g after
      simpa [List.filterMap_cons, Action.event] using ih after later
    | query =>
      apply yields_bind (tracks.refresh fits)
      exact fun g after => ih after.1 member

end Exact

section Overflow

open QuorumIndexer

variable {sorting validators dagi} {h : QuorumIndexer}

structure Fresh (validators : Validators) (h : QuorumIndexer) : Prop where
  columns : h.globalMatrix.columns = validators.len
  dirty : h.dirty = true

theorem Matrix.ensures_setRow {m : Matrix} {i j seq : Nat} :
    Ensures (m.setRow i j seq) fun changed => changed.columns = m.columns := by
  refine ensures_bind (fun row _ => trivial) fun row _ => ?_
  split_ifs
  · exact ensures_ok rfl
  · exact ensures_error

theorem Fresh.processEvent (fresh : Fresh validators h) {e : Event} {selfEvent : Bool} :
    Ensures (h.processEvent validators dagi e selfEvent) (Fresh validators) := by
  have loop : Ensures
      ((List.range validators.len).foldlM (QuorumIndexer.update validators dagi e selfEvent) h)
      fun g => g.globalMatrix.columns = validators.len := by
    refine ensures_foldlM (fun g k columns => ?_) _ _ fresh.columns
    refine ensures_bind Matrix.ensures_setRow fun m same => ensures_ok ?_
    exact same.trans columns
  exact ensures_bind loop fun g columns => ensures_ok ⟨columns, rfl⟩

theorem len_le_totalWeight : validators.len ≤ validators.totalWeight := by
  have bound := List.length_le_sum_of_one_le (validators.sortedArray.map Validator.weight)
    (by simpa using fun v member => Nat.succ_le_of_lt (validators.positive v member))
  simpa [Validators.len, Validators.totalWeight] using bound

structure Unwrapped (validators : Validators) (k : Nat) (h : QuorumIndexer) : Prop where
  columns : h.globalMatrix.columns = validators.len
  rows : k * validators.len < 2 ^ 32

theorem Fresh.refresh (fresh : Fresh validators h) :
    Ensures (h.refresh sorting validators) fun _ => validators.len * validators.len < 2 ^ 32 := by
  have small : validators.len < 2 ^ 32 :=
    (len_le_totalWeight.trans validators.limited).trans_lt (by decide)
  have loop : Ensures ((List.range validators.len).foldlM (recache sorting validators) h)
      (Unwrapped validators validators.len) := by
    apply ensures_range
    · exact ⟨fresh.columns, by simp⟩
    · intro k _ g ⟨columns, before⟩
      have row : Ensures (g.globalMatrix.row k) fun _ => (k + 1) * validators.len < 2 ^ 32 := by
        rw [Matrix.row, Matrix.low, Matrix.high, columns, Nat.mod_eq_of_lt before, Nat.succ_mul]
        split_ifs with bounds
        · exact ensures_ok (by omega)
        · exact ensures_error
      refine ensures_bind row fun _ next => ensures_bind (fun _ _ => trivial) fun _ _ => ?_
      exact ensures_ok ⟨columns, next⟩
  rw [QuorumIndexer.refresh, fresh.dirty, if_pos rfl]
  exact ensures_bind loop fun g after => ensures_ok after.rows

theorem Fresh.run (fresh : Fresh validators h)
    (large : ¬validators.len * validators.len < 2 ^ 32) {actions : List Action} :
    Ensures (actions.foldlM (step sorting validators dagi) h) (Fresh validators) := by
  induction actions generalizing h with
  | nil => exact ensures_ok fresh
  | cons action rest ih =>
    rw [List.foldlM_cons]
    cases action with
    | processEvent e selfEvent => exact ensures_bind fresh.processEvent fun g after => ih after
    | query => exact ensures_bind fresh.refresh fun g fits => absurd fits large

def Works (sorting : Sorting) (validators : Validators) (dagi : DagIndex)
    (actions : List Action) : Prop :=
  ∃ h medians h', actions.foldlM (step sorting validators dagi) (newQuorumIndexer validators) = .ok h ∧
    h.getGlobalMedianSeqs sorting validators = .ok (medians, h') ∧
    Exact validators dagi (actions.filterMap Action.event) medians validators.len

theorem large_fails {actions : List Action} (large : ¬validators.len * validators.len < 2 ^ 32) :
    ¬Works sorting validators dagi actions := by
  rintro ⟨h, medians, h', run, query, _⟩
  have fresh : Fresh validators h := Fresh.run ⟨rfl, rfl⟩ large h run
  have fits : Ensures (h.getGlobalMedianSeqs sorting validators) fun _ =>
      validators.len * validators.len < 2 ^ 32 :=
    ensures_bind fresh.refresh fun g fits => ensures_ok fits
  exact large (fits _ query)

/-- The medians of every run of validators' events, with queries in between, are exact, unless
the matrix has 2^32 entries or more. -/
theorem medians_exact_iff (sorting : Sorting) (validators : Validators) (dagi : DagIndex)
    (actions : List Action)
    (member : ∀ e ∈ actions.filterMap Action.event, validators.exists e.creator = true) :
    Works sorting validators dagi actions ↔ validators.len < 65536 := by
  have square : validators.len * validators.len < 2 ^ 32 ↔ validators.len < 65536 :=
    Nat.mul_self_lt_mul_self_iff (n := 65536)
  rw [← square]
  constructor
  · intro works
    by_contra large
    exact large_fails large works
  · intro fits
    obtain ⟨h, run, tracks⟩ := (tracks_new fits).run fits
      fun e processed => exists_iff.mp (member e processed)
    obtain ⟨g, refresh, _, exact⟩ := tracks.refresh fits
    rw [List.nil_append] at exact
    exact ⟨h, g.globalMedianSeqs, g, run, by rw [getGlobalMedianSeqs, refresh]; rfl, exact⟩

def sortBySeq : Sorting where
  sort := List.insertionSort fun a b => b.seq ≤ a.seq
  perm := List.perm_insertionSort _
  ordered l := by
    have : Std.Total fun a b : WeightedSeq => b.seq ≤ a.seq := ⟨fun a b => Nat.le_total b.seq a.seq⟩
    have : IsTrans WeightedSeq fun a b => b.seq ≤ a.seq := ⟨fun a b c first second => second.trans first⟩
    exact List.pairwise_insertionSort _ l

def crowd (n : Nat) (few : n ≤ maxTotalWeight) : Validators where
  sortedArray := (List.range n).map fun id => ⟨id, 1⟩
  ordered := List.pairwise_map.mpr (List.pairwise_lt_range.imp fun less => by simpa [Less] using less)
  distinct := by simpa [Function.comp_def] using List.nodup_range
  positive := by simp
  limited := by simpa [Function.comp_def] using few

theorem crowd_len {n : Nat} (few : n ≤ maxTotalWeight) : (crowd n few).len = n := by
  simp [crowd, Validators.len]

def lone : Validators := ⟨[⟨1, 2⟩], by decide, by decide, by decide, by decide⟩

def fiveSeen : DagIndex := fun _ _ => ⟨5, false⟩

/-- A large group fails at the first query; an event of a stranger counts for the first
validator. -/
theorem medians_fail : ¬Works sortBySeq (crowd 65536 (by decide)) fiveSeen [] ∧
    ¬Works sortBySeq lone fiveSeen [.processEvent ⟨1, 1, 1, 2, [], 1, 1⟩ false] := by
  constructor
  · apply large_fails
    rw [crowd_len]
    decide
  · rintro ⟨h, medians, h', run, query, exact⟩
    cases run
    cases query
    obtain ⟨s, found, reached, _⟩ := exact.median 0 (by decide)
    cases found
    exact absurd reached (by decide)

/-- Validators 1 and 2, and 2 and 3, are quorums; each event has its own view of the others. -/
def trio : Validators := ⟨[⟨2, 3⟩, ⟨1, 2⟩, ⟨3, 2⟩], by decide, by decide, by decide, by decide⟩

theorem medians_exact_trio : trio.len = 3 ∧
    Works sortBySeq trio (fun e v => ⟨e.toNat + v, e.toNat = 3⟩)
      [.processEvent ⟨1, 1, 1, 1, [], 1, 1⟩ true, .query, .processEvent ⟨1, 1, 1, 2, [], 1, 2⟩ false,
        .processEvent ⟨1, 1, 1, 3, [1], 1, 3⟩ false, .query] :=
  ⟨rfl, (medians_exact_iff sortBySeq trio _ _ (by decide)).mpr (by decide)⟩

end Overflow

end Lachesis.Ancestor
