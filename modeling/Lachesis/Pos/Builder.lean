import Lachesis.Validators

/-!
`inter/pos` as it is stored: the builders and `values` are Go maps, a `Validators` object
keeps four caches next to its map, and weights are 32-bit numbers. What `Build` returns is
related to `Pos.Validators`, of which every other module speaks.
-/

namespace Lachesis.Pos.Machine

open Dag

inductive Panic where
  /-- "validators weight overflow" -/
  | weightOverflow
  | indexOutOfRange
  deriving DecidableEq

/-- `ValidatorsBuilder`, a map. The entries stand in the order in which a range over the map
happens to visit them. -/
structure ValidatorsBuilder where
  entries : List Validator
  distinct : (entries.map Validator.id).Nodup
  fits : ∀ v ∈ entries, v.weight < 2 ^ 32

namespace ValidatorsBuilder

def newBuilder : ValidatorsBuilder := ⟨[], by simp, by simp⟩

def delete (vv : ValidatorsBuilder) (id : ValidatorID) : ValidatorsBuilder where
  entries := vv.entries.filter (·.id ≠ id)
  distinct := vv.distinct.sublist (List.filter_sublist.map _)
  fits v member := vv.fits v (List.mem_of_mem_filter member)

/-- `Set`; a `Weight` is a number modulo 2^32. -/
def set (vv : ValidatorsBuilder) (id : ValidatorID) (weight : Nat) : ValidatorsBuilder :=
  if weight % 2 ^ 32 = 0 then vv.delete id
  else
    { entries := ⟨id, weight % 2 ^ 32⟩ :: (vv.delete id).entries
      distinct := by
        rw [List.map_cons, List.nodup_cons]
        exact ⟨by simp [delete], (vv.delete id).distinct⟩
      fits := by
        simp only [List.forall_mem_cons]
        exact ⟨Nat.mod_lt _ (by decide), (vv.delete id).fits⟩ }

def setAll (calls : List Validator) : ValidatorsBuilder :=
  calls.foldl (fun vv v => vv.set v.id v.weight) newBuilder

/-- A key that is missing in the map reads as zero. -/
def get (vv : ValidatorsBuilder) (id : ValidatorID) : Nat :=
  ((vv.entries.find? (·.id = id)).map Validator.weight).getD 0

end ValidatorsBuilder

open ValidatorsBuilder

/-- `sort.Sort` by `Less`: some ordered rearrangement, not known to be stable. -/
structure Sorting where
  sort : List Validator → List Validator
  perm : ∀ l, (sort l).Perm l
  ordered : ∀ l, (sort l).Pairwise fun a b => ¬ Less b a

structure Cache where
  indexes : List (ValidatorID × Nat)
  weights : List Nat
  ids : List ValidatorID
  totalWeight : Nat
  deriving DecidableEq

structure Validators where
  values : ValidatorsBuilder
  cache : Cache

def calcLoop : Nat → Cache → List Validator → Except Panic Cache
  | _, cache, [] => .ok cache
  | i, cache, v :: rest =>
    let totalWeight := (cache.totalWeight + v.weight) % 2 ^ 32
    -- check overflow
    if totalWeight < cache.totalWeight then .error .weightOverflow
    else calcLoop (i + 1)
      { indexes := cache.indexes ++ [(v.id, i)]
        weights := cache.weights ++ [v.weight]
        ids := cache.ids ++ [v.id]
        totalWeight } rest

section Build

variable (sorting : Sorting)

def sortedArray (values : ValidatorsBuilder) : List Validator := sorting.sort values.entries

def calcCaches (values : ValidatorsBuilder) : Except Panic Cache := do
  let cache ← calcLoop 0 ⟨[], [], [], 0⟩ (sortedArray sorting values)
  if maxTotalWeight < cache.totalWeight then .error .weightOverflow else .ok cache

def newValidators (values : ValidatorsBuilder) : Except Panic Validators := do
  let valuesCopy := setAll values.entries
  let cache ← calcCaches sorting valuesCopy
  .ok { values := valuesCopy, cache }

def ValidatorsBuilder.build (vv : ValidatorsBuilder) : Except Panic Validators :=
  newValidators sorting vv

namespace Validators

def copy (vv : Validators) : Except Panic Validators := newValidators sorting vv.values

def builder (vv : Validators) : Except Panic ValidatorsBuilder := do
  let copied ← vv.copy sorting
  .ok copied.values

end Validators

end Build

namespace Validators

variable (vv : Validators)

def len : Nat := vv.values.entries.length

def get (id : ValidatorID) : Nat := vv.values.get id

def getIdx (id : ValidatorID) : Nat := (vv.cache.indexes.lookup id).getD 0

def getID (i : Nat) : Except Panic ValidatorID :=
  match vv.cache.ids[i]? with
  | some id => .ok id
  | none => .error .indexOutOfRange

def getWeightByIdx (i : Nat) : Except Panic Nat :=
  match vv.cache.weights[i]? with
  | some weight => .ok weight
  | none => .error .indexOutOfRange

def sortedIDs : List ValidatorID := vv.cache.ids

def sortedWeights : List Nat := vv.cache.weights

def idxs : List (ValidatorID × Nat) := vv.cache.indexes

def totalWeight : Nat := vv.cache.totalWeight

end Validators

section Builders

variable {vv ww : ValidatorsBuilder} {id : ValidatorID} {weight : Nat} {v : Validator}
  {calls : List Validator}

theorem mem_set : v ∈ (vv.set id weight).entries ↔
    if v.id = id then v.weight = weight % 2 ^ 32 ∧ 0 < v.weight else v ∈ vv.entries := by
  obtain ⟨key, own⟩ := v
  unfold ValidatorsBuilder.set
  by_cases same : key = id <;> split_ifs with zero <;>
    simp only [ValidatorsBuilder.delete, List.mem_cons, List.mem_filter, Validator.mk.injEq, same,
      ne_eq, not_true_eq_false, decide_false, Bool.false_eq_true, and_false, or_false, false_iff,
      not_false_eq_true, decide_true, and_true, true_and, false_and, false_or]
  · omega
  · grind

def lastWins (calls : List Validator) (id : ValidatorID) : Nat :=
  ((calls.reverse.find? (·.id = id)).map (·.weight % 2 ^ 32)).getD 0

theorem mem_setAll : v ∈ (setAll calls).entries ↔
    v.weight = lastWins calls v.id ∧ 0 < v.weight := by
  induction calls using List.reverseRecOn with
  | nil => simp [setAll, ValidatorsBuilder.newBuilder, lastWins]
  | append_singleton calls c ih =>
    rw [setAll, List.foldl_append, List.foldl_cons, List.foldl_nil, mem_set]
    by_cases same : v.id = c.id
    · simp [lastWins, same]
    · simp only [same, ↓reduceIte, lastWins, List.reverse_append, List.reverse_singleton,
        List.singleton_append, List.find?_cons, Ne.symm same, decide_false]
      exact ih

theorem ValidatorsBuilder.find_eq (member : v ∈ vv.entries) :
    vv.entries.find? (·.id = v.id) = some v := by
  cases found : vv.entries.find? (·.id = v.id) with
  | none => simpa using List.find?_eq_none.mp found v member
  | some u =>
    have same : u.id = v.id := by simpa using List.find?_some found
    rw [List.inj_on_of_nodup_map vv.distinct (List.mem_of_find?_eq_some found) member same]

theorem ValidatorsBuilder.get_of_mem (member : v ∈ vv.entries) : vv.get v.id = v.weight := by
  rw [ValidatorsBuilder.get, ValidatorsBuilder.find_eq member]
  rfl

theorem ValidatorsBuilder.mem_iff_get (positive : 0 < v.weight) :
    v ∈ vv.entries ↔ vv.get v.id = v.weight := by
  constructor
  · exact ValidatorsBuilder.get_of_mem
  · intro same
    simp only [ValidatorsBuilder.get] at same
    cases found : vv.entries.find? (·.id = v.id) with
    | none =>
      rw [found] at same
      exact absurd same positive.ne
    | some u =>
      have key : u.id = v.id := by simpa using List.find?_some found
      rw [found] at same
      rw [show v = u by cases u; cases v; simp_all]
      exact List.mem_of_find?_eq_some found

theorem ValidatorsBuilder.get_congr
    (same : ∀ v, 0 < v.weight → (v ∈ vv.entries ↔ v ∈ ww.entries)) : vv.get id = ww.get id := by
  rcases Nat.eq_zero_or_pos (vv.get id) with zero | positive
  · rcases Nat.eq_zero_or_pos (ww.get id) with zero' | positive
    · rw [zero, zero']
    · have member : (⟨id, ww.get id⟩ : Validator) ∈ ww.entries := (mem_iff_get positive).mpr rfl
      exact get_of_mem ((same _ positive).mpr member)
  · have member : (⟨id, vv.get id⟩ : Validator) ∈ vv.entries := (mem_iff_get positive).mpr rfl
    exact (get_of_mem ((same _ positive).mp member)).symm

theorem mem_copy : v ∈ (setAll vv.entries).entries ↔
    v ∈ vv.entries ∧ 0 < v.weight := by
  rw [mem_setAll, lastWins]
  constructor
  · rintro ⟨same, positive⟩
    cases found : vv.entries.reverse.find? (·.id = v.id) with
    | none =>
      rw [found] at same
      exact absurd same positive.ne'
    | some u =>
      have member := List.mem_reverse.mp (List.mem_of_find?_eq_some found)
      have key : u.id = v.id := by simpa using List.find?_some found
      rw [found] at same
      change v.weight = u.weight % 2 ^ 32 at same
      rw [Nat.mod_eq_of_lt (vv.fits u member)] at same
      rw [show v = u by cases u; cases v; simp_all]
      exact ⟨member, same ▸ positive⟩
  · rintro ⟨member, positive⟩
    -- The entries in the reverse order are a map again.
    let turned : ValidatorsBuilder :=
      ⟨vv.entries.reverse, by simpa using vv.distinct, by simpa using vv.fits⟩
    have found : vv.entries.reverse.find? (·.id = v.id) = some v :=
      turned.find_eq (List.mem_reverse.mpr member)
    rw [found]
    exact ⟨(Nat.mod_eq_of_lt (vv.fits v member)).symm, positive⟩

theorem ValidatorsBuilder.perm (same : ∀ v, v ∈ vv.entries ↔ v ∈ ww.entries) :
    vv.entries.Perm ww.entries :=
  (List.perm_ext_iff_of_nodup vv.distinct.of_map ww.distinct.of_map).mpr fun v => same v

theorem copy_sum : ((setAll vv.entries).entries.map Validator.weight).sum =
    (vv.entries.map Validator.weight).sum := by
  have perm : (setAll vv.entries).entries.Perm
      (vv.entries.filter (0 < ·.weight)) := by
    apply (List.perm_ext_iff_of_nodup (setAll _).distinct.of_map
      (vv.distinct.of_map.filter _)).mpr
    intro v
    rw [mem_copy, List.mem_filter, decide_eq_true_iff]
  rw [(perm.map _).sum_eq]
  generalize vv.entries = entries
  induction entries with
  | nil => rfl
  | cons v rest ih => grind

end Builders

section Sorted

variable {a b : Validator}

theorem less_iff : Less a b ↔
    b.weight < a.weight ∨ a.weight = b.weight ∧ @LT.lt Nat _ a.id b.id := by
  unfold Less
  split_ifs with apart
  · omega
  · simp [not_not.mp apart]

theorem Less.asymm (before : Less a b) : ¬ Less b a := by
  rw [less_iff] at before ⊢
  omega

theorem Less.total (notAfter : ¬ Less b a) : Less a b ∨ a = b := by
  obtain ⟨a, wa⟩ := a
  obtain ⟨b, wb⟩ := b
  rw [less_iff] at notAfter ⊢
  simp only [Validator.mk.injEq] at notAfter ⊢
  change _ ∨ @Eq Nat a b ∧ _
  omega

theorem sorted_unique {l m : List Validator} (perm : l.Perm m)
    (left : l.Pairwise fun a b => ¬ Less b a) (right : m.Pairwise fun a b => ¬ Less b a) : l = m := by
  refine perm.eq_of_pairwise (fun a b _ _ before after => ?_) left right
  exact (Less.total before).resolve_left after

def cacheOf (rows : List Validator) : Cache where
  indexes := rows.zipIdx.map fun (v, i) => (v.id, i)
  weights := rows.map Validator.weight
  ids := rows.map Validator.id
  totalWeight := (rows.map Validator.weight).sum

theorem calcLoop_eq {rows : List Validator} (fits : ∀ v ∈ rows, v.weight < 2 ^ 32) (i : Nat)
    (cache : Cache) (small : cache.totalWeight < 2 ^ 32) :
    calcLoop i cache rows = if cache.totalWeight + (rows.map Validator.weight).sum < 2 ^ 32 then
      .ok { indexes := cache.indexes ++ (rows.zipIdx i).map fun (v, i) => (v.id, i)
            weights := cache.weights ++ rows.map Validator.weight
            ids := cache.ids ++ rows.map Validator.id
            totalWeight := cache.totalWeight + (rows.map Validator.weight).sum }
    else .error .weightOverflow := by
  induction rows generalizing i cache with
  | nil =>
    rw [if_pos (by simpa using small)]
    simp [calcLoop]
  | cons v rest ih =>
    have weight := fits v List.mem_cons_self
    simp only [calcLoop, List.map_cons, List.sum_cons]
    by_cases wraps : cache.totalWeight + v.weight < 2 ^ 32
    · rw [if_neg (by omega), ih (fun u member => fits u (List.mem_cons_of_mem v member)) _ _
        (Nat.mod_lt _ (by decide)), Nat.mod_eq_of_lt wraps]
      simp [Nat.add_assoc]
    · rw [if_pos (by omega), if_neg (by omega)]

variable {sorting : Sorting} {values : ValidatorsBuilder} {v : Validator}

theorem calcCaches_eq : calcCaches sorting values =
    if ((sortedArray sorting values).map Validator.weight).sum ≤ maxTotalWeight then
      .ok (cacheOf (sortedArray sorting values)) else .error .weightOverflow := by
  have fits : ∀ v ∈ sortedArray sorting values, v.weight < 2 ^ 32 := fun v member =>
    values.fits v ((sorting.perm _).mem_iff.mp member)
  rw [calcCaches, calcLoop_eq fits 0 _ (by decide)]
  simp only [List.nil_append, Nat.zero_add]
  have limit : maxTotalWeight < 2 ^ 32 := by decide
  by_cases small : ((sortedArray sorting values).map Validator.weight).sum ≤ maxTotalWeight
  · rw [if_pos small, if_pos (by omega)]
    exact if_neg (Nat.not_lt.mpr small)
  · rw [if_neg small]
    split_ifs with wide
    · exact if_pos (Nat.not_le.mp small)
    · rfl

theorem build_eq : values.build sorting =
    let copy := setAll values.entries
    if (values.entries.map Validator.weight).sum ≤ maxTotalWeight then
      .ok ⟨copy, cacheOf (sortedArray sorting copy)⟩ else .error .weightOverflow := by
  have sum : ((sortedArray sorting (setAll values.entries)).map
      Validator.weight).sum = _ := (((sorting.perm _).map _).sum_eq).trans copy_sum
  rw [ValidatorsBuilder.build, newValidators, calcCaches_eq, sum]
  dsimp only
  split_ifs <;> rfl

structure Refines (vv : Validators) (pv : Pos.Validators) : Prop where
  members : ∀ v, v ∈ vv.values.entries ↔ v ∈ pv.sortedArray
  cache : vv.cache = cacheOf pv.sortedArray

theorem build_refines {vv : Validators} (built : values.build sorting = .ok vv) :
    ∃ pv, Refines vv pv ∧ ∀ v, v ∈ pv.sortedArray ↔ v ∈ values.entries ∧ 0 < v.weight := by
  rw [build_eq] at built
  dsimp only at built
  split_ifs at built with small
  cases built
  have perm := sorting.perm (setAll values.entries).entries
  have distinct := (perm.map Validator.id).nodup_iff.mpr
    (setAll values.entries).distinct
  have members : ∀ v, v ∈ sortedArray sorting (setAll values.entries) ↔
      v ∈ values.entries ∧ 0 < v.weight := fun v => perm.mem_iff.trans mem_copy
  have ordered := (sorting.ordered (setAll values.entries).entries).and
    (List.pairwise_map.mp distinct)
  have limited := small
  rw [← copy_sum, ← (perm.map _).sum_eq] at limited
  refine ⟨⟨_, ordered.imp ?_, distinct, fun v member => ((members v).mp member).2, limited⟩,
    ⟨fun v => perm.mem_iff.symm, rfl⟩, members⟩
  rintro a b ⟨notAfter, apart⟩
  exact (Less.total notAfter).resolve_right fun same => apart (congrArg Validator.id same)

end Sorted

namespace Refines

variable {vv : Validators} {pv : Pos.Validators} {id : ValidatorID} {i : Nat}

theorem lookup_zipIdx (rows : List Validator) (id : ValidatorID) (i : Nat) :
    ((rows.zipIdx i).map fun (v, i) => (v.id, i)).lookup id =
      if id ∈ rows.map Validator.id then some (i + (rows.map Validator.id).idxOf id) else none := by
  induction rows generalizing i with
  | nil => simp
  | cons v rest ih => grind

theorem getIdx (refines : Refines vv pv) : vv.getIdx id = pv.getIdx id := by
  rw [Validators.getIdx, refines.cache, Pos.Validators.getIdx, Pos.Validators.sortedIDs, cacheOf,
    lookup_zipIdx]
  by_cases member : id ∈ pv.sortedArray.map Validator.id
  · rw [if_pos member, if_pos member, Nat.zero_add]
    rfl
  · rw [if_neg member, if_neg member]
    rfl

theorem getWeightByIdx (refines : Refines vv pv) (inside : i < pv.len) :
    vv.getWeightByIdx i = .ok (pv.getWeightByIdx i) := by
  have found : i < pv.sortedArray.length := inside
  simp [Validators.getWeightByIdx, refines.cache, cacheOf, Pos.Validators.getWeightByIdx, found]

theorem perm (refines : Refines vv pv) : vv.values.entries.Perm pv.sortedArray :=
  (List.perm_ext_iff_of_nodup vv.values.distinct.of_map pv.distinct.of_map).mpr refines.members

theorem sorted (refines : Refines vv pv) (sorting : Sorting) :
    sortedArray sorting vv.values = pv.sortedArray :=
  sorted_unique ((sorting.perm _).trans refines.perm) (sorting.ordered _)
    (pv.ordered.imp Less.asymm)

theorem len (refines : Refines vv pv) : vv.len = pv.len := refines.perm.length_eq

theorem get (refines : Refines vv pv) : vv.get id = pv.get id := by
  by_cases member : id ∈ pv.sortedIDs
  · obtain ⟨v, listed, rfl⟩ := List.mem_map.mp member
    rw [get_eq_weight listed, Validators.get,
      vv.values.get_of_mem ((refines.members v).mpr listed)]
  · rw [Pos.Validators.get, if_neg member]
    by_contra positive
    have stored : (⟨id, vv.get id⟩ : Validator) ∈ vv.values.entries :=
      (mem_iff_get (Nat.pos_of_ne_zero positive)).mpr rfl
    exact member (List.mem_map_of_mem ((refines.members _).mp stored))

theorem totalWeight (refines : Refines vv pv) : vv.totalWeight = pv.totalWeight := by
  rw [Validators.totalWeight, refines.cache]
  rfl

end Refines

/-- The `rlp` library on lists of pairs of 32-bit numbers. -/
structure Codec (Bytes Err : Type) where
  encode : List Validator → Bytes
  decode : Bytes → Except Err (List Validator)
  round : ∀ arr : List Validator, (∀ v ∈ arr, v.weight < 2 ^ 32) → decode (encode arr) = .ok arr

section Rlp

variable {Bytes Err : Type} (sorting : Sorting) (codec : Codec Bytes Err)

def Validators.encodeRLP (vv : Validators) : Bytes := codec.encode (sortedArray sorting vv.values)

/-- `DecodeRLP`: the error it returns and what the receiver holds then. -/
def Validators.decodeRLP (vv : Validators) (bytes : Bytes) : Except Panic (Option Err × Validators) :=
  match codec.decode bytes with
  | .error err => .ok (some err, vv)
  | .ok arr => do
    let built ← (setAll arr).build sorting
    .ok (none, built)

variable {codec} in
theorem decodeRLP_eq {bytes : Bytes} {arr : List Validator} (decoded : codec.decode bytes = .ok arr)
    (receiver : Validators) : receiver.decodeRLP sorting codec bytes =
      ((setAll arr).build sorting).map (Prod.mk none) := by
  simp only [Validators.decodeRLP, decoded]
  cases (setAll arr).build sorting <;> rfl

end Rlp

structure Validators.Equal (vv ww : Validators) : Prop where
  values : vv.values.entries.Perm ww.values.entries
  cache : vv.cache = ww.cache

section Equal

variable {sorting : Sorting} {values : ValidatorsBuilder} {vv : Validators}

theorem mem_built (built : values.build sorting = .ok vv) {v : Validator} :
    v ∈ vv.values.entries ↔ v ∈ values.entries ∧ 0 < v.weight := by
  obtain ⟨pv, refines, members⟩ := build_refines built
  rw [refines.members, members]

theorem build_equal (built : values.build sorting = .ok vv) (again : Sorting)
    (other : ValidatorsBuilder)
    (same : ∀ v, 0 < v.weight → (v ∈ vv.values.entries ↔ v ∈ other.entries)) :
    ∃ ww, other.build again = .ok ww ∧ vv.Equal ww := by
  have perm : vv.values.entries.Perm (setAll other.entries).entries := by
    apply ValidatorsBuilder.perm
    intro v
    rw [mem_copy, mem_built built]
    have := same v
    rw [mem_built built] at this
    tauto
  obtain ⟨pv, refines, _⟩ := build_refines built
  have rows : sortedArray again (setAll other.entries) = pv.sortedArray :=
    sorted_unique (((again.perm _).trans perm.symm).trans refines.perm) (again.ordered _)
      (pv.ordered.imp Less.asymm)
  have limited := pv.limited
  rw [← (refines.perm.map _).sum_eq, (perm.map _).sum_eq, copy_sum] at limited
  rw [build_eq]
  dsimp only
  rw [rows, if_pos limited]
  exact ⟨_, rfl, perm, refines.cache⟩

end Equal

/-- What all ways to look at an object show: the rows of `weight` in their order. -/
structure Canonical (vv : Validators) (weight : ValidatorID → Nat) (rows : List Validator) :
    Prop where
  ordered : rows.Pairwise Less
  once : (rows.map Validator.id).Nodup
  members : ∀ v, v ∈ rows ↔ v.weight = weight v.id ∧ 0 < v.weight
  sortedIDs : vv.sortedIDs = rows.map Validator.id
  sortedWeights : vv.sortedWeights = rows.map Validator.weight
  idxs : vv.idxs = rows.zipIdx.map fun (v, i) => (v.id, i)
  row : ∀ i v, rows[i]? = some v → vv.getIdx v.id = i ∧ vv.getID i = .ok v.id ∧
    vv.getWeightByIdx i = .ok v.weight
  get : ∀ id, vv.get id = weight id
  totalWeight : vv.totalWeight = (rows.map Validator.weight).sum

theorem build_canonical {sorting : Sorting} {values : ValidatorsBuilder} {vv : Validators}
    (built : values.build sorting = .ok vv) : ∃ rows, Canonical vv values.get rows := by
  obtain ⟨pv, refines, members⟩ := build_refines built
  refine ⟨pv.sortedArray, pv.ordered, pv.distinct, ?_, ?_, ?_, ?_, ?_, ?_, refines.totalWeight⟩
  · intro v
    rw [members]
    apply and_congr_left
    intro positive
    rw [mem_iff_get positive, eq_comm]
  · rw [Validators.sortedIDs, refines.cache]
    rfl
  · rw [Validators.sortedWeights, refines.cache]
    rfl
  · rw [Validators.idxs, refines.cache]
    rfl
  · intro i v found
    have place : pv.getIdx v.id = i := getIdx_of_getElem (by simp [Pos.Validators.sortedIDs, found])
    refine ⟨refines.getIdx.trans place, ?_, ?_⟩
    · simp [Validators.getID, refines.cache, cacheOf, found]
    · simp [Validators.getWeightByIdx, refines.cache, cacheOf, found]
  · intro id
    apply ValidatorsBuilder.get_congr
    intro v positive
    rw [mem_built built]
    simp [positive]

/-- One map, one object: whatever order the map is visited in and however it is sorted. -/
theorem canonical_form (first second third : Sorting) {Bytes Err : Type}
    (codec : Codec Bytes Err) :
    (∀ calls calls', (∀ id, (setAll calls).get id =
        (setAll calls').get id) →
      ∀ vv, (setAll calls).build first = .ok vv →
        ∃ ww, (setAll calls').build second = .ok ww ∧ vv.Equal ww) ∧
    (∀ calls vv, (setAll calls).build first = .ok vv →
      (∃ rows, Canonical vv (setAll calls).get rows) ∧
      (∃ ww, vv.copy second = .ok ww ∧ vv.Equal ww) ∧
      (∃ values ww, vv.builder second = .ok values ∧ values.build third = .ok ww ∧ vv.Equal ww) ∧
      ∀ receiver : Validators, ∃ ww,
        receiver.decodeRLP second codec (vv.encodeRLP third codec) = .ok (none, ww) ∧ vv.Equal ww) ∧
    ∀ (receiver vv : Validators) bytes arr, codec.decode bytes = .ok arr →
      receiver.decodeRLP first codec bytes = .ok (none, vv) →
      ∃ rows, vv.encodeRLP second codec = codec.encode rows ∧ rows.Pairwise Less ∧
        ∀ v, v ∈ rows ↔ v.weight = lastWins arr v.id ∧ 0 < v.weight := by
  refine ⟨?_, ?_, ?_⟩
  · intro calls calls' same vv built
    apply build_equal built
    intro v positive
    rw [mem_built built, ValidatorsBuilder.mem_iff_get positive,
      ValidatorsBuilder.mem_iff_get positive, same]
    simp [positive]
  · intro calls vv built
    obtain ⟨ww, copied, equal⟩ := build_equal built second vv.values fun v _ => Iff.rfl
    refine ⟨build_canonical built, ⟨ww, copied, equal⟩, ?_, ?_⟩
    · obtain ⟨xx, again, alike⟩ := build_equal built third ww.values
        fun v _ => equal.values.mem_iff
      refine ⟨ww.values, xx, ?_, again, alike⟩
      change vv.copy second = .ok ww at copied
      rw [Validators.builder, copied]
      rfl
    · intro receiver
      have rows := third.perm vv.values.entries
      -- The sorted array is a map with the same entries.
      let listed : ValidatorsBuilder := ⟨third.sort vv.values.entries,
        (rows.map Validator.id).nodup_iff.mpr vv.values.distinct,
        fun v member => vv.values.fits v (rows.mem_iff.mp member)⟩
      obtain ⟨xx, decoded, alike⟩ := build_equal built second
        (setAll listed.entries) fun v positive => by
          rw [mem_copy]
          simp [listed, rows.mem_iff, positive]
      refine ⟨xx, ?_, alike⟩
      change receiver.decodeRLP second codec (codec.encode listed.entries) = _
      rw [decodeRLP_eq second (codec.round _ listed.fits) receiver, decoded]
      rfl
  · intro receiver vv bytes arr decoded stored
    rw [decodeRLP_eq first decoded receiver] at stored
    cases built : (setAll arr).build first with
    | error panic =>
      rw [built] at stored
      cases stored
    | ok ww =>
      rw [built] at stored
      cases stored
      obtain ⟨pv, refines, members⟩ := build_refines built
      refine ⟨pv.sortedArray, by rw [Validators.encodeRLP, refines.sorted], pv.ordered, ?_⟩
      intro v
      rw [members, mem_setAll]
      tauto

def insertionSorting : Sorting where
  sort := List.insertionSort fun a b => ¬ Less b a
  perm := List.perm_insertionSort _
  ordered l := by
    have : Std.Total fun a b : Validator => ¬ Less b a := ⟨fun a b => by
      by_cases before : Less b a
      · exact .inr (Less.asymm before)
      · exact .inl before⟩
    have : IsTrans Validator fun a b => ¬ Less b a := ⟨fun a b c first second => by
      rw [less_iff] at first second ⊢
      omega⟩
    exact List.pairwise_insertionSort _ l

def plainCodec : Codec (List Validator) Unit where
  encode arr := arr
  decode bytes := .ok bytes
  round _ _ := rfl

def lastTotal (arr : List Validator) : Nat :=
  ∑ id ∈ (arr.map Validator.id).toFinset, lastWins arr id

theorem setAll_sum (arr : List Validator) :
    ((setAll arr).entries.map Validator.weight).sum = lastTotal arr := by
  have weights : (setAll arr).entries.map Validator.weight =
      ((setAll arr).entries.map Validator.id).map (lastWins arr) := by
    rw [List.map_map]
    exact List.map_congr_left fun v member => (mem_setAll.mp member).1
  rw [weights, ← List.sum_toFinset _ (setAll arr).distinct, lastTotal]
  have positive : ∀ id, 0 < lastWins arr id →
      id ∈ (setAll arr).entries.map Validator.id ∧ id ∈ arr.map Validator.id := by
    intro id heavy
    refine ⟨List.mem_map.mpr ⟨⟨id, lastWins arr id⟩, mem_setAll.mpr ⟨rfl, heavy⟩, rfl⟩, ?_⟩
    rw [lastWins] at heavy
    cases found : arr.reverse.find? (·.id = id) with
    | none => simp [found] at heavy
    | some u => grind
  apply Finset.sum_subset
  · intro id member
    obtain ⟨v, listed, rfl⟩ := List.mem_map.mp (List.mem_toFinset.mp member)
    obtain ⟨same, heavy⟩ := mem_setAll.mp listed
    exact List.mem_toFinset.mpr (positive _ (same ▸ heavy)).2
  · intro id _ absent
    by_contra heavy
    exact absent (List.mem_toFinset.mpr (positive id (Nat.pos_of_ne_zero heavy)).1)

/-- A decoded list is stored or refused as it should be exactly when its last weights add up
to no more than the limit; above it `DecodeRLP` panics. -/
theorem decodeRLP_sound_iff {Bytes Err : Type} (sorting : Sorting) (codec : Codec Bytes Err)
    (receiver : Validators) {bytes : Bytes} {arr : List Validator}
    (decoded : codec.decode bytes = .ok arr) :
    (∃ r, receiver.decodeRLP sorting codec bytes = .ok r ∧
      ((∃ err, r = (some err, receiver)) ∨ ∃ vv, r = (none, vv) ∧
        vv.totalWeight = lastTotal arr ∧ vv.totalWeight ≤ maxTotalWeight)) ↔
      lastTotal arr ≤ maxTotalWeight := by
  rw [decodeRLP_eq sorting decoded receiver, build_eq, setAll_sum]
  dsimp only
  constructor
  · rintro ⟨r, stored, _⟩
    by_contra heavy
    rw [if_neg heavy] at stored
    cases stored
  · intro small
    have total : (cacheOf (sortedArray sorting
        (setAll (setAll arr).entries))).totalWeight = lastTotal arr :=
      (((sorting.perm _).map _).sum_eq.trans copy_sum).trans (setAll_sum arr)
    rw [if_pos small]
    exact ⟨_, rfl, .inr ⟨_, rfl, total, total.le.trans small⟩⟩

def noValidators : Validators := ⟨.newBuilder, ⟨[], [], [], 0⟩⟩

/-- One validator of weight 2^31 is enough. -/
theorem decodeRLP_panics : plainCodec.decode [⟨1, 2 ^ 31⟩] = .ok [⟨1, 2 ^ 31⟩] ∧
    noValidators.decodeRLP insertionSorting plainCodec [⟨1, 2 ^ 31⟩] = .error .weightOverflow :=
  ⟨rfl, rfl⟩

theorem decodeRLP_sound_pair : lastTotal [⟨1, 5⟩, ⟨2, 0⟩, ⟨1, 7⟩] = 7 ∧
    ∃ r, noValidators.decodeRLP insertionSorting plainCodec [⟨1, 5⟩, ⟨2, 0⟩, ⟨1, 7⟩] = .ok r := by
  have total : lastTotal [⟨1, 5⟩, ⟨2, 0⟩, ⟨1, 7⟩] = 7 := by decide
  have decoded : plainCodec.decode [⟨1, 5⟩, ⟨2, 0⟩, ⟨1, 7⟩] = .ok [⟨1, 5⟩, ⟨2, 0⟩, ⟨1, 7⟩] := rfl
  obtain ⟨r, stored, _⟩ := (decodeRLP_sound_iff insertionSorting plainCodec noValidators
    decoded).mpr (total.trans_le (by decide))
  exact ⟨total, r, stored⟩

structure ValidatorsBigBuilder where
  entries : List Validator
  distinct : (entries.map Validator.id).Nodup

namespace ValidatorsBigBuilder

variable (vv : ValidatorsBigBuilder)

def delete (id : ValidatorID) : ValidatorsBigBuilder where
  entries := vv.entries.filter (·.id ≠ id)
  distinct := vv.distinct.sublist (List.filter_sublist.map _)

def set (id : ValidatorID) (weight : Option Nat) : ValidatorsBigBuilder :=
  match weight with
  | none | some 0 => vv.delete id
  | some weight =>
    { entries := ⟨id, weight⟩ :: (vv.delete id).entries
      distinct := by
        rw [List.map_cons, List.nodup_cons]
        exact ⟨by simp [delete], (vv.delete id).distinct⟩ }

def totalWeight : Nat := (vv.entries.map Validator.weight).sum

def shift : Nat := if 31 < vv.totalWeight.size then vv.totalWeight.size - 31 else 0

def build (sorting : Sorting) : Except Panic Validators :=
  (setAll (vv.entries.map fun v =>
    ⟨v.id, (v.weight >>> vv.shift) % 2 ^ 64⟩)).build sorting

end ValidatorsBigBuilder

theorem sum_div_le (weights : List Nat) (d : Nat) : (weights.map (· / d)).sum ≤ weights.sum / d := by
  induction weights with
  | nil => simp
  | cons w rest ih =>
    rw [List.map_cons, List.sum_cons, List.sum_cons]
    exact (Nat.add_le_add_left ih _).trans Nat.div_add_div_le_add_div

/-- Big weights are divided by the least power of two that brings their sum below 2^31. -/
theorem downscaling_exact (sorting : Sorting) (vv : ValidatorsBigBuilder) :
    ∃ k built, vv.build sorting = .ok built ∧ vv.totalWeight < 2 ^ (31 + k) ∧
      (∀ j, vv.totalWeight < 2 ^ (31 + j) → k ≤ j) ∧ (vv.totalWeight < 2 ^ 31 → k = 0) ∧
      (∀ v ∈ vv.entries, built.get v.id = v.weight / 2 ^ k) ∧
      (∀ v, v ∈ built.values.entries ↔
        ∃ w ∈ vv.entries, v = ⟨w.id, w.weight / 2 ^ k⟩ ∧ 0 < w.weight / 2 ^ k) ∧
      built.totalWeight ≤ 2 ^ 31 - 1 ∧
      ∀ v ∈ vv.entries, ∀ w ∈ vv.entries, v.weight ≤ w.weight → built.get v.id ≤ built.get w.id := by
  have size : vv.totalWeight < 2 ^ (31 + vv.shift) := by
    apply Nat.size_le.mp
    unfold ValidatorsBigBuilder.shift
    split_ifs <;> omega
  have least : ∀ j, vv.totalWeight < 2 ^ (31 + j) → vv.shift ≤ j := by
    intro j below
    have bits := Nat.size_le.mpr below
    unfold ValidatorsBigBuilder.shift
    split_ifs <;> omega
  have quotient : vv.totalWeight / 2 ^ vv.shift < 2 ^ 31 := by
    apply Nat.div_lt_of_lt_mul
    rwa [← Nat.pow_add, Nat.add_comm]
  have small : ∀ v ∈ vv.entries, v.weight / 2 ^ vv.shift < 2 ^ 31 := fun v member =>
    (Nat.div_le_div_right (List.single_le_sum (by simp) _ (List.mem_map_of_mem member))).trans_lt
      quotient
  -- Nothing is cut off, so the builder gets the quotients.
  let scaled : ValidatorsBuilder :=
    { entries := vv.entries.map fun v => ⟨v.id, v.weight / 2 ^ vv.shift⟩
      distinct := by simpa [Function.comp_def] using vv.distinct
      fits := by
        intro v member
        obtain ⟨w, listed, rfl⟩ := List.mem_map.mp member
        exact (small w listed).trans (by decide) }
  have entries : (vv.entries.map fun v => (⟨v.id, (v.weight >>> vv.shift) % 2 ^ 64⟩ : Validator)) =
      scaled.entries := by
    apply List.map_congr_left
    intro v member
    rw [Nat.shiftRight_eq_div_pow, Nat.mod_eq_of_lt ((small v member).trans (by decide))]
  have sum : (scaled.entries.map Validator.weight).sum ≤ maxTotalWeight := by
    have bound := sum_div_le (vv.entries.map Validator.weight) (2 ^ vv.shift)
    rw [List.map_map] at bound
    rw [List.map_map]
    exact bound.trans (Nat.le_sub_one_of_lt quotient)
  obtain ⟨built, result⟩ : ∃ built, vv.build sorting = .ok built := by
    rw [ValidatorsBigBuilder.build, entries, build_eq, copy_sum]
    exact ⟨_, if_pos sum⟩
  have stored := result
  rw [ValidatorsBigBuilder.build, entries] at stored
  have members : ∀ v, v ∈ built.values.entries ↔ v ∈ scaled.entries ∧ 0 < v.weight := by
    intro v
    rw [mem_built stored, mem_copy]
    tauto
  have get : ∀ v ∈ vv.entries, built.get v.id = v.weight / 2 ^ vv.shift := by
    intro v member
    have same : built.values.get v.id = scaled.get v.id :=
      ValidatorsBuilder.get_congr fun w positive => by simp [members, positive]
    rw [Validators.get, same]
    have listed : (⟨v.id, v.weight / 2 ^ vv.shift⟩ : Validator) ∈ scaled.entries :=
      List.mem_map.mpr ⟨v, member, rfl⟩
    exact ValidatorsBuilder.get_of_mem listed
  obtain ⟨pv, refines, _⟩ := build_refines stored
  refine ⟨vv.shift, built, result, size, least, ?_, get, ?_, ?_, ?_⟩
  · intro below
    exact Nat.le_zero.mp (least 0 below)
  · grind
  · rw [refines.totalWeight]
    exact pv.limited
  · intro v left w right le
    rw [get v left, get w right]
    exact Nat.div_le_div_right le

end Lachesis.Pos.Machine
