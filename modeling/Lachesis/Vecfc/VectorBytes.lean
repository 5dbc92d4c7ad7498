import Lachesis.Vecfc.Vector
import Lachesis.Library.BigEndian
import Lachesis.Library.Triples

/-!
The vectors of `vecfc/vector.go` in their binary form: eight bytes for a branch, `Seq` before
`MinSeq`, the least significant byte first. Places in a buffer are 32-bit numbers. The lists of
`Vector` are what the buffers encode, as long as there are fewer than 2^29 branches.
-/

namespace Lachesis.Vecfc.Binary

open Triples

inductive Panic where
  | sliceBounds

abbrev Bytes := List (Fin 256)

def uint32 (bytes : Bytes) : Nat := BigEndian.decode bytes.reverse

def littleEndian (n : Nat) : Bytes := (BigEndian.encode 4 n).reverse

def slice (b : Bytes) (low high : Nat) : Except Panic Bytes :=
  if low ≤ high ∧ high ≤ b.length then .ok ((b.drop low).take (high - low))
  else .error .sliceBounds

def putUint32 (b : Bytes) (low high n : Nat) : Except Panic Bytes :=
  if low ≤ high ∧ high ≤ b.length then .ok (b.take low ++ (littleEndian n ++ b.drop (low + 4)))
  else .error .sliceBounds

def size (b : Bytes) : Nat := b.length / 8

/-- `i*8 + offset`, as `idx.Validator`. -/
def place (i offset : Nat) : Nat := (i * 8 + offset) % 2 ^ 32

def get (b : Bytes) (i : Nat) : Except Panic BranchSeq :=
  if size b ≤ i then .ok .empty
  else do
    let seq1 ← slice b (place i 0) (place i 4)
    let seq2 ← slice b (place i 4) (place i 8)
    .ok ⟨uint32 seq1, uint32 seq2⟩

def set (b : Bytes) (i : Nat) (seq : BranchSeq) : Except Panic Bytes := do
  -- append zeros if exceeds size
  let b := b ++ List.replicate ((i + 1 - size b) * 8) 0
  let b ← putUint32 b (place i 0) (place i 4) seq.seq
  putUint32 b (place i 4) (place i 8) seq.minSeq

def collectBranch (other self : Bytes) (branchID : Nat) : Except Panic Bytes := do
  let hisSeq ← get other branchID
  if hisSeq.seq = 0 ∧ hisSeq.isForkDetected = false then .ok self
  else
    let mySeq ← get self branchID
    if mySeq.isForkDetected then .ok self
    else if hisSeq.isForkDetected then set self branchID .forkDetectedSeq
    else
      let taken : BranchSeq := { mySeq with minSeq := hisSeq.minSeq }
      let (mySeq, self) ←
        if mySeq.seq = 0 ∨ mySeq.minSeq > hisSeq.minSeq then do
          let self ← set self branchID taken
          .ok (taken, self)
        else .ok (mySeq, self)
      if mySeq.seq < hisSeq.seq then set self branchID { mySeq with seq := hisSeq.seq }
      else .ok self

def collectFrom (self other : Bytes) (num : Nat) : Except Panic Bytes :=
  (List.range num).foldlM (collectBranch other) self

def collectAll (num : Nat) (self : Bytes) (others : List Bytes) : Except Panic Bytes :=
  others.foldlM (fun self other => collectFrom self other num) self

section Encoding

variable {v w : HighestBeforeSeq} {i : Nat} {s x : BranchSeq}

def entryBytes (s : BranchSeq) : Bytes := littleEndian s.seq ++ littleEndian s.minSeq

def encode (v : HighestBeforeSeq) : Bytes := v.entries.flatMap entryBytes

def Fits (s : BranchSeq) : Prop := s.seq < 2 ^ 32 ∧ s.minSeq < 2 ^ 32

def AllFit (v : HighestBeforeSeq) : Prop := ∀ i, Fits (v.get i)

instance (s : BranchSeq) : Decidable (Fits s) := inferInstanceAs (Decidable (_ ∧ _))

theorem allFit_of_entries (each : ∀ s ∈ v.entries, Fits s) : AllFit v := by
  intro i
  rw [HighestBeforeSeq.get]
  cases found : v.entries[i]? with
  | none => exact ⟨by decide, by decide⟩
  | some s => exact each s (List.mem_of_getElem? found)

theorem length_littleEndian (n : Nat) : (littleEndian n).length = 4 := by
  rw [littleEndian, List.length_reverse, BigEndian.length_encode]

theorem uint32_littleEndian {n : Nat} (fits : n < 2 ^ 32) : uint32 (littleEndian n) = n := by
  rw [uint32, littleEndian, List.reverse_reverse, BigEndian.decode_encode fits]

theorem length_entries (entries : List BranchSeq) :
    (entries.flatMap entryBytes).length = entries.length * 8 := by
  induction entries with
  | nil => rfl
  | cons s rest ih =>
    rw [List.flatMap_cons, List.length_append, ih, entryBytes, List.length_append,
      length_littleEndian, length_littleEndian, List.length_cons]
    omega

theorem length_encode : (encode v).length = v.entries.length * 8 := length_entries v.entries

theorem size_encode : size (encode v) = v.entries.length := by
  rw [size, length_encode, Nat.mul_div_cancel _ (by decide)]

theorem encode_split (entries : List BranchSeq) (inside : i < entries.length) :
    ∃ front back : Bytes, front.length = i * 8 ∧ ∀ x, (entries.set i x).flatMap entryBytes =
      front ++ (littleEndian x.seq ++ (littleEndian x.minSeq ++ back)) := by
  refine ⟨(entries.take i).flatMap entryBytes, (entries.drop (i + 1)).flatMap entryBytes, ?_, ?_⟩
  · rw [length_entries, List.length_take, Nat.min_eq_left inside.le]
  · intro x
    rw [List.set_eq_take_append_cons_drop, if_pos inside, List.flatMap_append, List.flatMap_cons,
      entryBytes, List.append_assoc]

theorem slice_middle {front middle back : Bytes} {low high : Nat} (start : front.length = low)
    (stop : high = low + middle.length) : slice (front ++ (middle ++ back)) low high = .ok middle := by
  subst start stop
  rw [slice, if_pos (by simp), Nat.add_sub_cancel_left, List.drop_left, List.take_left]

theorem putUint32_middle {front middle back : Bytes} {low high : Nat} (start : front.length = low)
    (four : middle.length = 4) (stop : high = low + 4) (n : Nat) :
    putUint32 (front ++ (middle ++ back)) low high n = .ok (front ++ (littleEndian n ++ back)) := by
  subst start stop
  rw [putUint32, if_pos (by simp [four]), List.take_left, ← List.drop_drop, List.drop_left, ← four,
    List.drop_left]

theorem place_eq (room : i % 2 ^ 29 + 1 < 2 ^ 29) {offset : Nat} (small : offset ≤ 8) :
    place i offset = i % 2 ^ 29 * 8 + offset := by
  unfold place
  omega

theorem get_encode (fits : Fits (v.get i)) (room : i + 1 < 2 ^ 29 ∨ v.entries.length ≤ i) :
    get (encode v) i = .ok (v.get i) := by
  rw [get, size_encode]
  by_cases past : v.entries.length ≤ i
  · rw [if_pos past, HighestBeforeSeq.get, List.getElem?_eq_none past]
    rfl
  · have inside : i < v.entries.length := Nat.lt_of_not_le past
    have same : i % 2 ^ 29 = i := Nat.mod_eq_of_lt (by omega)
    have places := @place_eq i (by omega)
    rw [same] at places
    obtain ⟨front, back, length, split⟩ := encode_split v.entries inside
    have own : v.get i = v.entries[i] := by simp [HighestBeforeSeq.get, inside]
    have whole := split (v.get i)
    rw [own, List.set_getElem_self, ← own] at whole
    rw [if_neg past, encode, whole, places (by decide), places (by decide), places (by decide),
      Nat.add_zero, slice_middle length (by rw [length_littleEndian]), ← List.append_assoc,
      slice_middle (by simp [length, length_littleEndian]) (by simp [length_littleEndian])]
    dsimp only [bind, Except.bind]
    rw [uint32_littleEndian fits.1, uint32_littleEndian fits.2]

theorem encode_zeros (n : Nat) :
    (List.replicate n BranchSeq.empty).flatMap entryBytes = List.replicate (n * 8) 0 := by
  induction n with
  | zero => rfl
  | succ n ih =>
    rw [List.replicate_succ, List.flatMap_cons, ih, Nat.succ_mul, Nat.add_comm, List.replicate_add]
    rfl

theorem set_encode (v : HighestBeforeSeq) (room : i % 2 ^ 29 + 1 < 2 ^ 29) (x : BranchSeq) :
    set (encode v) i x = .ok (encode ⟨(v.entries ++ List.replicate (i + 1 - v.entries.length)
      BranchSeq.empty).set (i % 2 ^ 29) x⟩) := by
  have places := @place_eq i room
  rw [set, size_encode, ← encode_zeros, encode, ← List.flatMap_append]
  generalize padded : v.entries ++ List.replicate (i + 1 - v.entries.length) BranchSeq.empty = entries
  have inside : i % 2 ^ 29 < entries.length := by grind
  obtain ⟨front, back, length, split⟩ := encode_split entries inside
  have whole := split entries[i % 2 ^ 29]
  rw [List.set_getElem_self] at whole
  rw [whole, places (by decide), places (by decide), places (by decide), Nat.add_zero,
    putUint32_middle length (length_littleEndian _) rfl]
  dsimp only [bind, Except.bind]
  rw [← List.append_assoc, putUint32_middle (by simp [length, length_littleEndian])
    (length_littleEndian _) rfl, List.append_assoc, encode, split]

theorem set_encode_below (v : HighestBeforeSeq) (room : i + 1 < 2 ^ 29) (x : BranchSeq) :
    set (encode v) i x = .ok (encode (v.set i x)) := by
  have same : i % 2 ^ 29 = i := Nat.mod_eq_of_lt (by omega)
  have written := set_encode v (by omega : i % 2 ^ 29 + 1 < 2 ^ 29) x
  rwa [same] at written

theorem place_ends (last : (i + 1) % 2 ^ 29 = 0) : ¬place i 4 ≤ place i 8 := by
  unfold place
  omega

theorem set_panics (b : Bytes) (last : (i + 1) % 2 ^ 29 = 0) (x : BranchSeq) :
    set b i x = .error .sliceBounds := by
  rw [set, putUint32]
  split_ifs
  · exact if_neg fun bounds => place_ends last bounds.1
  · rfl

theorem get_panics {b : Bytes} (inside : i < size b) (last : (i + 1) % 2 ^ 29 = 0) :
    get b i = .error .sliceBounds := by
  rw [get, if_neg (Nat.not_le.mpr inside), slice]
  split_ifs
  · dsimp only [bind, Except.bind]
    rw [slice, if_neg fun bounds => place_ends last bounds.1]
  · rfl

theorem index_small (room : i % 2 ^ 29 + 1 < 2 ^ 29) (fits : AllFit v)
    (kept : ∀ x, Fits x → ∃ r, AllFit r ∧ set (encode v) i x = .ok (encode r) ∧
      get (encode r) i = .ok x ∧ ∀ j ≠ i, r.get j = v.get j) : i + 1 < 2 ^ 29 := by
  by_contra wraps
  have elsewhere : i % 2 ^ 29 ≠ i := by omega
  have overwritten : ∀ x, Fits x → v.get (i % 2 ^ 29) = x := by
    intro x own
    obtain ⟨r, _, run, _, others⟩ := kept x own
    rw [set_encode v room x, Except.ok.injEq] at run
    have read := get_encode (i := i % 2 ^ 29) (others _ elsewhere ▸ fits _) (.inl room)
    rw [← run, others _ elsewhere] at read
    have there : HighestBeforeSeq.get ⟨(v.entries ++ List.replicate (i + 1 - v.entries.length)
        BranchSeq.empty).set (i % 2 ^ 29) x⟩ (i % 2 ^ 29) = x := by
      rw [HighestBeforeSeq.get, List.getElem?_set_self]
      · rfl
      · rw [List.length_append, List.length_replicate]
        omega
    rw [get_encode (by rwa [there]) (.inl room), there] at read
    injection read with same
    exact same.symm
  have zero := overwritten .empty ⟨by decide, by decide⟩
  rw [overwritten .forkDetectedSeq ⟨by decide, by decide⟩] at zero
  cases zero

theorem AllFit.set (fits : AllFit v) (own : Fits x) (i : Nat) : AllFit (v.set i x) := by
  intro j
  rw [HighestBeforeSeq.get_set]
  split_ifs
  exacts [own, fits j]

end Encoding

section Collecting

variable {v w : HighestBeforeSeq} {n i : Nat}

theorem fits_merge {mySeq hisSeq : BranchSeq} (my : Fits mySeq) (his : Fits hisSeq) :
    Fits (HighestBeforeSeq.merge mySeq hisSeq) := by
  unfold HighestBeforeSeq.merge
  split_ifs
  · exact my
  · exact my
  · exact ⟨by decide, by decide⟩
  · exact ⟨max_lt my.1 his.1, his.2⟩
  · exact ⟨max_lt my.1 his.1, my.2⟩

theorem AllFit.collectBranch (fits : AllFit v) (his : AllFit w) (i : Nat) :
    AllFit (HighestBeforeSeq.collectBranch w v i) := by
  intro j
  rw [HighestBeforeSeq.get_collectBranch]
  split_ifs
  exacts [fits_merge (fits i) (his i), fits j]

theorem inside_of_nonempty (seen : ¬((w.get i).seq = 0 ∧ (w.get i).isForkDetected = false)) :
    i < w.entries.length := by
  by_contra past
  apply seen
  rw [HighestBeforeSeq.get, List.getElem?_eq_none (Nat.le_of_not_lt past)]
  exact ⟨rfl, rfl⟩

theorem collectBranch_encode (fits : AllFit v) (his : AllFit w) (short : w.entries.length < 2 ^ 29) :
    collectBranch (encode w) (encode v) i =
      .ok (encode (HighestBeforeSeq.collectBranch w v i)) := by
  rw [collectBranch, get_encode (his i) (by omega), HighestBeforeSeq.collectBranch]
  dsimp only [bind, Except.bind]
  by_cases nothing : (w.get i).seq = 0 ∧ (w.get i).isForkDetected = false
  · rw [if_pos nothing, if_pos nothing]
  · have inside := inside_of_nonempty nothing
    have room : i + 1 < 2 ^ 29 := by omega
    rw [if_neg nothing, if_neg nothing, get_encode (fits i) (.inl room)]
    dsimp only
    split_ifs <;> simp_all [set_encode_below _ room, HighestBeforeSeq.setForkDetected]

theorem collectFrom_encode (fits : AllFit v) (his : AllFit w) (short : w.entries.length < 2 ^ 29) :
    collectFrom (encode v) (encode w) n = .ok (encode (v.collectFrom w n)) ∧
      AllFit (v.collectFrom w n) := by
  unfold collectFrom HighestBeforeSeq.collectFrom
  induction List.range n generalizing v with
  | nil => exact ⟨rfl, fits⟩
  | cons i rest ih =>
    rw [List.foldlM_cons, List.foldl_cons, collectBranch_encode fits his short]
    exact ih (fits.collectBranch his i)

theorem collectFrom_panics {b other : Bytes} (long : 2 ^ 29 ≤ size other) (covered : size other ≤ n) :
    Ensures (collectFrom b other n) fun _ => False := by
  have reached : Ensures (collectFrom b other n) fun _ => n < 2 ^ 29 := by
    unfold collectFrom
    apply @ensures_range _ _ _ _ fun k _ => k < 2 ^ 29
    · decide
    · intro k _ b before
      by_cases last : k + 1 = 2 ^ 29
      · rw [collectBranch, get_panics (by omega) (by omega)]
        exact ensures_error
      · exact fun _ _ => by omega
  exact ensures_mono reached fun _ below => by omega

end Collecting

section Joining

abbrev Observed := WithBot (WithTop (ℕᵒᵈ × ℕ))

def observed (s : BranchSeq) : Observed :=
  if s.isForkDetected then ⊤
  else if s.seq = 0 then ⊥
  else WithBot.some (WithTop.some (OrderDual.toDual s.minSeq, s.seq))

def view (v : HighestBeforeSeq) : ℕ → Observed := fun i => observed (v.get i)

variable {a b : BranchSeq} {v w r s : HighestBeforeSeq} {ws us : List HighestBeforeSeq} {n i : Nat}

theorem observed_bot : observed a = ⊥ ↔ a.seq = 0 ∧ a.isForkDetected = false := by
  unfold observed
  split_ifs <;> simp_all

theorem observed_marked (marked : a.isForkDetected = true) : observed a = ⊤ := if_pos marked

theorem observed_interval (seen : a.seq ≠ 0) :
    observed a = WithBot.some (WithTop.some (OrderDual.toDual a.minSeq, a.seq)) := by
  rw [observed, if_neg (by simp [BranchSeq.unmarked_of_seq (Nat.pos_of_ne_zero seen)]), if_neg seen]

theorem observed_inj (same : observed a = observed b) (known : observed a ≠ ⊥) : a = b := by
  obtain ⟨seq, minSeq⟩ := a
  obtain ⟨seq', minSeq'⟩ := b
  unfold observed at same known
  split_ifs at same known <;> simp_all [BranchSeq.eq_mark]

theorem observed_merge : observed (HighestBeforeSeq.merge a b) = observed a ⊔ observed b := by
  unfold HighestBeforeSeq.merge
  split_ifs with nothing mine his lower
  · rw [observed_bot.mpr nothing, sup_bot_eq]
  · rw [observed_marked mine, top_sup_eq]
  · rw [observed_marked BranchSeq.isForkDetected_mark, observed_marked his, sup_top_eq]
  all_goals
    have seen : b.seq ≠ 0 := fun zero => nothing ⟨zero, by simpa using his⟩
    rw [observed_interval seen, observed_interval (by dsimp only; omega)]
  · by_cases first : a.seq = 0
    · rw [observed_bot.mpr ⟨first, by simpa using mine⟩, bot_sup_eq, first, Nat.zero_max]
    · rw [observed_interval first, ← WithBot.coe_sup, ← WithTop.coe_sup, Prod.mk_sup_mk, ← toDual_inf,
        inf_of_le_right (by omega)]
  · rw [observed_interval (by omega), ← WithBot.coe_sup, ← WithTop.coe_sup, Prod.mk_sup_mk, ← toDual_inf,
      inf_of_le_left (by omega)]

theorem view_past (past : w.entries.length ≤ i) : view w i = ⊥ := by
  rw [view, HighestBeforeSeq.get, List.getElem?_eq_none past]
  rfl

theorem view_collectFrom (covered : w.entries.length ≤ n) :
    view (v.collectFrom w n) = view v ⊔ view w := by
  funext i
  rw [Pi.sup_apply, view, HighestBeforeSeq.get_collectFrom]
  split_ifs with below
  · exact observed_merge
  · rw [view_past (covered.trans (Nat.le_of_not_lt below)), sup_bot_eq, view]

theorem get_collectFrom_unseen (unseen : view w i = ⊥) : (v.collectFrom w n).get i = v.get i := by
  rw [HighestBeforeSeq.get_collectFrom, HighestBeforeSeq.merge, if_pos (observed_bot.mp unseen), ite_self]

theorem length_set {x : BranchSeq} :
    (v.set i x).entries.length = max v.entries.length (i + 1) := by
  simp only [HighestBeforeSeq.set, setPadded, List.length_set, List.length_append, List.length_replicate]
  omega

theorem length_collectBranch : (HighestBeforeSeq.collectBranch w v i).entries.length =
    if view w i = ⊥ then v.entries.length else max v.entries.length (i + 1) := by
  have grown : ¬((v.get i).seq = 0 ∧ (v.get i).isForkDetected = false) →
      max v.entries.length (i + 1) = v.entries.length :=
    fun seen => max_eq_left (inside_of_nonempty seen)
  rw [HighestBeforeSeq.collectBranch]
  simp only [view, observed_bot]
  split_ifs with nothing mine his lower higher higher
  · rfl
  · rw [grown (by simp [mine])]
  · exact length_set
  · rw [length_set, length_set, max_assoc, max_self]
  · exact length_set
  · exact length_set
  · rw [grown (by omega)]

theorem length_collectFrom {limit : Nat} : (v.collectFrom w n).entries.length ≤ limit ↔
    v.entries.length ≤ limit ∧ ∀ i < n, view w i ≠ ⊥ → i < limit := by
  unfold HighestBeforeSeq.collectFrom
  induction n with
  | zero => simp
  | succ n ih =>
    rw [List.range_succ, List.foldl_append, List.foldl_cons, List.foldl_nil, length_collectBranch,
      Nat.forall_lt_succ_right, ← and_assoc, ← ih]
    split_ifs with unseen
    · simp [unseen]
    · simp [unseen]

/-- What the parents' vectors determine of the merged one, in any order. -/
structure Joined (v : HighestBeforeSeq) (ws : List HighestBeforeSeq) (r : HighestBeforeSeq) : Prop where
  least : ∀ c, view r ≤ c ↔ view v ≤ c ∧ ∀ w ∈ ws, view w ≤ c
  unseen : ∀ i, view r i = ⊥ → r.get i = v.get i
  length : ∀ limit, r.entries.length ≤ limit ↔
    v.entries.length ≤ limit ∧ ∀ w ∈ ws, ∀ i, view w i ≠ ⊥ → i < limit

theorem joined_collected (covered : ∀ w ∈ ws, w.entries.length ≤ n) :
    Joined v ws (ws.foldl (fun v w => v.collectFrom w n) v) := by
  induction ws generalizing v with
  | nil => exact ⟨by simp, fun _ _ => rfl, by simp⟩
  | cons w rest ih =>
    obtain ⟨own, later⟩ := List.forall_mem_cons.mp covered
    obtain ⟨least, unseen, length⟩ := @ih (v.collectFrom w n) later
    rw [List.foldl_cons]
    refine ⟨fun c => ?_, fun i none => ?_, fun limit => ?_⟩
    · rw [least, view_collectFrom own, sup_le_iff, List.forall_mem_cons, and_assoc]
    · have below := ((least _).mp le_rfl).1 i
      rw [none, le_bot_iff, view_collectFrom own, Pi.sup_apply, sup_eq_bot_iff] at below
      rw [unseen i none, get_collectFrom_unseen below.2]
    · rw [length, length_collectFrom, List.forall_mem_cons, and_assoc]
      have whole : (∀ i < n, view w i ≠ ⊥ → i < limit) ↔ ∀ i, view w i ≠ ⊥ → i < limit := by
        refine ⟨fun below i known => below i ?_ known, fun all i _ => all i⟩
        by_contra past
        exact known (view_past (own.trans (Nat.le_of_not_lt past)))
      rw [whole]

theorem ext_get (length : r.entries.length = s.entries.length) (each : ∀ i, r.get i = s.get i) :
    r = s := by
  obtain ⟨left⟩ := r
  obtain ⟨right⟩ := s
  congr 1
  apply List.ext_getElem length
  intro i inLeft inRight
  simpa [HighestBeforeSeq.get, inLeft, inRight] using each i

theorem Joined.unique (first : Joined v ws r) (second : Joined v us s) (same : ∀ w, w ∈ ws ↔ w ∈ us) :
    r = s := by
  have views : view r = view s := by
    apply eq_of_forall_ge_iff
    intro c
    simp only [first.least, second.least, same]
  apply ext_get
  · apply eq_of_forall_ge_iff
    intro limit
    simp only [first.length, second.length, same]
  · intro i
    by_cases known : view r i = ⊥
    · rw [first.unseen i known, second.unseen i (views ▸ known)]
    · exact observed_inj (congrFun views i) known

end Joining

section Parents

variable {v w : HighestBeforeSeq} {ws us : List HighestBeforeSeq} {n : Nat}

theorem collectAll_encode (fits : AllFit v) (parents : ∀ w ∈ ws, AllFit w ∧ w.entries.length < 2 ^ 29) :
    collectAll n (encode v) (ws.map encode) =
        .ok (encode (ws.foldl (fun v w => v.collectFrom w n) v)) ∧
      AllFit (ws.foldl (fun v w => v.collectFrom w n) v) := by
  unfold collectAll
  induction ws generalizing v with
  | nil => exact ⟨rfl, fits⟩
  | cons w rest ih =>
    obtain ⟨⟨his, short⟩, later⟩ := List.forall_mem_cons.mp parents
    obtain ⟨run, fits⟩ := collectFrom_encode (n := n) fits his short
    rw [List.map_cons, List.foldlM_cons, run]
    exact ih fits later

theorem collectAll_panics {b : Bytes} (member : w ∈ ws) (long : 2 ^ 29 ≤ w.entries.length)
    (covered : w.entries.length ≤ n) : Ensures (collectAll n b (ws.map encode)) fun _ => False := by
  obtain ⟨before, after, rfl⟩ := List.append_of_mem member
  rw [collectAll, List.map_append, List.map_cons, List.foldlM_append]
  refine ensures_bind (ensures_any _) fun _ _ => ?_
  rw [List.foldlM_cons]
  rw [← size_encode (v := w)] at long covered
  exact ensures_bind (collectFrom_panics long covered) fun _ never => never.elim

end Parents

/-- Merging is the join of what the vectors know, in any order of the parents, exactly while the places
of the entries do not wrap around. -/
theorem merging_is_join {v : HighestBeforeSeq} (fits : AllFit v) :
    (∀ w n, AllFit w → v.entries.length ≤ n → w.entries.length ≤ n →
      ((∃ r, AllFit r ∧ collectFrom (encode v) (encode w) n = .ok (encode r) ∧
        view r = view v ⊔ view w) ↔ w.entries.length < 2 ^ 29)) ∧
    (∀ i, (∀ x, Fits x → ∃ r, AllFit r ∧ set (encode v) i x = .ok (encode r) ∧
      get (encode r) i = .ok x ∧ ∀ j ≠ i, r.get j = v.get j) ↔ i + 1 < 2 ^ 29) ∧
    ∀ (ws us : List HighestBeforeSeq) n, (∀ w ∈ ws, AllFit w ∧ w.entries.length ≤ n) →
      (∀ w, w ∈ ws ↔ w ∈ us) →
      ((∃ r, AllFit r ∧ collectAll n (encode v) (ws.map encode) = .ok (encode r) ∧
        collectAll n (encode v) (us.map encode) = .ok (encode r)) ↔
          ∀ w ∈ ws, w.entries.length < 2 ^ 29) := by
  refine ⟨?_, ?_, ?_⟩
  · intro w n his _ covered
    constructor
    · rintro ⟨r, _, run, _⟩
      by_contra long
      exact collectFrom_panics (by rw [size_encode]; omega) (by rwa [size_encode]) _ run
    · intro short
      obtain ⟨run, merged⟩ := collectFrom_encode (n := n) fits his short
      exact ⟨_, merged, run, view_collectFrom covered⟩
  · intro i
    constructor
    · intro kept
      by_contra wraps
      by_cases last : (i + 1) % 2 ^ 29 = 0
      · obtain ⟨r, _, run, _⟩ := kept .empty ⟨by decide, by decide⟩
        rw [set_panics _ last] at run
        cases run
      · exact wraps (index_small (by omega) fits kept)
    · intro room x own
      have written : (v.set i x).get i = x := by rw [HighestBeforeSeq.get_set, if_pos rfl]
      refine ⟨v.set i x, fits.set own i, set_encode_below v room x, ?_, fun j other => ?_⟩
      · rw [get_encode (by rwa [written]) (.inl room), written]
      · rw [HighestBeforeSeq.get_set, if_neg other]
  · intro ws us n parents same
    constructor
    · rintro ⟨r, _, run, _⟩ w member
      by_contra long
      exact collectAll_panics member (Nat.le_of_not_lt long) (parents w member).2 _ run
    · intro short
      have left := fun w member => And.intro (parents w member).1 (short w member)
      have right := fun w member => left w ((same w).mpr member)
      obtain ⟨run, merged⟩ := collectAll_encode (n := n) fits left
      refine ⟨_, merged, run, ?_⟩
      rw [(collectAll_encode fits right).1, Joined.unique
        (joined_collected fun w member => (parents w member).2)
        (joined_collected fun w member => (parents w ((same w).mpr member)).2) same]

/-- A vector of one branch takes in one that has seen a fork on the second. -/
theorem merging_is_join_fork : ∃ r,
    collectFrom (encode ⟨[⟨3, 2⟩]⟩) (encode ⟨[⟨2, 1⟩, .forkDetectedSeq]⟩) 2 = .ok (encode r) ∧
      view r = view ⟨[⟨3, 2⟩]⟩ ⊔ view ⟨[⟨2, 1⟩, .forkDetectedSeq]⟩ := by
  have mine : AllFit ⟨[⟨3, 2⟩]⟩ := allFit_of_entries (by decide)
  have his : AllFit ⟨[⟨2, 1⟩, .forkDetectedSeq]⟩ := allFit_of_entries (by decide)
  obtain ⟨r, _, run, joined⟩ :=
    ((merging_is_join mine).1 _ 2 his (by decide) (by decide)).mpr (by decide)
  exact ⟨r, run, joined⟩

/-- A `Set` of an empty vector that panics. -/
theorem set_last_panics : ¬∃ r, set (encode ⟨[]⟩) (2 ^ 29 - 1) ⟨1, 1⟩ = .ok (encode r) := by
  rintro ⟨r, run⟩
  rw [set_panics _ (by decide)] at run
  cases run

end Lachesis.Vecfc.Binary
