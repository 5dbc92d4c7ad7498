import Lachesis.Kvdb.Table
import Lachesis.Library.BigEndian

/-!
The two upper bounds for the keys under a prefix: `incPrefix` of the tables, which adds one
to the prefix as a number, and `bytesPrefix` of pebble, which cuts the prefix after the last
byte that can be raised. A nil bound is `none`: no key is above it.
-/

namespace Lachesis.Kvdb.Table

open BigEndian

/-- The function of this name in `common` of go-ethereum. -/
def trimLeftZeroes (bytes : Bytes) : Bytes := bytes.dropWhile (· = 0)

def incPrefix (pre : Bytes) : Option Bytes :=
  let trimmedPrefix := trimLeftZeroes pre
  let endBn := decode trimmedPrefix + 1
  -- overflow
  if trimmedPrefix.length < (shortest endBn).length then none
  else some (List.replicate (pre.length - trimmedPrefix.length) 0 ++ shortest endBn)

def bytesPrefixLoop (pre : Bytes) : Nat → Option Bytes
  | 0 => none
  | i + 1 =>
    match pre[i]? with
    | none => none
    | some c => if c < 255 then some (pre.take i ++ [c + 1]) else bytesPrefixLoop pre i

def bytesPrefix (pre : Bytes) : Option Bytes := bytesPrefixLoop pre pre.length

def Below (k : Bytes) : Option Bytes → Prop
  | none => True
  | some bound => k < bound

instance (k : Bytes) : (bound : Option Bytes) → Decidable (Below k bound)
  | none => .isTrue trivial
  | some bound => inferInstanceAs (Decidable (k < bound))

/-- The bound is exact for the prefix, is missing only where it has to be, and separates the
same keys as the one of pebble. -/
structure Exact (pre : Bytes) : Prop where
  range : ∀ k, pre ≤ k ∧ Below k (incPrefix pre) ↔ pre <+: k
  missing : incPrefix pre = none → ∀ byte ∈ pre, byte = 255
  pebble : ∀ k, Below k (incPrefix pre) ↔ Below k (bytesPrefix pre)

/-- Adding one does not carry, and is not lost with the zeroes in front. -/
def Raisable (pre : Bytes) : Prop :=
  (∀ byte ∈ pre, byte = 255) ∨ pre.getLast? ≠ some 255 ∧ ∃ byte ∈ pre, byte ≠ 0

instance (pre : Bytes) : Decidable (Raisable pre) := inferInstanceAs (Decidable (_ ∨ _))

section Split

theorem split_last (pre : Bytes) : (∃ m, pre = List.replicate m 255) ∨
    ∃ front c m, c ≠ (255 : Fin 256) ∧ pre = front ++ c :: List.replicate m 255 := by
  induction pre using List.reverseRecOn with
  | nil => exact .inl ⟨0, rfl⟩
  | append_singleton front c ih =>
    by_cases last : c = 255
    · subst last
      rcases ih with ⟨m, rfl⟩ | ⟨before, c, m, room, rfl⟩
      · exact .inl ⟨m + 1, by rw [List.replicate_succ']⟩
      · exact .inr ⟨before, c, m + 1, room, by simp [List.replicate_succ']⟩
    · exact .inr ⟨front, c, 0, last, rfl⟩

theorem getLast_ones (front : Bytes) (c : Fin 256) (m : Nat) :
    (front ++ c :: List.replicate (m + 1) 255).getLast? = some 255 := by
  rw [List.replicate_succ', ← List.cons_append, ← List.append_assoc, List.getLast?_concat]

theorem trim_eq (pre : Bytes) :
    pre = List.replicate (pre.length - (trimLeftZeroes pre).length) 0 ++ trimLeftZeroes pre := by
  induction pre with
  | nil => rfl
  | cons byte rest ih =>
    by_cases zero : byte = 0
    · subst zero
      have shorter : (trimLeftZeroes rest).length ≤ rest.length :=
        (List.dropWhile_sublist _).length_le
      have same : trimLeftZeroes (0 :: rest) = trimLeftZeroes rest := by simp [trimLeftZeroes]
      rw [same, List.length_cons, Nat.succ_sub shorter, List.replicate_succ, List.cons_append,
        ← ih]
    · have same : trimLeftZeroes (byte :: rest) = byte :: rest := by simp [trimLeftZeroes, zero]
      rw [same, Nat.sub_self]
      rfl

theorem head_trim (pre : Bytes) : (trimLeftZeroes pre).head? ≠ some 0 := by
  intro zero
  have first := List.head?_dropWhile_not (fun byte : Fin 256 => decide (byte = 0)) pre
  rw [show pre.dropWhile _ = trimLeftZeroes pre from rfl, zero] at first
  simp at first

theorem trim_zeros (n : Nat) {rest : Bytes} (first : rest.head? ≠ some 0) :
    trimLeftZeroes (List.replicate n 0 ++ rest) = rest := by
  induction n with
  | zero =>
    cases rest with
    | nil => rfl
    | cons byte rest =>
      have other : byte ≠ 0 := by simpa using first
      simp [trimLeftZeroes, other]
  | succ n ih => simpa [trimLeftZeroes, List.replicate_succ] using ih

end Split

section Values

theorem head_ones (m : Nat) : (List.replicate m (255 : Fin 256)).head? ≠ some 0 := by
  cases m <;> simp [List.replicate_succ]

variable {front : Bytes} {c : Fin 256} {m i : Nat}

theorem head_append {rest : Bytes} (first : front.head? ≠ some 0) (other : front = [] → c ≠ 0) :
    (front ++ c :: rest).head? ≠ some 0 := by
  cases front with
  | nil => simpa using other rfl
  | cons byte front => simpa using first

theorem incPrefix_ones (n m : Nat) :
    incPrefix (List.replicate n 0 ++ List.replicate m 255) = none := by
  have next : decode (List.replicate m 255) + 1 = decode (1 :: List.replicate m 0) := by
    rw [decode_ones_succ, decode_cons, decode_zeros, List.length_replicate]
    simp
  have bytes : shortest (decode (1 :: List.replicate m 0)) = 1 :: List.replicate m 0 :=
    shortest_decode (by simp)
  rw [incPrefix, trim_zeros n (head_ones m), next, bytes]
  simp

theorem incPrefix_raise {front : Bytes} {c : Fin 256} (room : c ≠ 255) (m : Nat)
    (kept : ∃ byte ∈ front ++ [c], byte ≠ 0) :
    incPrefix (front ++ c :: List.replicate m 255) =
      some (front ++ (c + 1) :: List.replicate m 0) := by
  -- take the zeroes in front off
  generalize trimmed : trimLeftZeroes front = rest
  have first : rest.head? ≠ some 0 := trimmed ▸ head_trim front
  have split := trim_eq front
  rw [trimmed] at split
  generalize front.length - rest.length = n at split
  subst split
  have nonzero : rest = [] → c ≠ 0 := by grind
  have raised : rest = [] → c + 1 ≠ 0 := by
    intro _ zero
    exact room (by omega)
  have bytes : shortest (decode (rest ++ (c + 1) :: List.replicate m 0)) =
      rest ++ (c + 1) :: List.replicate m 0 := shortest_decode (head_append first raised)
  rw [incPrefix, List.append_assoc, trim_zeros n (head_append first nonzero),
    decode_carry rest room, bytes]
  simp

theorem bytesPrefixLoop_ones (within : i ≤ m) :
    bytesPrefixLoop (List.replicate m 255) i = none := by
  induction i with
  | zero => rfl
  | succ i ih =>
    rw [bytesPrefixLoop, List.getElem?_replicate, if_pos (Nat.lt_of_succ_le within)]
    exact ih (Nat.le_of_succ_le within)

theorem bytesPrefix_ones (m : Nat) : bytesPrefix (List.replicate m 255) = none := by
  rw [bytesPrefix, List.length_replicate]
  exact bytesPrefixLoop_ones le_rfl

theorem bytesPrefixLoop_raise (room : c ≠ 255) (within : i ≤ m) :
    bytesPrefixLoop (front ++ c :: List.replicate m 255) (front.length + 1 + i) =
      some (front ++ [c + 1]) := by
  induction i with
  | zero =>
    have less : c < 255 := by omega
    simp [bytesPrefixLoop, less]
  | succ i ih =>
    have one : (front ++ c :: List.replicate m 255)[front.length + 1 + i]? = some 255 := by grind
    rw [← Nat.add_assoc, bytesPrefixLoop, one]
    exact ih (Nat.le_of_succ_le within)

theorem bytesPrefix_raise (front : Bytes) (room : c ≠ 255) (m : Nat) :
    bytesPrefix (front ++ c :: List.replicate m 255) = some (front ++ [c + 1]) := by
  have long : (front ++ c :: List.replicate m 255).length = front.length + 1 + m := by
    simp
    omega
  rw [bytesPrefix, long]
  exact bytesPrefixLoop_raise room le_rfl

end Values

section Range

theorem ones_le_iff (m : Nat) (k : Bytes) :
    List.replicate m (255 : Fin 256) ≤ k ↔ List.replicate m 255 <+: k := by
  induction m generalizing k with
  | zero => exact ⟨fun _ => List.nil_prefix, fun _ => nil_le k⟩
  | succ m ih =>
    cases k with
    | nil => simp [List.replicate_succ]
    | cons byte rest =>
      have top : ¬ (255 : Fin 256) < byte := by omega
      rw [List.replicate_succ, cons_le_cons_iff, List.cons_prefix_cons, ih]
      simp [top]

theorem raise_range (front : Bytes) {c : Fin 256} (room : c ≠ 255) (m : Nat) (k : Bytes) :
    front ++ c :: List.replicate m 255 ≤ k ∧ k < front ++ [c + 1] ↔
      front ++ c :: List.replicate m 255 <+: k := by
  induction front generalizing k with
  | nil =>
    cases k with
    | nil => simp
    | cons byte rest =>
      have next : byte < c + 1 ↔ byte ≤ c := by grind
      rw [List.nil_append, List.nil_append, cons_le_cons_iff, List.cons_lt_cons_iff,
        List.cons_prefix_cons, ones_le_iff, next]
      constructor
      · rintro ⟨above | ⟨same, starts⟩, below | ⟨_, less⟩⟩
        · exact absurd below (not_le.mpr above)
        · exact absurd less (List.not_lt_nil rest)
        · exact ⟨same, starts⟩
        · exact absurd less (List.not_lt_nil rest)
      · rintro ⟨same, starts⟩
        exact ⟨.inr ⟨same, starts⟩, .inl same.ge⟩
  | cons first front ih =>
    cases k with
    | nil => simp
    | cons byte rest =>
      rw [List.cons_append, List.cons_append, cons_le_cons_iff, List.cons_lt_cons_iff,
        List.cons_prefix_cons, ← ih]
      grind

theorem bytesPrefix_range (pre k : Bytes) :
    pre ≤ k ∧ Below k (bytesPrefix pre) ↔ pre <+: k := by
  rcases split_last pre with ⟨m, rfl⟩ | ⟨front, c, m, room, rfl⟩
  · rw [bytesPrefix_ones, ones_le_iff]
    exact and_iff_left trivial
  · rw [bytesPrefix_raise front room]
    exact raise_range front room m k

end Range

theorem exact_of_eq {pre : Bytes} (same : incPrefix pre = bytesPrefix pre) : Exact pre := by
  constructor
  · intro k
    rw [same]
    exact bytesPrefix_range pre k
  · intro none_
    rcases split_last pre with ⟨m, rfl⟩ | ⟨front, c, m, room, rfl⟩
    · intro byte member
      exact List.eq_of_mem_replicate member
    · rw [same, bytesPrefix_raise front room] at none_
      cases none_
  · intro k
    rw [same]

/-- `incPrefix` is exact for the prefixes of bytes 255 and for those with a byte other than
zero whose last byte is not 255, and for no others. -/
theorem incPrefix_exact_iff (pre : Bytes) : Exact pre ↔ Raisable pre := by
  rcases split_last pre with ⟨m, rfl⟩ | ⟨front, c, m, room, rfl⟩
  · have same : incPrefix (List.replicate m 255) = bytesPrefix (List.replicate m 255) := by
      rw [bytesPrefix_ones]
      exact incPrefix_ones 0 m
    have ones : ∀ byte ∈ List.replicate m (255 : Fin 256), byte = 255 := fun byte member =>
      List.eq_of_mem_replicate member
    exact ⟨fun _ => .inl ones, fun _ => exact_of_eq same⟩
  · have notOnes : ¬ ∀ byte ∈ front ++ c :: List.replicate m 255, byte = 255 := fun ones =>
      room (ones c (by simp))
    by_cases kept : ∃ byte ∈ front ++ [c], byte ≠ 0
    · have bound := incPrefix_raise room m kept
      cases m with
      | zero =>
        -- nothing to carry
        have same : incPrefix (front ++ c :: List.replicate 0 255) =
            bytesPrefix (front ++ c :: List.replicate 0 255) := by
          rw [bound, bytesPrefix_raise front room]
          rfl
        exact ⟨fun _ => .inr ⟨by simpa using room, kept⟩, fun _ => exact_of_eq same⟩
      | succ m =>
        -- the key with the raised byte alone lies under the bound
        have gap : ¬ Exact (front ++ c :: List.replicate (m + 1) 255) := by
          intro exact_
          have next : c < c + 1 := by grind
          have starts := (exact_.range (front ++ [c + 1])).mp <| by
            rw [bound]
            constructor
            · exact (append_le_append_iff front).mpr (cons_le_cons_iff.mpr (.inl next))
            · refine (append_lt_append_iff front).mpr ?_
              rw [List.cons_lt_cons_iff]
              exact .inr ⟨rfl, by simp [List.replicate_succ]⟩
          rw [List.prefix_append_right_inj, List.cons_prefix_cons] at starts
          exact next.ne starts.1
        have stuck : ¬ Raisable (front ++ c :: List.replicate (m + 1) 255) := by
          rintro (ones | ⟨last, _⟩)
          · exact notOnes ones
          · exact last (getLast_ones front c m)
        exact ⟨fun exact_ => absurd exact_ gap, fun raisable => absurd raisable stuck⟩
    · push Not at kept
      have zeros : front = List.replicate front.length 0 :=
        List.eq_replicate_of_mem fun byte member => kept byte (List.mem_append_left _ member)
      have zero : c = 0 := kept c (by simp)
      have none_ : incPrefix (front ++ c :: List.replicate m 255) = none := by
        rw [zero, zeros, List.append_cons, ← List.replicate_succ']
        exact incPrefix_ones _ m
      constructor
      · intro exact_
        exact absurd (exact_.missing none_) notOnes
      · rintro (ones | ⟨last, byte, member, nonzero⟩)
        · exact absurd ones notOnes
        · -- the last byte is not 255, so that all bytes are zeroes
          cases m with
          | zero => exact absurd (kept byte member) nonzero
          | succ m => exact absurd (getLast_ones front c m) last

/-- A prefix that ends with 255, and one of zeroes only. -/
theorem incPrefix_loose : (incPrefix [1, 255] = some [2, 0] ∧ ([1, 255] : Bytes) ≤ [2] ∧
      Below [2] (incPrefix [1, 255]) ∧ ¬ ([1, 255] : Bytes) <+: [2] ∧
      bytesPrefix [1, 255] = some [2]) ∧
    incPrefix [0] = none ∧ bytesPrefix [0] = some [1] := by
  have carried : incPrefix [1, 255] = some [2, 0] :=
    @incPrefix_raise [] 1 (by decide) 1 ⟨1, by decide, by decide⟩
  have lost : incPrefix [0] = none := incPrefix_ones 1 0
  rw [carried, lost]
  exact ⟨⟨rfl, by decide, by decide, by decide, rfl⟩, rfl, rfl⟩

end Lachesis.Kvdb.Table
