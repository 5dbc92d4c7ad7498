import Mathlib

/-!
Numbers of a fixed width as byte strings, most significant byte first. Byte order is the order of the
numbers.
-/

namespace BigEndian

instance byte : NeZero 256 := ⟨by decide⟩

/-- The last `width` bytes of `n`. -/
def encode : (width n : Nat) → List (Fin 256)
  | 0, _ => []
  | width + 1, n => Fin.ofNat 256 (n / 256 ^ width) :: encode width n

def decode (bytes : List (Fin 256)) : Nat := bytes.foldl (fun known (byte : Fin 256) => known * 256 + byte.val) 0

@[simp] theorem length_encode (width n : Nat) : (encode width n).length = width := by
  induction width with
  | zero => rfl
  | succ width ih => rw [encode, List.length_cons, ih]

theorem foldl_eq (bytes : List (Fin 256)) (known : Nat) :
    bytes.foldl (fun known (byte : Fin 256) => known * 256 + byte.val) known =
      known * 256 ^ bytes.length + decode bytes := by
  induction bytes generalizing known with
  | nil => simp [decode]
  | cons byte rest ih =>
    rw [decode, List.foldl_cons, List.foldl_cons, ih, ih, List.length_cons, pow_succ]
    ring

theorem decode_cons (byte : Fin 256) (rest : List (Fin 256)) :
    decode (byte :: rest) = byte.val * 256 ^ rest.length + decode rest := by
  rw [decode, List.foldl_cons, foldl_eq, Nat.zero_mul, Nat.zero_add]

theorem decode_encode_mod (width n : Nat) : decode (encode width n) = n % 256 ^ width := by
  induction width with
  | zero => simp [encode, decode, Nat.mod_one]
  | succ width ih =>
    rw [encode, decode_cons, length_encode, ih, Nat.mod_pow_succ, Fin.val_ofNat]
    ring

theorem decode_encode {width n : Nat} (fits : n < 256 ^ width) : decode (encode width n) = n := by
  rw [decode_encode_mod, Nat.mod_eq_of_lt fits]

theorem encode_inj {width m n : Nat} (fitsM : m < 256 ^ width) (fitsN : n < 256 ^ width)
    (same : encode width m = encode width n) : m = n := by
  rw [← decode_encode fitsM, same, decode_encode fitsN]

theorem decode_append (high low : List (Fin 256)) :
    decode (high ++ low) = decode high * 256 ^ low.length + decode low := by
  rw [decode, List.foldl_append, foldl_eq]
  rfl

theorem decode_zeros (width : Nat) : decode (List.replicate width 0) = 0 := by
  induction width with
  | zero => rfl
  | succ width ih => simp [List.replicate_succ, decode_cons, ih]

theorem decode_ones_succ (width : Nat) : decode (List.replicate width 255) + 1 = 256 ^ width := by
  induction width with
  | zero => rfl
  | succ width ih =>
    rw [List.replicate_succ, decode_cons, List.length_replicate, Nat.add_assoc, ih, pow_succ,
      show ((255 : Fin 256) : Nat) = 255 from rfl]
    ring

theorem decode_carry (high : List (Fin 256)) {byte : Fin 256} (room : byte ≠ 255) (width : Nat) :
    decode (high ++ byte :: List.replicate width 255) + 1 =
      decode (high ++ (byte + 1) :: List.replicate width 0) := by
  have next : (byte + 1).val = byte.val + 1 := Fin.val_add_one_of_lt' (by omega)
  have ones := decode_ones_succ width
  rw [decode_append, decode_append, decode_cons, decode_cons, decode_zeros, next]
  simp only [List.length_cons, List.length_replicate]
  rw [Nat.add_assoc, Nat.add_assoc, ones]
  ring

/-- The bytes of a number without zeroes in front. -/
def shortest (n : Nat) : List (Fin 256) := (Nat.digits 256 n).reverse.map (Fin.ofNat 256)

theorem decode_eq_ofDigits (bytes : List (Fin 256)) :
    decode bytes = Nat.ofDigits 256 (bytes.reverse.map Fin.val) := by
  induction bytes with
  | nil => rfl
  | cons byte rest ih =>
    rw [decode_cons, ih, List.reverse_cons, List.map_append, Nat.ofDigits_append]
    simp
    ring

theorem shortest_decode {bytes : List (Fin 256)} (first : bytes.head? ≠ some 0) :
    shortest (decode bytes) = bytes := by
  have digits : Nat.digits 256 (decode bytes) = bytes.reverse.map Fin.val := by
    rw [decode_eq_ofDigits]
    apply Nat.digits_ofDigits 256 (by decide)
    · grind
    · intro some_ zero
      -- the last digit is the first byte
      cases bytes with
      | nil => exact some_ rfl
      | cons byte rest => simp_all
  rw [shortest, digits, ← List.map_reverse, List.reverse_reverse, List.map_map]
  simp [Function.comp_def]

end BigEndian
