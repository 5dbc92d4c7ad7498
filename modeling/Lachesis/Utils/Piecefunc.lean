import Mathlib

/-!
`utils/piecefunc`: piecewise linear functions over `uint64` with ratios in millionths. The two terms
of the interpolation are rounded down apart, so that a unit may be lost between two dots.
-/

namespace Lachesis.Piecefunc

structure Dot where
  x : Nat
  y : Nat
  deriving DecidableEq

structure Func where
  dots : List Dot
  deriving DecidableEq

inductive Panic where
  /-- "too few dots" -/
  | tooFewDots
  /-- "non monotonic X" -/
  | nonMonotonicX
  /-- "too large Y" -/
  | tooLargeY
  /-- "too large X" -/
  | tooLargeX
  | indexOutOfRange
  | divideByZero
  deriving DecidableEq

def decimalUnit : Nat := 1000000

def maxVal : Nat := (2 ^ 64 - 1) / decimalUnit - 1

def checkDots : Nat → Nat → List Dot → Except Panic Unit
  | _, _, [] => .ok ()
  | i, prevX, dot :: rest =>
    if 1 ≤ i ∧ dot.x ≤ prevX then .error .nonMonotonicX
    else if maxVal < dot.y then .error .tooLargeY
    else if maxVal < dot.x then .error .tooLargeX
    else checkDots (i + 1) dot.x rest

def newFunc (dots : List Dot) : Except Panic Func :=
  if dots.length < 2 then .error .tooFewDots
  else do
    checkDots 0 0 dots
    pure { dots }

def sub64 (a b : Nat) : Nat := (a + 2 ^ 64 - b) % 2 ^ 64

def mul (a b : Nat) : Nat := a * b % 2 ^ 64 / decimalUnit

def div (a b : Nat) : Except Panic Nat :=
  if b = 0 then .error .divideByZero else .ok (a * decimalUnit % 2 ^ 64 / b)

def findPiece (x len : Nat) : Nat → List Dot → Nat
  | _, [] => len - 2
  | i, piece :: rest =>
    if 1 ≤ i ∧ i < len - 1 ∧ x < piece.x then i - 1 else findPiece x len (i + 1) rest

def interpolate (d0 d1 : Dot) (x : Nat) : Except Panic Nat := do
  let ratio ← div (sub64 x d0.x) (sub64 d1.x d0.x)
  pure ((mul d0.y (sub64 decimalUnit ratio) + mul d1.y ratio) % 2 ^ 64)

def Func.piece (f : Func) (x : Nat) : Option (Dot × Dot) :=
  let p0 := findPiece x f.dots.length 0 f.dots
  match f.dots[p0]?, f.dots[p0 + 1]? with
  | some d0, some d1 => some (d0, d1)
  | _, _ => none

def Func.get (f : Func) (x : Nat) : Except Panic Nat :=
  match f.dots.head?, f.dots.getLast? with
  | some first, some last =>
    if x < first.x then .ok first.y
    else if last.x < x then .ok last.y
    else match f.piece x with
      | some (d0, d1) => interpolate d0 d1 x
      | none => .error .indexOutOfRange
  | _, _ => .error .indexOutOfRange

section Piece

variable {d0 d1 : Dot} {x x' : Nat}

def ratio (d0 d1 : Dot) (x : Nat) : Nat := (x - d0.x) * decimalUnit / (d1.x - d0.x)

/-- No operation between two dots leaves the 64 bits, and the divisor is not zero. -/
structure Exact (d0 d1 : Dot) (x : Nat) : Prop where
  start : d0.x ≤ x
  width : d0.x < d1.x
  scaled : (x - d0.x) * decimalUnit < 2 ^ 64
  ratio : ratio d0 d1 x ≤ decimalUnit
  left : d0.y * (decimalUnit - Piecefunc.ratio d0 d1 x) < 2 ^ 64
  right : d1.y * Piecefunc.ratio d0 d1 x < 2 ^ 64
  sum : d0.y * (decimalUnit - Piecefunc.ratio d0 d1 x) / decimalUnit +
    d1.y * Piecefunc.ratio d0 d1 x / decimalUnit < 2 ^ 64

/-- What is read between two dots, if nothing overflows. -/
def value (d0 d1 : Dot) (x : Nat) : Nat :=
  d0.y * (decimalUnit - ratio d0 d1 x) / decimalUnit + d1.y * ratio d0 d1 x / decimalUnit

structure Spans (d0 d1 : Dot) (x : Nat) : Prop where
  width : d0.x < d1.x
  start : d0.x ≤ x
  stop : x ≤ d1.x
  end_le : d1.x ≤ maxVal
  left_le : d0.y ≤ maxVal
  right_le : d1.y ≤ maxVal

theorem Spans.ratio_le (spans : Spans d0 d1 x) : ratio d0 d1 x ≤ decimalUnit := by
  apply Nat.div_le_of_le_mul
  apply Nat.mul_le_mul_right
  have stop := spans.stop
  omega

theorem ratio_mono (le : x ≤ x') : ratio d0 d1 x ≤ ratio d0 d1 x' := by
  unfold ratio
  gcongr

theorem Spans.value_between (spans : Spans d0 d1 x) :
    min d0.y d1.y ≤ value d0 d1 x + 1 ∧ value d0 d1 x ≤ max d0.y d1.y := by
  have split : ∀ c, c * decimalUnit =
      c * (decimalUnit - ratio d0 d1 x) + c * ratio d0 d1 x := by
    intro c
    rw [← Nat.mul_add, Nat.sub_add_cancel spans.ratio_le]
  have low := split (min d0.y d1.y)
  have high := split (max d0.y d1.y)
  have left := Nat.mul_le_mul_right (decimalUnit - ratio d0 d1 x) (Nat.min_le_left d0.y d1.y)
  have right := Nat.mul_le_mul_right (ratio d0 d1 x) (Nat.min_le_right d0.y d1.y)
  have left' := Nat.mul_le_mul_right (decimalUnit - ratio d0 d1 x) (Nat.le_max_left d0.y d1.y)
  have right' := Nat.mul_le_mul_right (ratio d0 d1 x) (Nat.le_max_right d0.y d1.y)
  rw [value]
  generalize d0.y * (decimalUnit - ratio d0 d1 x) = a at *
  generalize d1.y * ratio d0 d1 x = b at *
  unfold decimalUnit at *
  omega

/-- A multiple of the unit lies between the values of the two dots. -/
def UnitBetween (d0 d1 : Dot) : Prop := d0.y ≤ d1.y / decimalUnit * decimalUnit

instance : DecidableRel UnitBetween := fun _ _ => inferInstanceAs (Decidable (_ ≤ _))

theorem Spans.value_mono (spans' : Spans d0 d1 x') (le : x ≤ x') (between : UnitBetween d0 d1) :
    value d0 d1 x ≤ value d0 d1 x' := by
  have more : ratio d0 d1 x ≤ ratio d0 d1 x' := ratio_mono le
  have small := spans'.ratio_le
  have unit : 0 < decimalUnit := by decide
  unfold value
  generalize ratio d0 d1 x = r at *
  generalize ratio d0 d1 x' = r' at *
  obtain ⟨gap, rfl⟩ := Nat.exists_eq_add_of_le more
  obtain ⟨rest, full⟩ := Nat.exists_eq_add_of_le small
  rw [show decimalUnit - r = rest + gap by omega, show decimalUnit - (r + gap) = rest by omega]
  -- the falling term falls by no more than the multiple does, the rising one rises by as much
  have falls : d0.y * (rest + gap) / decimalUnit ≤
      d0.y * rest / decimalUnit + d1.y / decimalUnit * gap := by
    rw [← Nat.add_mul_div_right _ _ unit]
    refine Nat.div_le_div_right ?_
    calc d0.y * (rest + gap) = d0.y * rest + d0.y * gap := Nat.mul_add ..
      _ ≤ d0.y * rest + d1.y / decimalUnit * decimalUnit * gap := by gcongr; exact between
      _ = _ := by ring
  have rises : d1.y * r / decimalUnit + d1.y / decimalUnit * gap ≤
      d1.y * (r + gap) / decimalUnit := by
    rw [← Nat.add_mul_div_right _ _ unit]
    refine Nat.div_le_div_right ?_
    calc d1.y * r + d1.y / decimalUnit * gap * decimalUnit
        = d1.y * r + d1.y / decimalUnit * decimalUnit * gap := by ring
      _ ≤ d1.y * r + d1.y * gap := by gcongr; exact Nat.div_mul_le_self ..
      _ = _ := (Nat.mul_add ..).symm
  omega

theorem Spans.exact (spans : Spans d0 d1 x) : Exact d0 d1 x := by
  have small := spans.ratio_le
  have fits : ∀ {y r : Nat}, y ≤ maxVal → r ≤ decimalUnit → y * r < 2 ^ 64 := by
    intro y r yLe rLe
    exact (Nat.mul_le_mul yLe rLe).trans_lt (by decide)
  have below : value d0 d1 x < 2 ^ 64 := by
    have high : maxVal < 2 ^ 64 := by decide
    have between := spans.value_between.2
    have left := spans.left_le
    have right := spans.right_le
    omega
  have extent : x - d0.x ≤ maxVal := (Nat.sub_le ..).trans (spans.stop.trans spans.end_le)
  exact ⟨spans.start, spans.width, fits extent le_rfl, small, fits spans.left_le (Nat.sub_le ..),
    fits spans.right_le small, below⟩

theorem Spans.interpolate (spans : Spans d0 d1 x) :
    interpolate d0 d1 x = .ok (value d0 d1 x) := by
  have exact := spans.exact
  have sub : ∀ {a b : Nat}, b ≤ a → a < 2 ^ 64 → sub64 a b = a - b := by
    intro a b le fits
    unfold sub64
    omega
  have high : maxVal < 2 ^ 64 := by decide
  have unit : decimalUnit < 2 ^ 64 := by decide
  have stop := spans.end_le
  have width := exact.width
  rw [Piecefunc.interpolate, sub exact.start (by have := spans.stop; omega),
    sub width.le (by omega), div, if_neg (by omega), Nat.mod_eq_of_lt exact.scaled]
  change Except.ok ((mul d0.y (sub64 decimalUnit (ratio d0 d1 x)) +
    mul d1.y (ratio d0 d1 x)) % 2 ^ 64) = _
  rw [sub exact.ratio unit, mul, mul, Nat.mod_eq_of_lt exact.left, Nat.mod_eq_of_lt exact.right,
    Nat.mod_eq_of_lt exact.sum]
  rfl

theorem Spans.at_end (spans : Spans d0 d1 x) {dot : Dot} (same : x = dot.x)
    (either : dot = d0 ∨ dot = d1) : value d0 d1 x = dot.y := by
  have unit : 0 < decimalUnit := by decide
  rcases either with rfl | rfl
  · have zero : ratio dot d1 x = 0 := by
      rw [ratio, same, Nat.sub_self, Nat.zero_mul, Nat.zero_div]
    rw [value, zero, Nat.mul_zero, Nat.zero_div, Nat.sub_zero, Nat.mul_div_cancel _ unit, Nat.add_zero]
  · have one : ratio d0 dot x = decimalUnit := by
      rw [ratio, same, Nat.mul_div_cancel_left _ (Nat.sub_pos_of_lt spans.width)]
    rw [value, one, Nat.sub_self, Nat.mul_zero, Nat.zero_div, Nat.mul_div_cancel _ unit, Nat.zero_add]

/-- Without such a multiple the first millionth of the way costs a unit. -/
theorem exists_value_lt (wide : decimalUnit < 2 * (d1.x - d0.x)) (rising : d0.y ≤ d1.y)
    (apart : ¬ UnitBetween d0 d1) : ∃ x, d0.x ≤ x ∧ x ≤ d1.x ∧ value d0 d1 x < d0.y := by
  unfold UnitBetween at apart
  generalize width : d1.x - d0.x = w at wide
  have one : ratio d0 d1 (d0.x + (w + decimalUnit - 1) / decimalUnit) = 1 := by
    rw [ratio, width, Nat.add_sub_cancel_left, Nat.div_eq_iff (by omega)]
    unfold decimalUnit at *
    omega
  refine ⟨d0.x + (w + decimalUnit - 1) / decimalUnit, Nat.le_add_right .., ?_, ?_⟩
  · unfold decimalUnit at *
    omega
  · rw [value, one]
    unfold decimalUnit at *
    omega

end Piece

structure Accepted (dots : List Dot) : Prop where
  long : 2 ≤ dots.length
  ascending : dots.Pairwise fun a b => a.x < b.x
  limits : ∀ dot ∈ dots, dot.x ≤ maxVal ∧ dot.y ≤ maxVal

variable {dots : List Dot} {f : Func}

theorem checkDots_ok {i prevX : Nat} (passed : checkDots i prevX dots = .ok ()) :
    (1 ≤ i → ∀ dot ∈ dots, prevX < dot.x) ∧ dots.Pairwise (fun a b => a.x < b.x) ∧
      ∀ dot ∈ dots, dot.x ≤ maxVal ∧ dot.y ≤ maxVal := by
  induction dots generalizing i prevX with
  | nil => simp
  | cons dot rest ih =>
    simp only [checkDots] at passed
    split_ifs at passed with first yLe xLe
    obtain ⟨above, ascending, limits⟩ := ih passed
    have later := above (Nat.le_add_left 1 i)
    refine ⟨?_, List.pairwise_cons.mpr ⟨later, ascending⟩, ?_⟩
    · grind
    · simp only [List.forall_mem_cons]
      exact ⟨⟨by omega, by omega⟩, limits⟩

theorem newFunc_ok (accepted : newFunc dots = .ok f) : f.dots = dots ∧ Accepted f.dots := by
  simp only [newFunc] at accepted
  split_ifs at accepted with short
  rcases checked : checkDots 0 0 dots with panic | _
  · rw [checked] at accepted
    cases accepted
  · rw [checked] at accepted
    cases accepted
    obtain ⟨_, ascending, limits⟩ := checkDots_ok checked
    exact ⟨rfl, Nat.le_of_not_lt short, ascending, limits⟩

section Search

variable {f : Func} {x x' i j : Nat} {a b d0 d1 dot : Dot}

theorem findPiece_spec {dots : List Dot} (long : 2 ≤ dots.length)
    (last : ∀ dot ∈ dots[dots.length - 1]?, x ≤ dot.x) (head : ∀ dot ∈ dots[0]?, dot.x ≤ x)
    (passed : ∀ k < i, k < dots.length - 1 → ∀ dot ∈ dots[k]?, dot.x ≤ x)
    (bound : i ≤ dots.length) :
    let p0 := findPiece x dots.length i (dots.drop i)
    p0 + 1 < dots.length ∧ (∀ dot ∈ dots[p0]?, dot.x ≤ x) ∧ ∀ dot ∈ dots[p0 + 1]?, x ≤ dot.x := by
  -- The dots before index `i`, the last one apart, are not past `x`.
  generalize left : dots.drop i = rest
  induction rest generalizing i with
  | nil =>
    have ended : dots.length ≤ i := List.drop_eq_nil_iff.mp left
    simp only [findPiece, show dots.length - 2 + 1 = dots.length - 1 by omega]
    exact ⟨by omega, passed (dots.length - 2) (by omega) (by omega), last⟩
  | cons piece rest ih =>
    have here : dots[i]? = some piece := by rw [← List.head?_drop, left, List.head?_cons]
    have inside : i < dots.length := (List.getElem?_eq_some_iff.mp here).1
    simp only [findPiece]
    split
    · rename_i hit
      refine ⟨by omega, passed (i - 1) (by omega) (by omega), ?_⟩
      rw [show i - 1 + 1 = i by omega, here]
      rintro dot ⟨⟩
      exact hit.2.2.le
    · rename_i miss
      refine ih ?_ inside (by rw [← List.tail_drop, left, List.tail_cons])
      intro k before inner dot found
      rcases Nat.lt_or_eq_of_le (Nat.le_of_lt_succ before) with old | rfl
      · exact passed k old inner dot found
      · grind

theorem Accepted.x_lt (good : Accepted f.dots) (atI : f.dots[i]? = some a)
    (atJ : f.dots[j]? = some b) (less : i < j) : a.x < b.x := by
  obtain ⟨_, rfl⟩ := List.getElem?_eq_some_iff.mp atI
  obtain ⟨_, rfl⟩ := List.getElem?_eq_some_iff.mp atJ
  exact List.pairwise_iff_getElem.mp good.ascending i j _ _ less

theorem Accepted.index_le (good : Accepted f.dots) (atI : f.dots[i]? = some a)
    (atJ : f.dots[j]? = some b) (le : a.x ≤ b.x) : i ≤ j :=
  Nat.le_of_not_lt fun after => absurd (good.x_lt atJ atI after) (Nat.not_lt.mpr le)

structure Located (f : Func) (x j : Nat) (d0 d1 : Dot) : Prop where
  found : f.piece x = some (d0, d1)
  left : f.dots[j]? = some d0
  right : f.dots[j + 1]? = some d1
  spans : Spans d0 d1 x

theorem Accepted.ends (good : Accepted f.dots) : ∃ first last, f.dots.head? = some first ∧
    f.dots.getLast? = some last ∧ ∀ dot ∈ f.dots, first.x ≤ dot.x ∧ dot.x ≤ last.x := by
  have long := good.long
  have nonempty : f.dots ≠ [] := List.ne_nil_of_length_pos (by omega)
  have head := List.head?_eq_some_head nonempty
  have tail := List.getLast?_eq_some_getLast nonempty
  refine ⟨_, _, head, tail, ?_⟩
  rw [List.head?_eq_getElem?] at head
  rw [List.getLast?_eq_getElem?] at tail
  intro dot member
  obtain ⟨i, found⟩ := List.mem_iff_getElem?.mp member
  have inside := (List.getElem?_eq_some_iff.mp found).1
  constructor <;> by_contra out
  · have := good.index_le found head (by omega)
    cases (show i = 0 by omega)
    cases head.symm.trans found
    exact out le_rfl
  · have := good.index_le tail found (by omega)
    cases (show i = f.dots.length - 1 by omega)
    cases tail.symm.trans found
    exact out le_rfl

theorem Accepted.located (good : Accepted f.dots) (start : ∀ dot ∈ f.dots.head?, dot.x ≤ x)
    (stop : ∀ dot ∈ f.dots.getLast?, x ≤ dot.x) : ∃ j d0 d1, Located f x j d0 d1 := by
  rw [List.getLast?_eq_getElem?] at stop
  rw [List.head?_eq_getElem?] at start
  have spec := findPiece_spec (i := 0) good.long stop start (by omega) (by omega)
  rw [List.drop_zero] at spec
  obtain ⟨inside, lower, upper⟩ := spec
  obtain ⟨d0, left⟩ : ∃ d0, f.dots[findPiece x f.dots.length 0 f.dots]? = some d0 :=
    ⟨_, List.getElem?_eq_getElem (by omega)⟩
  obtain ⟨d1, right⟩ : ∃ d1, f.dots[findPiece x f.dots.length 0 f.dots + 1]? = some d1 :=
    ⟨_, List.getElem?_eq_getElem inside⟩
  have limits := good.limits d1 (List.mem_of_getElem? right)
  refine ⟨_, d0, d1, by simp only [Func.piece, left, right], left, right, ?_⟩
  exact ⟨good.x_lt left right (by omega), lower _ left, upper _ right, limits.1,
    (good.limits d0 (List.mem_of_getElem? left)).2, limits.2⟩

theorem Located.at_dot (located : Located f dot.x j d0 d1) (good : Accepted f.dots)
    (member : dot ∈ f.dots) : value d0 d1 dot.x = dot.y := by
  obtain ⟨i, found⟩ := List.mem_iff_getElem?.mp member
  apply located.spans.at_end rfl
  have after := good.index_le located.left found located.spans.start
  have before := good.index_le found located.right located.spans.stop
  rcases (by omega : i = j ∨ i = j + 1) with rfl | rfl
  · exact .inl (Option.some.inj (found.symm.trans located.left))
  · exact .inr (Option.some.inj (found.symm.trans located.right))

end Search

def Func.clamp (f : Func) (x : Nat) : Nat :=
  match f.dots.head?, f.dots.getLast? with
  | some first, some last => if x < first.x then first.x else if last.x < x then last.x else x
  | _, _ => x

section Get

variable {f : Func} {x x' y i j : Nat} {a b d0 d1 dot : Dot}

theorem Accepted.get (good : Accepted f.dots) (x : Nat) : ∃ j d0 d1,
    Located f (f.clamp x) j d0 d1 ∧ f.get x = .ok (value d0 d1 (f.clamp x)) := by
  obtain ⟨first, last, head, tail, range⟩ := good.ends
  have ordered := (range last (List.mem_of_getLast? tail)).1
  obtain ⟨j, d0, d1, located⟩ : ∃ j d0 d1, Located f (f.clamp x) j d0 d1 := by
    apply good.located <;> simp only [head, tail, Func.clamp] <;> rintro dot ⟨⟩ <;>
      split_ifs <;> omega
  refine ⟨j, d0, d1, located, ?_⟩
  -- Outside the range the clamped input is the end's own dot.
  have outside : ∀ dot ∈ f.dots, f.clamp x = dot.x → f.get x = .ok dot.y →
      f.get x = .ok (value d0 d1 (f.clamp x)) := by
    intro dot member same value
    rw [same] at located ⊢
    rw [value, located.at_dot good member]
  by_cases below : x < first.x
  · exact outside first (List.mem_of_mem_head? head)
      (by simp [Func.clamp, head, tail, below]) (by simp [Func.get, head, tail, below])
  by_cases above : last.x < x
  · exact outside last (List.mem_of_getLast? tail)
      (by simp [Func.clamp, head, tail, below, above])
      (by simp [Func.get, head, tail, below, above])
  have same : f.clamp x = x := by simp [Func.clamp, head, tail, below, above]
  rw [same] at located ⊢
  simp [Func.get, head, tail, below, above, located.found, located.spans.interpolate]

theorem Accepted.clamp_inside (good : Accepted f.dots) (left : a ∈ f.dots) (right : b ∈ f.dots)
    (start : a.x ≤ x) (stop : x ≤ b.x) : f.clamp x = x := by
  obtain ⟨first, last, head, tail, range⟩ := good.ends
  have lower := (range a left).1
  have upper := (range b right).2
  simp only [Func.clamp, head, tail]
  rw [if_neg (by omega), if_neg (by omega)]

theorem Accepted.get_dot (good : Accepted f.dots) (member : dot ∈ f.dots) :
    f.get dot.x = .ok dot.y := by
  obtain ⟨j, d0, d1, located, value⟩ := good.get dot.x
  rw [good.clamp_inside member member le_rfl le_rfl] at located value
  rw [value, located.at_dot good member]

/-- Between two neighbouring dots `Get` reads their interpolation. -/
theorem Accepted.get_piece (good : Accepted f.dots) (left : f.dots[i]? = some d0)
    (right : f.dots[i + 1]? = some d1) (start : d0.x ≤ x) (stop : x ≤ d1.x) :
    Spans d0 d1 x ∧ f.get x = .ok (value d0 d1 x) := by
  have inL := List.mem_of_getElem? left
  have inR := List.mem_of_getElem? right
  have spans : Spans d0 d1 x := ⟨good.x_lt left right i.lt_succ_self, start, stop,
    (good.limits d1 inR).1, (good.limits d0 inL).2, (good.limits d1 inR).2⟩
  refine ⟨spans, ?_⟩
  obtain ⟨j, e0, e1, located, value⟩ := good.get x
  rw [good.clamp_inside inL inR start stop] at located value
  have before := good.index_le left located.right (start.trans located.spans.stop)
  have after := good.index_le located.left right (located.spans.start.trans stop)
  rcases (by omega : j = i ∨ j = i + 1 ∨ i = j + 1) with rfl | rfl | rfl
  · cases left.symm.trans located.left
    cases right.symm.trans located.right
    exact value
  · -- The next piece was found, so `x` is the dot they share.
    cases right.symm.trans located.left
    cases Nat.le_antisymm stop located.spans.start
    rw [good.get_dot inR, spans.at_end rfl (.inr rfl)]
  · cases left.symm.trans located.right
    cases Nat.le_antisymm located.spans.stop start
    rw [good.get_dot inL, spans.at_end rfl (.inl rfl)]

theorem Accepted.clamp_mono (good : Accepted f.dots) (le : x ≤ x') : f.clamp x ≤ f.clamp x' := by
  obtain ⟨first, last, head, tail, range⟩ := good.ends
  have ordered := (range last (List.mem_of_getLast? tail)).1
  simp only [Func.clamp, head, tail]
  split_ifs <;> omega

theorem Accepted.get_mono (good : Accepted f.dots) (units : f.dots.IsChain UnitBetween)
    (le : x ≤ x') {y' : Nat} (value : f.get x = .ok y) (value' : f.get x' = .ok y') : y ≤ y' := by
  have between : ∀ {i : Nat} {a b : Dot}, f.dots[i]? = some a → f.dots[i + 1]? = some b →
      UnitBetween a b := by
    intro i a b atI next
    obtain ⟨_, rfl⟩ := List.getElem?_eq_some_iff.mp atI
    obtain ⟨_, rfl⟩ := List.getElem?_eq_some_iff.mp next
    exact List.isChain_iff_getElem.mp units i _
  have order : ∀ {i k : Nat} {a b : Dot}, f.dots[i]? = some a → f.dots[k]? = some b → i ≤ k →
      a.y ≤ b.y := by
    intro i k a b atI atK le
    induction k, le using Nat.le_induction generalizing b with
    | base =>
      cases atI.symm.trans atK
      exact le_rfl
    | succ k _ ih =>
      obtain ⟨c, atC⟩ : ∃ c, f.dots[k]? = some c :=
        ⟨_, List.getElem?_eq_getElem (by have := (List.getElem?_eq_some_iff.mp atK).1; omega)⟩
      exact (ih atC).trans ((between atC atK).trans (Nat.div_mul_le_self ..))
  obtain ⟨j, d0, d1, located, is⟩ := good.get x
  obtain ⟨j', d0', d1', located', is'⟩ := good.get x'
  cases value.symm.trans is
  cases value'.symm.trans is'
  have clamps := good.clamp_mono le
  have within : ∀ {z j : Nat} {a b : Dot}, Located f z j a b →
      a.y ≤ Piecefunc.value a b z ∧ Piecefunc.value a b z ≤ b.y := by
    intro z j a b located
    have spans := located.spans
    have rises := between located.left located.right
    have start : Spans a b a.x := { spans with start := le_rfl, stop := spans.width.le }
    have stop : Spans a b b.x := { spans with start := spans.width.le, stop := le_rfl }
    have low := spans.value_mono spans.start rises
    have high := stop.value_mono spans.stop rises
    rw [start.at_end rfl (.inl rfl)] at low
    rw [stop.at_end rfl (.inr rfl)] at high
    exact ⟨low, high⟩
  have before := good.index_le located.left located'.right
    (located.spans.start.trans (clamps.trans located'.spans.stop))
  rcases (by omega : j + 1 ≤ j' ∨ j = j' ∨ j = j' + 1) with gap | rfl | rfl
  · exact (within located).2.trans ((order located.right located'.left gap).trans (within located').1)
  · cases located.left.symm.trans located'.left
    cases located.right.symm.trans located'.right
    exact located'.spans.value_mono clamps (between located.left located.right)
  · -- Both inputs are the dot that the two pieces share.
    cases located.left.symm.trans located'.right
    have same := Nat.le_antisymm located'.spans.stop (located.spans.start.trans clamps)
    have here := Nat.le_antisymm (clamps.trans located'.spans.stop) located.spans.start
    rw [located.spans.at_end here (.inl rfl), located'.spans.at_end same (.inr rfl)]

end Get

/-- Every list that `NewFunc` accepts makes a function that stays between the values of its dots, one
unit below them at most. -/
theorem get_in_range {dots : List Dot} {f : Func} (accepted : newFunc dots = .ok f) :
    (∀ x, ∃ y, f.get x = .ok y) ∧
    (∀ first ∈ dots.head?, ∀ last ∈ dots.getLast?, ∀ x, first.x ≤ x → x ≤ last.x →
      ∃ d0 d1, f.piece x = some (d0, d1) ∧ Exact d0 d1 x) ∧
    (∀ dot ∈ dots, f.get dot.x = .ok dot.y) ∧
    (∀ first ∈ dots.head?, ∀ x, x < first.x → f.get x = .ok first.y) ∧
    (∀ last ∈ dots.getLast?, ∀ x, last.x < x → f.get x = .ok last.y) ∧
    ∀ i d0 d1, dots[i]? = some d0 → dots[i + 1]? = some d1 → ∀ x y, d0.x ≤ x → x ≤ d1.x →
      f.get x = .ok y → min d0.y d1.y ≤ y + 1 ∧ y ≤ max d0.y d1.y := by
  obtain ⟨rfl, good⟩ := newFunc_ok accepted
  obtain ⟨first, last, head, tail, range⟩ := good.ends
  simp only [head, tail, Option.mem_some_iff, forall_eq']
  have ordered := (range last (List.mem_of_getLast? tail)).1
  refine ⟨?_, ?_, fun dot member => good.get_dot member, ?_, ?_, ?_⟩
  · intro x
    obtain ⟨_, _, _, _, value⟩ := good.get x
    exact ⟨_, value⟩
  · intro x start stop
    obtain ⟨_, d0, d1, located⟩ := good.located (by simpa [head] using start)
      (by simpa [tail] using stop)
    exact ⟨d0, d1, located.found, located.spans.exact⟩
  · intro x below
    simp [Func.get, head, tail, below]
  · intro x above
    simp [Func.get, head, tail, above, Nat.not_lt.mpr (ordered.trans above.le)]
  · intro i d0 d1 left right x y start stop value
    obtain ⟨spans, is⟩ := good.get_piece left right start stop
    cases value.symm.trans is
    exact spans.value_between

def steps : List Dot := [⟨0, 10⟩, ⟨4, 30⟩, ⟨8, 20⟩]

theorem get_in_range_steps : newFunc steps = .ok ⟨steps⟩ ∧ (Func.mk steps).get 4 = .ok 30 := by
  have accepted : newFunc steps = .ok ⟨steps⟩ := by decide
  exact ⟨accepted, (get_in_range accepted).2.2.1 ⟨4, 30⟩ (by decide)⟩

/-- Rising dots make a rising function, and level ones a constant, if a multiple of the unit lies
between every two neighbours; neighbours more than half a unit apart need it. -/
theorem get_rises {dots : List Dot} {f : Func} (accepted : newFunc dots = .ok f)
    (rising : dots.Pairwise fun a b => a.y ≤ b.y) :
    (dots.IsChain UnitBetween →
      (∀ x x' y y', x ≤ x' → f.get x = .ok y → f.get x' = .ok y' → y ≤ y') ∧
        ∀ c, (∀ dot ∈ dots, dot.y = c) → ∀ x, f.get x = .ok c) ∧
    ((∀ x x' y y', x ≤ x' → f.get x = .ok y → f.get x' = .ok y' → y ≤ y') →
      dots.IsChain fun d0 d1 => decimalUnit < 2 * (d1.x - d0.x) → UnitBetween d0 d1) := by
  obtain ⟨rfl, good⟩ := newFunc_ok accepted
  refine ⟨fun units => ⟨fun x x' y y' le => good.get_mono units le, fun c flat x => ?_⟩,
    fun mono => List.isChain_iff_getElem.mpr fun i inside wide => ?_⟩
  · -- `Get` stands between its values at two dots, which are the same
    obtain ⟨j, d0, d1, located, value⟩ := good.get x
    have inL := List.mem_of_getElem? located.left
    have inR := List.mem_of_getElem? located.right
    have spans := located.spans
    have here := (good.get_piece located.left located.right spans.start spans.stop).2
    have low := good.get_mono units spans.start (good.get_dot inL) here
    have high := good.get_mono units spans.stop here (good.get_dot inR)
    rw [flat d0 inL] at low
    rw [flat d1 inR] at high
    rw [value, Nat.le_antisymm high low]
  · by_contra apart
    have left : f.dots[i]? = some (f.dots[i]) := List.getElem?_eq_getElem (by omega)
    have right : f.dots[i + 1]? = some (f.dots[i + 1]) := List.getElem?_eq_getElem inside
    have up := List.pairwise_iff_getElem.mp rising i (i + 1) (by omega) inside i.lt_succ_self
    obtain ⟨x, start, stop, less⟩ := exists_value_lt wide up apart
    have falls := mono _ x _ _ start (good.get_dot (List.mem_of_getElem? left))
      (good.get_piece left right start stop).2
    omega

/-- Two dots of value one: halfway both terms are rounded to zero. -/
theorem level_dots_fall :
    let dots : List Dot := [⟨0, 1⟩, ⟨2, 1⟩]
    newFunc dots = .ok ⟨dots⟩ ∧ (Func.mk dots).get 0 = .ok 1 ∧ (Func.mk dots).get 1 = .ok 0 := by
  decide

theorem get_rises_slope :
    let dots : List Dot := [⟨0, 1500000⟩, ⟨700000, 2100000⟩, ⟨700002, 3000001⟩]
    dots.IsChain UnitBetween ∧ ∀ x x' y y', x ≤ x' → (Func.mk dots).get x = .ok y →
      (Func.mk dots).get x' = .ok y' → y ≤ y' := by
  intro dots
  have accepted : newFunc dots = .ok ⟨dots⟩ := by decide
  have units : dots.IsChain UnitBetween := by decide
  exact ⟨units, ((get_rises accepted (by decide)).1 units).1⟩

end Lachesis.Piecefunc
