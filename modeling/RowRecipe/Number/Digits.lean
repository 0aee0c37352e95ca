/-!
# Decimal digits and rounded quotients

Powers of ten, two and five, how many decimal digits a number has, how its trailing zeros are dropped, and the
two ways in which a quotient of natural numbers becomes a natural number. Decimal and binary numbers are
built on these.
-/

namespace RowRecipe

/-- A power of ten. -/
def pow10 (n : Nat) : Nat :=
  Nat.pow 10 n

/-- A power of two. -/
def pow2 (n : Nat) : Nat :=
  Nat.pow 2 n

/-- A power of five. -/
def pow5 (n : Nat) : Nat :=
  Nat.pow 5 n

theorem pow10_succ (n : Nat) : pow10 (n + 1) = pow10 n * 10 := rfl

/-- The number of decimal digits of `n`; zero has one. -/
def digitCount (n : Nat) : Nat :=
  if n < 10 then 1 else digitCount (n / 10) + 1

theorem pow10_pos (n : Nat) : 0 < pow10 n := by
  induction n with
  | zero => decide
  | succ n ih => rw [pow10_succ]; omega

theorem pow10_add (m n : Nat) : pow10 (m + n) = pow10 m * pow10 n := by
  induction n with
  | zero => rw [Nat.add_zero]; exact (Nat.mul_one _).symm
  | succ n ih => rw [← Nat.add_assoc, pow10_succ, pow10_succ, ih, Nat.mul_assoc]

theorem lt_pow10_digitCount (n : Nat) : n < pow10 (digitCount n) := by
  fun_induction digitCount n with
  | case1 n h => exact h
  | case2 n h ih => rw [pow10_succ]; omega

/-- The natural number nearest to `num / den`; a tie goes to the even neighbour. -/
def roundHalfEven (num den : Nat) : Nat :=
  let q := num / den
  let r := num % den
  if 2 * r < den then q
  else if 2 * r = den then q + q % 2
  else q + 1

/-- The natural number nearest to `num / den`; a tie goes up. -/
def roundHalfUp (num den : Nat) : Nat :=
  (2 * num + den) / (2 * den)

/-- Divides by ten as long as the last digit is zero, at most `room` times. Returns what is left and
how many zeros were dropped. -/
def dropZeros (n : Nat) : (room : Nat) → Nat × Nat
  | 0 => (n, 0)
  | room + 1 =>
    if n % 10 = 0 then
      let r := dropZeros (n / 10) room
      (r.1, r.2 + 1)
    else (n, 0)

theorem dropZeros_mul_pow (n room : Nat) :
    (dropZeros n room).1 * pow10 (dropZeros n room).2 = n := by
  induction room generalizing n with
  | zero => simp [dropZeros, pow10]
  | succ room ih =>
    by_cases h : n % 10 = 0
    · simp only [dropZeros, h, ↓reduceIte, pow10_succ, ← Nat.mul_assoc, ih]
      omega
    · simp [dropZeros, h, pow10]

end RowRecipe
