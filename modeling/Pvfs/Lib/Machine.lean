import Mathlib.Algebra.Order.Field.Rat
import Mathlib.Data.Int.DivMod

/-! # Numbers of the machine

What a C program computes with, where it is not just a number: integers of a fixed width,
doubles, and the clock. -/

namespace Pvfs.Lib

variable {q : Int}

/-! ## Integers -/

/-- The value of an `int` that a wider integer is assigned to. -/
def toInt32 (x : Int) : Int := Int.bmod x (2 ^ 32)

theorem toInt32_of_lt (h0 : 0 ≤ q) (h : q < 2 ^ 31) : toInt32 q = q := by
  exact Int.bmod_eq_of_le (by omega) (by omega)

theorem toInt32_of_ge (h : 2 ^ 31 ≤ q) : toInt32 q ≤ q - 2 ^ 32 := by
  simp only [toInt32, Int.bmod_def]
  split <;> omega

/-! ## Doubles

A finite `double` is the rational number that it stands for, and an operation on doubles is the
exact operation followed by a rounding. -/

/-- The nearest integer, and of two the even one. -/
def roundEven (q : ℚ) : Int :=
  let rest := q - q.floor
  if rest < 1 / 2 ∨ rest = 1 / 2 ∧ q.floor % 2 = 0 then q.floor else q.floor + 1

/-- The greatest `k` with `2 ^ k ≤ |q|`, for `q ≠ 0`. -/
def log2 (q : ℚ) : Int :=
  let k : Int := (Nat.log2 q.num.natAbs : Int) - Nat.log2 q.den
  if |q| < 2 ^ k then k - 1 else k

/-- The double that a result is rounded to: 53 digits, but none below `2 ^ (-1074)`. -/
def toDouble (q : ℚ) : ℚ :=
  let unit : ℚ := 2 ^ max (log2 q - 52) (-1074)
  roundEven (q / unit) * unit

/-! ## Readings of the clock -/

/-- `struct timeval`. -/
structure Timeval where
  sec : Nat
  usec : Nat
deriving DecidableEq, Repr

/-- `t` is later than `u`, as comparisons of the two fields have it. -/
def Timeval.after (t u : Timeval) : Bool :=
  t.sec > u.sec || (t.sec = u.sec && t.usec > u.usec)

/-- The moment in microseconds. -/
def micros (t : Timeval) : Nat := t.sec * 1000000 + t.usec

end Pvfs.Lib
