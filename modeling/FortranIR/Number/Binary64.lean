/-
  This file defines binary64 numbers by their bits, with the
  arithmetic and the comparisons that constant folding needs.

  Numbers are kept as bits, so two of them are equal exactly
  when they are the same datum: zeros of different sign and NaNs
  of different payload stay apart.

  Main declarations:
    * `Binary64`
    * `Binary64.add`, `Binary64.sub`, `Binary64.mul`,
      `Binary64.div`
-/

namespace FortranIR

attribute [local instance (10000)] instPowNat

structure Binary64 where
  bits : UInt64
deriving DecidableEq, Repr

namespace Binary64

variable (x : Binary64)

----
-- Fields
----

def exponentField : Nat := ((x.bits >>> 52) &&& 0x7FF).toNat

/- The 52 stored bits of the significand. -/
def fraction : Nat := (x.bits &&& 0xFFFFFFFFFFFFF).toNat

def isNegative : Bool := x.bits >>> 63 == 1

def IsNaN : Prop := x.exponentField = 0x7FF ∧ x.fraction ≠ 0

instance (x : Binary64) : Decidable x.IsNaN := by
  unfold IsNaN
  infer_instance

def IsFinite : Prop := x.exponentField ≠ 0x7FF

instance (x : Binary64) : Decidable x.IsFinite := by
  unfold IsFinite
  infer_instance

def negate : Binary64 := ⟨x.bits ^^^ 0x8000000000000000⟩

----
-- Rounding
----

/-
  The quotient of two naturals, rounded to the nearest natural.
  A half goes to the even neighbour.
-/
def nearestEven (num den : Nat) : Nat :=
  let low := num / den
  let rest := 2 * (num % den)
  if rest < den then
    low
  else if den < rest then
    low + 1
  else
    low + low % 2

/-
  The exponent of the last place that the quotient of two
  positive naturals has as a binary64 number. The estimate from
  the binary logarithms is at most one too large.
-/
def lastPlace (num den : Nat) : Int := let estimate : Int := (num.log2 : Int) - den.log2 - 52
  let scaledNum := num * 2 ^ (-estimate).toNat
  let scaledDen := den * 2 ^ estimate.toNat
  let q :=
    if scaledNum < 2 ^ (52 : Nat) * scaledDen then estimate - 1 else estimate
  max q (-1074)

/-
  The binary64 number nearest to the quotient of a natural and a
  positive natural, ties to even. The significand and the
  exponent of the last place are added in the bits, so a carry
  out of the significand moves to the next exponent.
-/
def roundQuotient (num den : Nat) : Binary64 := if num = 0 then ⟨0⟩
  else
    let q := lastPlace num den
    let significand := nearestEven (num * 2 ^ (-q).toNat) (den * 2 ^ q.toNat)
    let bits := (q + 1074).toNat * 2 ^ (52 : Nat) + significand
    if bits < 0x7FF * 2 ^ (52 : Nat) then ⟨bits.toUInt64⟩ else ⟨0x7FF0000000000000⟩

----
-- Arithmetic and comparisons
----

/- The number with the quiet bit of a NaN set. -/
def quiet : Binary64 := ⟨x.bits ||| 0x0008000000000000⟩

def toFloat : Float := Float.ofBits x.bits

/-
  An arithmetic operation. The first NaN among the operands is
  the result, made quiet; an invalid operation gives the
  negative quiet NaN without payload.
-/
def arithmetic (f : Float → Float → Float) (x y : Binary64) : Binary64 := if x.IsNaN then x.quiet
  else if y.IsNaN then y.quiet
  else
    let z := f x.toFloat y.toFloat
    if z.isNaN then ⟨0xFFF8000000000000⟩ else ⟨z.toBits⟩

def add (x y : Binary64) : Binary64 := arithmetic (· + ·) x y

def sub (x y : Binary64) : Binary64 := arithmetic (· - ·) x y

def mul (x y : Binary64) : Binary64 := arithmetic (· * ·) x y

def div (x y : Binary64) : Binary64 := arithmetic (· / ·) x y

/- Numeric equality: zeros are equal, a NaN equals nothing. -/
def same (x y : Binary64) : Bool := x.toFloat == y.toFloat

/- Numeric order: false if a NaN takes part. -/
def less (x y : Binary64) : Bool := decide (x.toFloat < y.toFloat)

/- Numeric order or equality: false if a NaN takes part. -/
def lessOrSame (x y : Binary64) : Bool := decide (x.toFloat ≤ y.toFloat)

----
-- Hexadecimal bits
----

def hexDigit (n : Nat) : Char := if n < 10 then Char.ofNat ('0'.toNat + n)
  else Char.ofNat ('A'.toNat + n - 10)

def hexDigits (width n : Nat) : List Char := match width with
  | 0 => []
  | k + 1 => hexDigits k (n / 16) ++ [hexDigit (n % 16)]

/- The bits as sixteen hexadecimal digits behind `0x`. -/
def hex : String := "0x" ++ String.ofList (hexDigits 16 x.bits.toNat)

end Binary64

end FortranIR
