import FortranIR.Number.Binary64

/-
  This file defines decimal numerals: how they are read as
  binary64 numbers, and which numeral a binary64 number is
  written as.

  A number is written with the fewest digits that read back as
  the same bits. Of two such numerals the nearer one is taken,
  and the larger one if both are equally near.

  Main declarations:
    * `Decimal`
    * `Binary64.shortest`
-/

namespace FortranIR

attribute [local instance (10000)] instPowNat

/- The decimal `digits * 10 ^ exponent`. -/
structure Decimal where
  digits : Nat
  exponent : Int
deriving DecidableEq, Repr

----
-- Reading
----

namespace Decimal

def ofDigits (cs : List Char) : Nat := cs.foldl (fun n c => 10 * n + (c.toNat - '0'.toNat)) 0

def width (n : Nat) : Nat := (Nat.toDigits 10 n).length

/-
  The binary64 number nearest to a decimal. Decimals of more
  than 310 places are infinite and those below the 400th place
  are zero, so the powers of ten stay small.
-/
def toBinary (d : Decimal) : Binary64 := let top : Int := width d.digits + d.exponent
  if d.digits = 0 ∨ top < -400 then ⟨0⟩
  else if 310 < top then ⟨0x7FF0000000000000⟩
  else Binary64.roundQuotient (d.digits * 10 ^ d.exponent.toNat) (10 ^ (-d.exponent).toNat)

def isDigit (c : Char) : Bool := '0' ≤ c && c ≤ '9'

/- An exponent: an optional sign and at least one digit. -/
def readExponent? (cs : List Char) : Option Int :=
  let unsigned (ds : List Char) : Option Int :=
    if ds ≠ [] ∧ ds.all isDigit then
      some (ofDigits ds)
    else
      none
  match cs with
  | '-' :: ds => (unsigned ds).map (-·)
  | '+' :: ds => unsigned ds
  | ds => unsigned ds

/-
  A decimal without a sign: digits, an optional point with
  further digits, and an optional exponent behind `e`. At least
  one digit has to stand before or behind the point.
-/
def readUnsigned? (cs : List Char) : Option Decimal := let whole := cs.takeWhile isDigit
  let rest := cs.dropWhile isDigit
  let fraction :=
    match rest with
    | '.' :: more => more.takeWhile isDigit
    | _ => []
  let rest :=
    match rest with
    | '.' :: more => more.dropWhile isDigit
    | _ => rest
  let places : Int := fraction.length
  if whole = [] ∧ fraction = [] then none
  else
    let digits := ofDigits (whole ++ fraction)
    match rest with
    | [] => some ⟨digits, -places⟩
    | 'e' :: more => (readExponent? more).map fun e => ⟨digits, e - places⟩
    | _ => none

def read? (cs : List Char) : Option Binary64 := match cs with
  | '-' :: more => (readUnsigned? more).map fun d => d.toBinary.negate
  | _ => (readUnsigned? cs).map toBinary

end Decimal

----
-- The shortest numeral
----

namespace Binary64

variable (x : Binary64)

/- The significand of a finite number, as a natural. -/
def significand : Nat := if x.exponentField = 0 then x.fraction
  else 2 ^ (52 : Nat) + x.fraction

/- The exponent of two that belongs to the significand. -/
def scale : Int := if x.exponentField = 0 then -1074
  else (x.exponentField : Int) - 1075

/-
  The gap to the number below is half the gap to the number
  above.
-/
def narrowBelow : Bool := x.fraction == 0 && x.exponentField > 1

/- Compare `a * 10 ^ i` with `n * 2 ^ j`. -/
def compareScaled (a : Nat) (i : Int) (n : Nat) (j : Int) : Ordering := compare
    (a * 10 ^ i.toNat * 2 ^ (-j).toNat)
    (n * 2 ^ j.toNat * 10 ^ (-i).toNat)

/-
  The decimal lies among the reals that round to the magnitude
  of the number: between the halfway points to its neighbours,
  which belong to it exactly when its significand is even.
-/
def readsBack (d : Decimal) : Bool := let m := x.significand
  let low := if x.narrowBelow then 4 * m - 1 else 4 * m - 2
  let high := 4 * m + 2
  let ends := m % 2 == 0
  let atLow := compareScaled d.digits d.exponent low (x.scale - 2)
  let atHigh := compareScaled d.digits d.exponent high (x.scale - 2)
  (atLow == .gt || (ends && atLow == .eq)) && (atHigh == .lt || (ends && atHigh == .eq))

/-
  The least `k` for which the magnitude is below `10 ^ k`. The
  binary logarithm leaves four candidates.
-/
def leadingPlace : Int := let log : Int := x.significand.log2 + x.scale
  let estimate := log * 30103 / 100000
  let below (k : Int) : Bool := compareScaled 1 k x.significand x.scale == .gt
  [estimate - 1, estimate, estimate + 1].find? below
    |>.getD (estimate + 2)

/-
  The better of the two neighbours of the magnitude on the grid
  of multiples of `10 ^ g`, among those that read back.
-/
def onGrid? (g : Int) : Option Decimal := let num :=
    x.significand * 2 ^ x.scale.toNat * 10 ^ (-g).toNat
  let den := 2 ^ (-x.scale).toNat * 10 ^ g.toNat
  let low : Decimal := ⟨num / den, g⟩
  let high : Decimal := ⟨num / den + 1, g⟩
  match x.readsBack low, x.readsBack high with
  | true, true =>
    if 2 * num < (2 * low.digits + 1) * den then some low else some high
  | true, false => some low
  | false, true => some high
  | false, false => none

/- Move the trailing zeros of the digits into the exponent. -/
def stripZeros : Nat → Decimal → Decimal
  | 0, d => d
  | n + 1, d =>
    if d.digits % 10 = 0 ∧ d.digits ≠ 0 then stripZeros n ⟨d.digits / 10, d.exponent + 1⟩ else d

/-
  The shortest decimal that reads back as the magnitude of a
  finite nonzero number. The exact value stands at the end of
  the search.
-/
def shortest : Decimal :=
  let k := x.leadingPlace
  let exact : Decimal :=
    ⟨x.significand * 2 ^ x.scale.toNat * 5 ^ (-x.scale).toNat,
      min x.scale 0⟩
  let found :=
    (List.range 17).findSome? fun (n : Nat) => x.onGrid? (k - n - 1)
  stripZeros 800 (found.getD exact)

----
-- Layout
----

/-
  The first exponent of the leading digit that is written with
  an exponent again, and the last one below the positional range.
-/
def positionalEnd : Int := 16

/- Leading digits from the fourth place on are positional. -/
def positionalStart : Int := -4

/-
  A positive decimal in text. Positional numerals always have a
  point, numerals with an exponent only between digits.
-/
def layout (d : Decimal) : String := let ds := Nat.toDigits 10 d.digits
  let lead : Int := (ds.length : Int) - 1 + d.exponent
  if positionalStart ≤ lead ∧ lead < positionalEnd then
    if 0 ≤ d.exponent then
      String.ofList ds ++ String.ofList (List.replicate d.exponent.toNat '0') ++ ".0"
    else if 0 ≤ lead then
      String.ofList (ds.take (lead.toNat + 1)) ++ "." ++ String.ofList (ds.drop (lead.toNat + 1))
    else "0." ++ String.ofList (List.replicate ((-lead).toNat - 1) '0') ++ String.ofList ds
  else
    let head := String.ofList (ds.take 1)
    let tail := String.ofList (ds.drop 1)
    let point := if ds.length = 1 then "" else "."
    head ++ point ++ tail ++ "e" ++ toString lead

def render : String :=
  let sign := if x.isNegative then "-" else ""
  if x.IsNaN then
    "NaN"
  else if ¬x.IsFinite then
    sign ++ "inf"
  else if x.significand = 0 then
    sign ++ "0.0"
  else
    sign ++ layout x.shortest

end Binary64

end FortranIR
