import FortranIR.Ty.Basic

/-
  This file defines the distance between the signature of a
  call and the signature of a function that may stand in for
  the callee.

  The distance counts the conversions that the call would need.
  It is not symmetric: arguments are converted from the call to
  the function, results from the function back to the call.

  Main declarations:
    * `Conversion`
    * `Distance.losesPrecision`
-/

namespace FortranIR

----
-- Conversions
----

inductive Conversion where
  | forbidden
  | none
  | narrow
  | extend
deriving DecidableEq, Repr

namespace Ty

def floatWidth (kind : UInt8) : Nat := if kind = 2 ∨ kind = 3 then 16 else kind.toNat * 8

/-
  The widths of two types of one arithmetic family: integers,
  reals, or complex numbers, which have the width of their
  parts.
-/
def widths? : Ty → Ty → Option (Nat × Nat)
  | integer m, integer n => some (m.toNat, n.toNat)
  | real m, real n => some (floatWidth m, floatWidth n)
  | complex m, complex n => some (floatWidth m, floatWidth n)
  | _, _ => Option.none

/-
  The conversion from one type to another. Different types of
  the same width extend each other.
-/
def conversionTo (source target : Ty) : Conversion := if source = target then .none
  else
    match widths? source target with
    | some (m, n) => if n < m then .narrow else .extend
    | Option.none => .forbidden

end Ty

----
-- Distances
----

/-
  The conversions that a call needs, counted, and whether one of
  them is impossible.
-/
structure Distance where
  narrowedArgs : Nat := 0
  extendedResults : Nat := 0
  narrowedResults : Nat := 0
  extendedArgs : Nat := 0
  isInfinite : Bool := false
deriving DecidableEq, Repr

namespace Distance

def infinite : Distance := { isInfinite := true }

def addArg (d : Distance) : Conversion → Distance
  | .forbidden => { d with isInfinite := true }
  | .none => d
  | .narrow => { d with narrowedArgs := d.narrowedArgs + 1 }
  | .extend => { d with extendedArgs := d.extendedArgs + 1 }

def addResult (d : Distance) : Conversion → Distance
  | .forbidden => { d with isInfinite := true }
  | .none => d
  | .narrow => { d with narrowedResults := d.narrowedResults + 1 }
  | .extend => { d with extendedResults := d.extendedResults + 1 }

/-
  The distance from the type of a call to the type of a
  function. Types that are no functions, or that differ in the
  number of arguments or results, are infinitely far apart.
-/
def between (call function : Ty) : Distance := match call, function with
  | .function ps rs, .function qs ss =>
    if ps.length = qs.length ∧ rs.length = ss.length then
      let args := List.zipWith Ty.conversionTo ps qs
      let results := List.zipWith Ty.conversionTo ss rs
      results.foldl addResult (args.foldl addArg {})
    else infinite
  | _, _ => infinite

/- The call narrows an argument or extends a result. -/
def losesPrecision (d : Distance) : Bool := d.narrowedArgs ≠ 0 || d.extendedResults ≠ 0

/-
  The order of distances. Finite ones are ordered by narrowed
  arguments, then extended results, then narrowed results, then
  extended arguments; all infinite ones are equally far.
-/
def compare (a b : Distance) : Ordering := match a.isInfinite, b.isInfinite with
  | true, true => .eq
  | true, false => .gt
  | false, true => .lt
  | false, false =>
    (Ord.compare a.narrowedArgs b.narrowedArgs).then
      ((Ord.compare a.extendedResults b.extendedResults).then
        ((Ord.compare a.narrowedResults b.narrowedResults).then
          (Ord.compare a.extendedArgs b.extendedArgs)))

end Distance

end FortranIR
