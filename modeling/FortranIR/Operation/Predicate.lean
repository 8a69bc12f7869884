import FortranIR.Fault
import FortranIR.Number.Binary64

/-
  This file defines the predicates of comparisons, and their
  values on constants.

  Main declarations:
    * `FloatPredicate`
    * `IntPredicate.eval`
-/

namespace FortranIR

attribute [local instance (10000)] instPowNat

----
-- Floats
----

/-
  The predicates of floats. The ordered ones are false if a NaN
  takes part, the unordered ones are true.
-/
inductive FloatPredicate where
  | alwaysFalse
  | oeq
  | ogt
  | oge
  | olt
  | ole
  | one
  | ord
  | ueq
  | ugt
  | uge
  | ult
  | ule
  | une
  | uno
  | alwaysTrue
deriving DecidableEq, Repr

namespace FloatPredicate

/- All predicates, in the order of their encoding. -/
def all : List FloatPredicate :=
  [ alwaysFalse, oeq, ogt, oge, olt, ole, one, ord, ueq, ugt, uge, ult, ule, une, uno, alwaysTrue ]

def name : FloatPredicate → String
  | alwaysFalse => "false"
  | oeq => "oeq"
  | ogt => "ogt"
  | oge => "oge"
  | olt => "olt"
  | ole => "ole"
  | one => "one"
  | ord => "ord"
  | ueq => "ueq"
  | ugt => "ugt"
  | uge => "uge"
  | ult => "ult"
  | ule => "ule"
  | une => "une"
  | uno => "uno"
  | alwaysTrue => "true"

def ofName? (s : String) : Option FloatPredicate := all.find? fun p => p.name == s

def index (p : FloatPredicate) : Nat := all.idxOf p

def ofIndex? (i : Int64) : Option FloatPredicate := if i < 0 then none else all[i.toInt.toNat]?

def eval (p : FloatPredicate) (l r : Binary64) : Bool :=
  let unordered := decide l.IsNaN || decide r.IsNaN
  match p with
  | alwaysFalse => false
  | oeq => !unordered && l.same r
  | ogt => !unordered && r.less l
  | oge => !unordered && r.lessOrSame l
  | olt => !unordered && l.less r
  | ole => !unordered && l.lessOrSame r
  | one => !unordered && !l.same r
  | ord => !unordered
  | ueq => unordered || l.same r
  | ugt => unordered || r.less l
  | uge => unordered || r.lessOrSame l
  | ult => unordered || l.less r
  | ule => unordered || l.lessOrSame r
  | une => unordered || !l.same r
  | uno => unordered
  | alwaysTrue => true

end FloatPredicate

----
-- Integers
----

inductive IntPredicate where
  | eq
  | ne
  | slt
  | sle
  | sgt
  | sge
  | ult
  | ule
  | ugt
  | uge
deriving DecidableEq, Repr

namespace IntPredicate

def all : List IntPredicate := [eq, ne, slt, sle, sgt, sge, ult, ule, ugt, uge]

def name : IntPredicate → String
  | eq => "eq"
  | ne => "ne"
  | slt => "slt"
  | sle => "sle"
  | sgt => "sgt"
  | sge => "sge"
  | ult => "ult"
  | ule => "ule"
  | ugt => "ugt"
  | uge => "uge"

def ofName? (s : String) : Option IntPredicate := all.find? fun p => p.name == s

def index (p : IntPredicate) : Nat := all.idxOf p

def ofIndex? (i : Int64) : Option IntPredicate := if i < 0 then none else all[i.toInt.toNat]?

def lowBits (width : UInt32) (v : Int64) : Nat := if 64 ≤ width then v.toUInt64.toNat
  else v.toUInt64.toNat % 2 ^ width.toNat

/-
  The value of a predicate on two words. The unsigned predicates
  compare the low bits that belong to the width.
-/
def eval (p : IntPredicate) (l r : Int64) (width : UInt32) : Bool := let ul := lowBits width l
  let ur := lowBits width r
  match p with
  | eq => l == r
  | ne => l != r
  | slt => decide (l < r)
  | sle => decide (l ≤ r)
  | sgt => decide (r < l)
  | sge => decide (r ≤ l)
  | ult => decide (ul < ur)
  | ule => decide (ul ≤ ur)
  | ugt => decide (ur < ul)
  | uge => decide (ur ≤ ul)

end IntPredicate

/-
  The low bits of a word, extended by their sign. The boolean
  width keeps zero and one; a width of zero has no bits to
  extend.
-/
def truncateWord (v : Int64) (width : UInt32) : Except Fault Int64 := if width = 1 then
    .ok (v &&& 1)
  else if 64 ≤ width then .ok v
  else if width = 0 then .error .overflow
  else .ok (Int64.ofInt (Int.bmod v.toInt (2 ^ width.toNat)))

end FortranIR
