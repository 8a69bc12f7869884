import FortranIR.Keyed

/-
  This file defines sets of intervals of bytes. Intervals that
  overlap are merged, so the intervals of a set are disjoint.

  Main declarations:
    * `IntervalSet`
    * `IntervalSet.find?`
-/

namespace FortranIR

/-
  Disjoint intervals: the last byte of each, by its first byte.
-/
structure IntervalSet where
  ends : Keyed Nat := []
deriving DecidableEq, Repr

namespace IntervalSet

/- Add the bytes from `first` to `last`. -/
def merge (set : IntervalSet) (first last : Nat) : IntervalSet :=
  let overlapping := set.ends.filter fun e => e.1 ≤ last ∧ first ≤ e.2
  let others := overlapping.foldl (fun es e => Keyed.erase e.1 es) set.ends
  let lo := overlapping.foldl (fun n e => min n e.1) first
  let hi := overlapping.foldl (fun n e => max n e.2) last
  { ends := Keyed.insert lo hi others }

def find? (set : IntervalSet) (byte : Nat) : Option (Nat × Nat) :=
  ((set.ends.filter fun e => e.1 ≤ byte).getLast?).filter fun e => byte ≤ e.2

end IntervalSet

end FortranIR
