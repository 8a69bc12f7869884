import FortranIR.Fault

/-
  This file defines flat lists that are divided into consecutive
  segments.

  Branches keep the operands of all their cases in one list, and
  the sizes of the cases in an attribute.

  Main declarations:
    * `Segments`
    * `Segments.segment`
-/

namespace FortranIR

attribute [local instance (10000)] Zero.ofOfNat0

structure Segments (α : Type) where
  items : List α
  sizes : List Nat
deriving DecidableEq, Repr

/- Sizes that do not cover a list. -/
structure SegmentError where
  total : Nat
  covered : Nat
deriving DecidableEq, Repr

def SegmentError.message (e : SegmentError) : String :=
  s!"segment sizes sum to {e.covered}, but the list has {e.total} elements"

namespace Segments

variable {α : Type}

/-
  Divide a list by sizes, which have to add up to its length.
  Their sum has to be a word of 64 bits.
-/
def split (items : List α) (sizes : List Nat) :
    Except Fault (Except SegmentError (Segments α)) := do
  let covered ← checkedSum sizes
  if covered = items.length then return .ok ⟨items, sizes⟩
  else return .error ⟨items.length, covered⟩

def ofLists (segments : List (List α)) : Segments α := ⟨segments.flatten, segments.map List.length⟩

def length (s : Segments α) : Nat := s.sizes.length

def start (s : Segments α) (i : Nat) : Nat := (s.sizes.take i).sum

def segment (s : Segments α) (i : Nat) : Except Fault (List α) := do
  let size ← entry s.sizes i
  return (s.items.drop (s.start i)).take size

def toLists (s : Segments α) : List (List α) := (List.range s.length).map fun i =>
    (s.items.drop (s.start i)).take ((s.sizes[i]?).getD 0)

end Segments

end FortranIR
