/-
  This file defines finite maps with numbers as keys, kept as
  lists of entries in ascending order of their keys.

  Main declarations:
    * `Keyed`
    * `Keyed.adjust`
-/

namespace FortranIR

abbrev Keyed (α : Type) := List (Nat × α)

namespace Keyed

variable {α : Type}

def find? (entries : Keyed α) (key : Nat) : Option α := List.lookup key entries

def insert (key : Nat) (a : α) : Keyed α → Keyed α
  | [] => [(key, a)]
  | (k, b) :: rest =>
    if key < k then (key, a) :: (k, b) :: rest
    else if key = k then (key, a) :: rest
    else (k, b) :: insert key a rest

def erase (key : Nat) (entries : Keyed α) : Keyed α := entries.filter fun e => e.1 ≠ key

/- Change the value of a key; an absent key has a default. -/
def adjust (key : Nat) (default : α) (f : α → α) (entries : Keyed α) : Keyed α :=
  insert key (f ((find? entries key).getD default)) entries

end Keyed

end FortranIR
