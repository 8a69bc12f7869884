/-
  This file defines outlines: values with the outlines that are
  nested in them.

  Main declarations:
    * `Outline`
    * `Outline.flatten`
-/

namespace FortranIR

inductive Outline (α : Type) where
  | node (root : α) (nested : List (Outline α))
deriving Repr

namespace Outline

variable {α : Type}

def root : Outline α → α
  | node a _ => a

def nested : Outline α → List (Outline α)
  | node _ ts => ts

mutual

def map {β : Type} (f : α → β) : Outline α → Outline β
  | node a ts => node (f a) (mapAll f ts)

def mapAll {β : Type} (f : α → β) : List (Outline α) → List (Outline β)
  | [] => []
  | t :: ts => map f t :: mapAll f ts

end

mutual

/- The values of an outline, each one before those in it. -/
def flatten : Outline α → List α
  | node a ts => a :: flattenAll ts

def flattenAll : List (Outline α) → List α
  | [] => []
  | t :: ts => flatten t ++ flattenAll ts

end

end Outline

end FortranIR
