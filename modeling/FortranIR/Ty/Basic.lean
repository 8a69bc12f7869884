/-
  This file defines the types of values, and what can be told
  from a type alone.

  A record type is known by its name; its fields are kept in a
  table of records, so records can refer to themselves and to
  each other.

  Main declarations:
    * `Extent`
    * `Ty.element?`
-/

namespace FortranIR

----
-- Types
----

inductive Extent where
  | known (size : UInt64)
  | unknown
deriving DecidableEq, Repr

/-
  The types of values: integers by their width, other intrinsic
  types by their kind, references, sequences, records,
  descriptors and functions.
-/
inductive Ty where
  | integer (width : UInt32)
  | index
  | real (kind : UInt8)
  | complex (kind : UInt8)
  | logical (kind : UInt8)
  | character (kind : UInt8)
  | ref (target : Ty)
  | ptr (target : Ty)
  | heap (target : Ty)
  | sequence (shape : List Extent) (element : Ty)
  | record (name : String)
  | box (target : Ty)
  | typeDesc (target : Ty)
  | function (params : List Ty) (results : List Ty)
  | void
deriving Repr, Inhabited

namespace Ty

----
-- Equality
----

mutual

def same : Ty → Ty → Bool
  | integer m, integer n => m == n
  | index, index => true
  | real m, real n => m == n
  | complex m, complex n => m == n
  | logical m, logical n => m == n
  | character m, character n => m == n
  | ref s, ref t => same s t
  | ptr s, ptr t => same s t
  | heap s, heap t => same s t
  | sequence xs s, sequence ys t => xs == ys && same s t
  | record m, record n => m == n
  | box s, box t => same s t
  | typeDesc s, typeDesc t => same s t
  | function ps rs, function qs ts => sameList ps qs && sameList rs ts
  | void, void => true
  | _, _ => false

def sameList : List Ty → List Ty → Bool
  | [], [] => true
  | s :: ss, t :: ts => same s t && sameList ss ts
  | _, _ => false

end

mutual

theorem same_iff (s t : Ty) : same s t = true ↔ s = t := by
  cases s <;> cases t <;> simp [same]
  case ref.ref s t => exact same_iff s t
  case ptr.ptr s t => exact same_iff s t
  case heap.heap s t => exact same_iff s t
  case sequence.sequence xs s ys t =>
    intro _
    exact same_iff s t
  case box.box s t => exact same_iff s t
  case typeDesc.typeDesc s t => exact same_iff s t
  case function.function ps rs qs ts => rw [sameList_iff ps qs, sameList_iff rs ts]

theorem sameList_iff (ss ts : List Ty) : sameList ss ts = true ↔ ss = ts := by
  cases ss with
  | nil => cases ts <;> simp [sameList]
  | cons s ss =>
    cases ts with
    | nil => simp [sameList]
    | cons t ts =>
      simp [sameList]
      rw [same_iff s t, sameList_iff ss ts]

end

instance : DecidableEq Ty := fun s t => decidable_of_iff (same s t = true) (same_iff s t)

----
-- Families
----

def i1 : Ty := .integer 1

inductive Family where
  | integerLike
  | floatLike
  | complexLike
  | referenceLike
deriving DecidableEq, Repr

def isReference : Ty → Bool
  | ref _ => true
  | ptr _ => true
  | heap _ => true
  | _ => false

def belongsTo (t : Ty) : Family → Bool
  | .integerLike =>
    match t with
    | integer _ => true
    | index => true
    | _ => false
  | .floatLike =>
    match t with
    | real _ => true
    | _ => false
  | .complexLike =>
    match t with
    | complex _ => true
    | _ => false
  | .referenceLike => t.isReference

def isBox : Ty → Bool
  | box _ => true
  | _ => false

def isHeap : Ty → Bool
  | heap _ => true
  | _ => false

def isFunction : Ty → Bool
  | function _ _ => true
  | _ => false

----
-- Parts
----

def element? : Ty → Option Ty
  | ref t => some t
  | ptr t => some t
  | heap t => some t
  | box t => some t
  | _ => none

def signature? : Ty → Option (List Ty × List Ty)
  | function params results => some (params, results)
  | _ => none

/-
  The record that a value of the type contains without any
  indirection: the type itself, or the element of nested
  sequences.
-/
def directRecord? : Ty → Option String
  | record name => some name
  | sequence _ element => element.directRecord?
  | _ => none

def unknownExtents (shape : List Extent) : Nat := shape.count .unknown

end Ty

end FortranIR
