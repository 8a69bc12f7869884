import FortranIR.Fault
import FortranIR.Ty.Basic

/-
  This file defines tables of record bodies, and the checks of a
  type that look into its records: whether it can be allocated,
  and whether a record contains itself.

  Main declarations:
    * `RecordBody`
    * `Ty.lenParamsMismatch`
-/

namespace FortranIR

----
-- Tables
----

structure RecordBody where
  fields : List (String × Ty)
  lenParams : Nat
deriving DecidableEq, Repr

structure RecordTable where
  bodies : List (String × RecordBody) := []
deriving DecidableEq, Repr

namespace RecordTable

def find? (table : RecordTable) (name : String) : Option RecordBody := table.bodies.lookup name

def body? (table : RecordTable) : Ty → Option RecordBody
  | .record name => table.find? name
  | _ => none

/-
  Give a record a body. A record may be given the same body
  again, but not another one.
-/
def define (table : RecordTable) (name : String) (body : RecordBody) : Except Fault RecordTable :=
  match table.find? name with
  | none => .ok ⟨(name, body) :: table.bodies⟩
  | some known =>
    if known = body then .ok table else .error (.recordRedefined name)

def defineType (table : RecordTable) (t : Ty) (body : RecordBody) : Except Fault RecordTable :=
  match t with
  | .record name => table.define name body
  | _ => .error .notRecord

end RecordTable

----
-- Incomplete types
----

namespace Ty

/-
  The type can not be allocated with the given number of dynamic
  extents, if `record` tells this of the records in it.
-/
def incompleteWith (record : String → Bool) (extents : Nat) : Ty → Bool
  | .sequence shape element =>
    shape.isEmpty || decide (extents < unknownExtents shape)
      || incompleteWith record 0 element
  | .record name => record name
  | .ref t => incompleteWith record extents t
  | .ptr t => incompleteWith record extents t
  | .heap t => incompleteWith record extents t
  | _ => false

/-
  The record has no body, or a field that can not be allocated.
  Records in `visiting` are being looked at already and count as
  complete.
-/
def incompleteRecord (table : RecordTable) : Nat → List String → String → Bool
  | 0, visiting, name => !visiting.contains name && (table.find? name).isNone
  | fuel + 1, visiting, name =>
    if visiting.contains name then false
    else
      match table.find? name with
      | none => true
      | some body =>
        body.fields.any fun field =>
          incompleteWith (incompleteRecord table fuel (name :: visiting)) 0 field.2

/-
  The type can not be allocated with the given number of dynamic
  extents. A path of records with bodies is no longer than the
  table.
-/
def isIncomplete (table : RecordTable) (extents : Nat) (t : Ty) : Bool := t.incompleteWith
    (incompleteRecord table table.bodies.length []) extents

/-
  The number of length parameters does not fit the type. A type
  always takes none.
-/
def lenParamsMismatch (table : RecordTable) (n : Nat) (t : Ty) : Bool := if n = 0 then false
  else
    match table.body? t with
    | some body => body.lenParams != n
    | none => true

end Ty

----
-- Records that contain themselves
----

namespace RecordTable

/- The records that are part of a record without indirection. -/
def parts (table : RecordTable) (name : String) : List String := match table.find? name with
  | none => []
  | some body => body.fields.filterMap fun field => field.2.directRecord?

/-
  Look for a record in another one and the records it contains.
  None of those that are seen is looked into again. Yields all
  that are seen, or nothing as soon as the record is found.
-/
def search (table : RecordTable) (target : String) :
    Nat → List String → String → Option (List String)
  | 0, seen, _ => some seen
  | fuel + 1, seen, name =>
    if name = target ∧ seen ≠ [] then none
    else if name ∈ seen then some seen
    else (table.parts name).foldlM (table.search target fuel) (name :: seen)

/-
  A record contains itself. All records of a path but the last
  one have a body, so it has no more steps than there are bodies.
-/
def isCyclic (table : RecordTable) (name : String) : Bool :=
  (table.search name (table.bodies.length + 1) [] name).isNone

end RecordTable

/-
  The record of a type that contains itself other than through a
  reference or a descriptor, if there is such a one behind the
  outer sequences.
-/
def Ty.selfContained? (table : RecordTable) (t : Ty) : Option String :=
  t.directRecord?.filter table.isCyclic

def Ty.recordComplaint? (table : RecordTable) (t : Ty) : Option String :=
  (t.selfContained? table).map fun name => s!"record `{name}` contains itself"

end FortranIR
