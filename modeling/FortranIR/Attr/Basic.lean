import FortranIR.Number.Binary64
import FortranIR.Ty.Basic

/-
  This file defines the attributes of operations.

  Floats are kept by their bits, so attributes are equal exactly
  when they are the same datum.

  Main declarations:
    * `CaseTag`
    * `AttrMap`
-/

namespace FortranIR

----
-- Case tags
----

inductive CaseTag where
  | point
  | lower
  | upper
  | interval
deriving DecidableEq, Repr

namespace CaseTag

def name : CaseTag → String
  | point => "#fir.point"
  | lower => "#fir.lower"
  | upper => "#fir.upper"
  | interval => "#fir.interval"

def all : List CaseTag := [point, lower, upper, interval]

def ofName? (s : String) : Option CaseTag := all.find? fun tag => tag.name == s

end CaseTag

----
-- Attributes
----

inductive Attr where
  | unit
  | bool (value : Bool)
  | int (value : Int64)
  | float (value : Binary64)
  | str (text : String)
  | type (t : Ty)
  | symbol (name : String)
  | array (elements : List Attr)
  | ints (values : List Int64)
  | case (tag : CaseTag)
deriving Repr, Inhabited

namespace Attr

mutual

def same : Attr → Attr → Bool
  | unit, unit => true
  | bool a, bool b => a == b
  | int a, int b => a == b
  | float a, float b => a == b
  | str a, str b => a == b
  | type a, type b => a == b
  | symbol a, symbol b => a == b
  | array a, array b => sameList a b
  | ints a, ints b => a == b
  | case a, case b => a == b
  | _, _ => false

def sameList : List Attr → List Attr → Bool
  | [], [] => true
  | a :: as, b :: bs => same a b && sameList as bs
  | _, _ => false

end

mutual

theorem same_iff (a b : Attr) : same a b = true ↔ a = b := by
  cases a <;> cases b <;> simp [same]
  case array.array as bs => exact sameList_iff as bs

theorem sameList_iff (as bs : List Attr) : sameList as bs = true ↔ as = bs := by
  cases as with
  | nil => cases bs <;> simp [sameList]
  | cons a as =>
    cases bs with
    | nil => simp [sameList]
    | cons b bs =>
      simp [sameList]
      rw [same_iff a b, sameList_iff as bs]

end

instance : DecidableEq Attr := fun a b => decidable_of_iff (same a b = true) (same_iff a b)

def int? : Attr → Option Int64
  | int n => some n
  | _ => none

def float? : Attr → Option Binary64
  | float x => some x
  | _ => none

def str? : Attr → Option String
  | str s => some s
  | _ => none

def symbol? : Attr → Option String
  | symbol s => some s
  | _ => none

def type? : Attr → Option Ty
  | type t => some t
  | _ => none

def array? : Attr → Option (List Attr)
  | array as => some as
  | _ => none

def ints? : Attr → Option (List Int64)
  | ints ns => some ns
  | _ => none

/- The attribute can stand for a case that compares values. -/
def isCase : Attr → Bool
  | unit => true
  | case _ => true
  | _ => false

/-
  The number of operands that a case compares with the selector:
  none for the default case and two for an interval.
-/
def caseOperands : Attr → Nat
  | unit => 0
  | case .interval => 2
  | _ => 1

end Attr

----
-- Named attributes
----

/- Attributes by name, in the order of the names. -/
structure AttrMap where
  entries : List (String × Attr) := []
deriving DecidableEq, Repr, Inhabited

namespace AttrMap

def get? (attrs : AttrMap) (name : String) : Option Attr := attrs.entries.lookup name

/- Add an entry at its place, or replace the one of that name. -/
def insertEntry (name : String) (attr : Attr) : List (String × Attr) → List (String × Attr)
  | [] => [(name, attr)]
  | (n, a) :: rest =>
    if name < n then (name, attr) :: (n, a) :: rest
    else if name = n then (name, attr) :: rest
    else (n, a) :: insertEntry name attr rest

def insert (attrs : AttrMap) (name : String) (attr : Attr) : AttrMap :=
  ⟨insertEntry name attr attrs.entries⟩

def ofList (entries : List (String × Attr)) : AttrMap :=
  entries.foldl (fun attrs e => attrs.insert e.1 e.2) {}

def hasFlag (attrs : AttrMap) (name : String) : Bool := attrs.get? name == some .unit

end AttrMap

end FortranIR
