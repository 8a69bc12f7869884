import FortranIR.Fault

/-
  This file defines the symbols of a source program and the
  scopes that hold them.

  Names are resolved: a symbol is known by its place in its
  scope. An expression is reduced to the category of its type,
  the symbols it refers to, and its value if that is a constant
  integer.

  Main declarations:
    * `Category`
    * `Symbol`
-/

namespace FortranIR

----
-- Expressions
----

inductive Category where
  | integer
  | real
  | complex
  | character
  | logical
  | derived
deriving DecidableEq, Repr

namespace Category

def name : Category → String
  | integer => "Integer"
  | real => "Real"
  | complex => "Complex"
  | character => "Character"
  | logical => "Logical"
  | derived => "Derived"

def all : List Category := [integer, real, complex, character, logical, derived]

end Category

abbrev SymbolId := Nat

structure Expr where
  category : Category
  symbols : List SymbolId := []
  value : Option Int64 := none
deriving DecidableEq, Repr

/- The bounds of a dimension that are explicit. -/
structure Bounds where
  lower : Option Expr := none
  upper : Option Expr := none
deriving DecidableEq, Repr

----
-- Symbols
----

/-
  The declaration of a data object. A missing kind is the
  default kind of the category.
-/
structure ObjectDetails where
  category : Category
  kind : Option UInt8 := none
  length : Option Expr := none
  shape : List Bounds := []
  coshape : List Bounds := []
  initial : Option Expr := none
deriving DecidableEq, Repr

def ObjectDetails.bounds (d : ObjectDetails) : List Expr := (d.shape ++ d.coshape).flatMap fun b =>
    b.lower.toList ++ b.upper.toList

/- The symbols that the declaration of an object refers to. -/
def ObjectDetails.references (d : ObjectDetails) : List SymbolId :=
  (d.length.toList ++ d.bounds ++ d.initial.toList).flatMap Expr.symbols

/-
  The declaration of a subprogram or of an entry. A dummy
  argument without a symbol is an alternate return.
-/
structure SubprogramDetails where
  args : List (Option SymbolId) := []
  result : Option SymbolId := none
deriving DecidableEq, Repr

inductive Details where
  | object (details : ObjectDetails)
  | subprogram (details : SubprogramDetails)
  | procedure
  | use
  | hostAssociated
  | namelist
  | module
  | misc
  | derivedType
deriving DecidableEq, Repr

structure SymbolAttrs where
  saved : Bool := false
  allocatable : Bool := false
  pointer : Bool := false
  target : Bool := false
  inCommon : Bool := false
deriving DecidableEq, Repr

structure Symbol where
  name : String
  details : Details
  offset : Nat := 0
  size : Nat := 0
  attrs : SymbolAttrs := {}
deriving DecidableEq, Repr

def Symbol.isInitialized (s : Symbol) : Bool := match s.details with
  | .object d => d.initial.isSome
  | _ => false

/- The storage of the symbol is static. -/
def Symbol.isGlobal (s : Symbol) : Bool := s.attrs.saved || s.attrs.inCommon || s.isInitialized

----
-- Scopes
----

/- The symbols of a unit, and those that share storage. -/
structure Scope where
  symbols : List Symbol := []
  equivalences : List (List SymbolId) := []
deriving DecidableEq, Repr

namespace Scope

def find? (scope : Scope) (name : String) : Option SymbolId :=
  scope.symbols.findIdx? fun s => s.name == name

def add (scope : Scope) (symbol : Symbol) : Except Fault Scope :=
  if (scope.find? symbol.name).isSome then .error (.symbolExists symbol.name)
  else .ok { scope with symbols := scope.symbols ++ [symbol] }

def ofLists (symbols : List Symbol) (equivalences : List (List SymbolId)) : Except Fault Scope :=
  symbols.foldlM add { equivalences }

def symbol (scope : Scope) (id : SymbolId) : Except Fault Symbol := entry scope.symbols id

def byName (scope : Scope) : List (SymbolId × Symbol) :=
  (scope.symbols.zipIdx.map fun e => (e.2, e.1)).mergeSort fun a b => decide (a.2.name ≤ b.2.name)

end Scope

end FortranIR
