import FortranIR.Storage.Variable
import FortranIR.Ty.Basic

/-
  This file defines the types of source entities: of categories
  with a kind, of symbols and of variables.

  Main declarations:
    * `DefaultKinds`
    * `Scope.functionType`
-/

namespace FortranIR

----
-- Kinds
----

structure DefaultKinds where
  integer : UInt8 := 4
  real : UInt8 := 4
  complex : UInt8 := 4
  character : UInt8 := 1
  logical : UInt8 := 4
deriving DecidableEq, Repr

/- The default kind of a category; derived types have none. -/
def DefaultKinds.kind (d : DefaultKinds) : Category → Except Fault UInt8
  | .integer => .ok d.integer
  | .real => .ok d.real
  | .complex => .ok d.complex
  | .character => .ok d.character
  | .logical => .ok d.logical
  | .derived => .error .derivedDefaultKind

inductive TypingError where
  | invalidKind (category : Category) (kind : UInt8)
  | untyped (name : String)
  | derivedType (name : String)
deriving DecidableEq, Repr

def TypingError.message : TypingError → String
  | invalidKind category kind => s!"invalid kind {kind} of {category.name} type"
  | untyped name => s!"symbol `{name}` must have a type"
  | derivedType name => s!"can not convert `{name}` of derived type"

abbrev Typing := ExceptT TypingError (Except Fault)

def Category.type (category : Category) (kind : UInt8) : Except TypingError Ty :=
  let among (kinds : List UInt8) (t : Ty) :=
    if kind ∈ kinds then Except.ok t else .error (.invalidKind category kind)
  match category with
  | .integer => among [1, 2, 4, 8, 16] (.integer (kind.toUInt32 * 8))
  | .real => among [2, 3, 4, 8, 10, 16] (.real kind)
  | .complex => among [2, 3, 4, 8, 10, 16] (.complex kind)
  | .logical => among [1, 2, 4, 8] (.logical kind)
  | .character => among [1, 2, 4] (.character kind)
  | .derived => .error (.invalidKind category kind)

def DefaultKinds.type (d : DefaultKinds) (category : Category) : Typing Ty := do
  if category = .derived then throw (.derivedType "<expression>")
  let kind ← (d.kind category : Except Fault UInt8)
  ExceptT.mk (.ok (category.type kind))

----
-- Extents
----

/-
  The extent between two bounds, in signed 64-bit words. It is
  unknown if a bound is.
-/
def Extent.between (lower upper : Option Int64) : Except Fault Extent := match lower, upper with
  | some l, some u => do
      let difference ← checkedInt (u.toInt - l.toInt)
      let size ← checkedInt (difference + 1)
      return .known (.ofNat size.toNat)
  | _, _ => return .unknown

/- The extent of a dimension, whose first place is 1 by default. -/
def Bounds.extent (b : Bounds) : Except Fault Extent :=
  Extent.between (b.lower.elim (some 1) Expr.value) (b.upper.bind Expr.value)

/-
  The extents of an array. The length of a character array is
  its first extent.
-/
def ObjectDetails.extents (d : ObjectDetails) : Except Fault (List Extent) := do
  let shape ← d.shape.mapM Bounds.extent
  if d.category = .character then
    let length ← Extent.between (some 1) (d.length.bind Expr.value)
    return length :: shape
  else return shape

----
-- Symbols
----

namespace Scope

variable (scope : Scope) (defaults : DefaultKinds)

def typedSymbol (id : SymbolId) : Typing Symbol := liftM (scope.symbol id)

def elementType (d : ObjectDetails) : Typing Ty := do
  let kind ← (d.kind.elim (defaults.kind d.category) .ok : Except Fault UInt8)
  ExceptT.mk (.ok (d.category.type kind))

/-
  The type of an object. Arrays are sequences; scalars that are
  pointers or allocatable are references of these kinds.
-/
def objectType (s : Symbol) (d : ObjectDetails) (onHeap isPointer : Bool) : Typing Ty := do
  if d.category = .derived then throw (.derivedType s.name)
  let element ← elementType defaults d
  if !d.shape.isEmpty then return .sequence (← (d.extents : Except Fault _)) element
  else if isPointer || s.attrs.pointer then return .ptr element
  else if onHeap || s.attrs.allocatable then return .heap element
  else return element

/-
  The type of a dummy argument, given the type of any symbol.
  Characters are passed by descriptor, all else by reference.
-/
def argType (typeOf : SymbolId → Typing Ty) (id : SymbolId) : Typing Ty := do
  match (← scope.typedSymbol id).details with
  | .object d =>
    if d.category = .character then return .box (← elementType defaults d)
    else return .ref (← typeOf id)
  | _ => return .ref (← typeOf id)

/-
  The type of a subprogram, given the type of any symbol. A
  subroutine with alternate returns yields an index.
-/
def signatureType (typeOf : SymbolId → Typing Ty) (d : SubprogramDetails) : Typing Ty := do
  let results ←
    match d.result with
    | some result => do pure [← typeOf result]
    | none => pure (if d.args.contains none then [.index] else [])
  let params ← (d.args.filterMap id).mapM (scope.argType defaults typeOf)
  return .function params results

/-
  The type of a symbol. Subprograms can refer to subprograms,
  and the number of symbols bounds the nesting if they do not
  refer to themselves.
-/
def typeWithin : Nat → SymbolId → Typing Ty
  | 0, _ => liftM (Except.error Fault.endless : Except Fault Ty)
  | fuel + 1, id => do
      let s ← scope.typedSymbol id
      match s.details with
      | .subprogram d => scope.signatureType defaults (typeWithin fuel) d
      | .object d => objectType defaults s d false false
      | _ => throw (.untyped s.name)

def symbolType (id : SymbolId) : Typing Ty :=
  scope.typeWithin defaults (scope.symbols.length + 1) id

def functionType (id : SymbolId) : Typing Ty := do
  let s ← scope.typedSymbol id
  match s.details with
  | .subprogram d => scope.signatureType defaults (scope.symbolType defaults) d
  | _ => throw (.untyped s.name)

/- The type of the storage of a variable. A store is its bytes. -/
def variableType : Variable → Typing Ty
  | .store s => return .sequence [.known (.ofNat s.size)] (.integer 8)
  | .named v => do
      let s ← scope.typedSymbol v.symbol
      match s.details with
      | .object d => objectType defaults s d v.onHeap v.isPointer
      | _ => scope.symbolType defaults v.symbol

end Scope

end FortranIR
