import FortranIR.Builder
import FortranIR.Intrinsic.MathLibrary

/-
  This file defines how calls of intrinsic procedures are
  expanded into operations.

  Some procedures are expanded in place. All others become calls
  of functions of a mathematical library, each inside a wrapper
  function that is built on its first use. An error leaves what
  was created before it, except for a wrapper, which is removed.

  Main declarations:
    * `Intrinsic`
    * `Expand.libraryCall`
-/

namespace FortranIR

----
-- Intrinsic procedures
----

/- The procedures that are expanded in place. -/
inductive Intrinsic where
  | abs
  | conversion
  | max
  | min
  | mod
  | sign
deriving DecidableEq, Repr

def Intrinsic.ofName? : String → Option Intrinsic
  | "abs" => some abs
  | "dble" => some conversion
  | "int" => some conversion
  | "real" => some conversion
  | "max" => some max
  | "min" => some min
  | "mod" => some mod
  | "sign" => some sign
  | _ => none

/-
  The library for procedures that are not expanded in place, and
  whether every procedure gets a wrapper.
-/
structure IntrinsicOptions where
  library : MathLibrary := .fast
  wrapAll : Bool := false
deriving DecidableEq, Repr

abbrev Expand := ExceptT IntrinsicError Build

----
-- Names of wrappers
----

/- The code of a type in the name of a wrapper. -/
def Ty.code? : Ty → Option String
  | integer width => some s!"i{width}"
  | index => some "idx"
  | real kind => some s!"r{kind}"
  | complex kind => some s!"z{kind}"
  | logical kind => some s!"l{kind}"
  | character kind => some s!"c{kind}"
  | _ => none

/-
  The name of the wrapper for a signature, which is no legal
  name of a source program.
-/
def wrapperName (name : String) (params : List Ty)
    (result : Ty) : Except IntrinsicError String := do
  let codes ← (result :: params).mapM fun t =>
    match t.code? with
    | some code => Except.ok code
    | none => .error (.unsupportedType name t)
  return ".".intercalate ("fir" :: name :: codes)

namespace Expand

variable (options : IntrinsicOptions) (name : String)
variable (result : Ty) (args : List ValueId)

----
-- Building blocks
----

def typeOf (v : ValueId) : Build Ty := Build.read (·.typeOf v)

/- The value converted to a type, if it has another one. -/
def coerce (v : ValueId) (type : Ty) : Build ValueId := do
  if (← typeOf v) = type then return v else Build.convert v type

def declare (type : Ty) (mark : String) : Build OpId := do
  let func ← Build.edit (Module.newOp .func [] [] (.ofList
      [("sym_name", .str name), ("type", .type type), (mark, .unit)])
    1 [])
  Build.edit (Module.pushTop func)
  return func

def callOf (callee : String) (args : List ValueId) (result : Ty) : Build ValueId := do
  let call ← Build.call callee args [result]
  Build.resultOf call

def entryOf (o : OpId) (i : Nat) : Build BlockId := Build.read fun m => do
    Fault.noEntryBlock.orElse (← m.entryBlock? o i)

def choose (cond thenValue elseValue : ValueId) : Build ValueId := do
  let type ← typeOf thenValue
  let o ← Build.ifOp cond [type] true
  let thenBlock ← entryOf o 0
  let elseBlock ← entryOf o 1
  let _ ← Build.within thenBlock (Build.result [thenValue])
  let _ ← Build.within elseBlock (Build.result [elseValue])
  Build.resultOf o

def refuse {α : Type} (e : IntrinsicError) : Expand α := throw e

def look {α : Type} (f : Module → Except Fault α) : Expand α := liftM (Build.read f)

----
-- Library functions
----

/-
  A call of the closest function of the library, with the
  arguments and the result converted where they differ. The
  function is declared on its first use.
-/
def libraryCall : Expand ValueId := do
  let types ← look (·.typesOf args)
  match options.library.search name (.function types [result]) with
  | .error e => refuse e
  | .ok none => refuse (.missing name)
  | .ok (some f) =>
    if (← look (·.lookupSymbol f.symbol)).isNone then
      let _ ← declare f.symbol f.type "fir.runtime"
    let converted ← (args.zip f.params).mapM fun a => (coerce a.1 a.2 : Build ValueId)
    let value ← callOf f.symbol converted f.result
    if f.result = result then return value else Build.convert value result

----
-- Expansion in place
----

def abs (options : IntrinsicOptions) (result : Ty) : List ValueId → Expand ValueId
  | [arg] => do
      let type ← typeOf arg
      match type with
      | .integer _ =>
        let zero ← Build.constInt type 0
        let negated ← Build.binary .subI zero arg
        let isNegative ← Build.cmpI .slt arg zero
        choose isNegative negated arg
      | .real _ => libraryCall options "abs" result [arg]
      | .complex _ => libraryCall options "abs" result [arg]
      | _ => refuse (.unsupportedType "abs" type)
  | _ => refuse (.badArguments "abs")

/-
  A conversion. A second argument only selects the kind of the
  result.
-/
def conversion (name : String) (result : Ty) : List ValueId → Expand ValueId
  | [arg] => Build.convert arg result
  | [arg, _] => Build.convert arg result
  | _ => refuse (.badArguments name)

/-
  The condition under which the left one of two values is the
  larger one, or the smaller one.
-/
def leftWins (larger : Bool) (lhs rhs : ValueId) : Expand ValueId := do
  let type ← typeOf lhs
  match type with
  | .integer _ => Build.cmpI (if larger then .sgt else .slt) lhs rhs
  | .real _ => Build.cmpF (if larger then .ogt else .olt) lhs rhs
  | _ => refuse (.unsupportedType name type)

/-
  The largest or smallest one of two or more values. If the left
  one of two values is no number, the right one is taken.
-/
def extremum (name : String) (larger : Bool) : List ValueId → Expand ValueId
  | first :: second :: rest =>
    (second :: rest).foldlM (fun best arg => do
        let wins ← leftWins name larger best arg
        choose wins best arg)
      first
  | _ => refuse (.badArguments name)

/- The absolute value of one value with the sign of another. -/
def sign (options : IntrinsicOptions) (result : Ty) : List ValueId → Expand ValueId
  | [magnitude, signed] => do
      let positive ← abs options result [magnitude]
      match result with
      | .integer _ =>
        let zero ← Build.constInt result 0
        let negated ← Build.binary .subI zero positive
        let isNegative ← Build.cmpI .slt signed zero
        choose isNegative negated positive
      | .real _ =>
        let zero ← Build.constFloat result ⟨0⟩
        let negated ← Build.binary .subF zero positive
        let isNegative ← Build.cmpF .olt signed zero
        choose isNegative negated positive
      | _ => refuse (.unsupportedType "sign" result)
  | _ => refuse (.badArguments "sign")

def inPlace (options : IntrinsicOptions) (name : String) (result : Ty)
    (args : List ValueId) : Intrinsic → Expand ValueId
  | .abs => abs options result args
  | .conversion => conversion name result args
  | .max => extremum name true args
  | .min => extremum name false args
  | .mod => libraryCall options "mod" result args
  | .sign => sign options result args

----
-- Wrappers
----

/- The value of a procedure, inside its wrapper. -/
def body (params : List ValueId) : Expand ValueId :=
  match Intrinsic.ofName? name with
  | some procedure => inPlace options name result params procedure
  | none => libraryCall options name result params

/-
  Build the wrapper of a procedure. If its body can not be
  expanded, the wrapper is removed.
-/
def buildWrapper (name wrapper : String) (params : List Ty)
    (result : Ty) : Expand Unit := do
  let func ← declare wrapper (.function params [result]) "fir.intrinsic"
  let entry ← Build.funcBody func
  let args ← look fun m => return (← m.block entry).args
  let returned : Expand OpId := do
    Build.ret [← body options name result args]
  tryCatchThe IntrinsicError (discard (ExceptT.mk (Build.within entry returned.run))) fun e => do
      let _ ← (Build.edit (Module.removeOp func) : Build Operation)
      refuse e

def wrapped : Expand ValueId := do
  let params ← look (·.typesOf args)
  let wrapper ← ExceptT.mk (pure (wrapperName name params result))
  match ← look (·.lookupSymbol wrapper) with
  | some func =>
    let op ← look (·.op func)
    if (op.attr? "type").bind Attr.type? ≠ some (.function params [result]) then
      liftM (throw (.wrapperType wrapper) : Build Unit)
  | none => buildWrapper options name wrapper params result
  callOf wrapper args result

/-
  Expand a call of an intrinsic procedure at the insertion point
  and give its value.
-/
def intrinsicCall : Expand ValueId :=
  match Intrinsic.ofName? name with
  | none => wrapped options name result args
  | some procedure =>
    if options.wrapAll then wrapped options name result args
    else inPlace options name result args procedure

end Expand

end FortranIR
