import FortranIR.Intrinsic.Distance
import FortranIR.Ty.Printer

/-
  This file defines the mathematical libraries whose functions
  implement intrinsic procedures, and the search for the
  function that is closest to a call.

  Main declarations:
    * `MathFunction`
    * `IntrinsicError`
-/

namespace FortranIR

----
-- Functions
----

/-
  A function of a library: the intrinsic procedure that it
  implements, its symbol and its signature.
-/
structure MathFunction where
  name : String
  symbol : String
  params : List Ty
  result : Ty
deriving DecidableEq, Repr

namespace MathFunction

variable (name single double : String)

def type (f : MathFunction) : Ty := .function f.params [f.result]

def render (records : RecordTable) (f : MathFunction) : String :=
  s!"{f.name} ({f.symbol}): " ++ f.type.render records

def unary (t : Ty) (name symbol : String) : MathFunction := ⟨name, symbol, [t], t⟩

def binary (t : Ty) (name symbol : String) : MathFunction := ⟨name, symbol, [t, t], t⟩

def modulus (kind : UInt8) (symbol : String) : MathFunction :=
  ⟨"abs", symbol, [.complex kind], .real kind⟩

def realUnary : List MathFunction :=
  [unary (.real 4) name single, unary (.real 8) name double]

def realBinary : List MathFunction :=
  [binary (.real 4) name single, binary (.real 8) name double]

def complexUnary : List MathFunction :=
  [ unary (.complex 4) name single, unary (.complex 8) name double ]

def moduli : List MathFunction := [modulus 4 "__mth_i_cabs", modulus 8 "__mth_i_cdabs"]

def hypotenuses : List MathFunction := realBinary "hypot" "__mth_i_hypot" "__mth_i_dhypot"

def fast : List MathFunction :=
  moduli ++ realUnary "acos" "__fs_acos_1" "__fd_acos_1"
    ++ realUnary "atan" "__fs_atan_1" "__fd_atan_1"
    ++ realUnary "cos" "__fs_cos_1" "__fd_cos_1"
    ++ complexUnary "cos" "__fc_cos_1" "__fz_cos_1"
    ++ realUnary "exp" "__fs_exp_1" "__fd_exp_1"
    ++ complexUnary "exp" "__fc_exp_1" "__fz_exp_1"
    ++ hypotenuses
    ++ realUnary "log" "__fs_log_1" "__fd_log_1"
    ++ realBinary "mod" "__fs_mod_1" "__fd_mod_1"
    ++ realBinary "pow" "__fs_pow_1" "__fd_pow_1"
    ++ realUnary "sin" "__fs_sin_1" "__fd_sin_1"
    ++ complexUnary "sin" "__fc_sin_1" "__fz_sin_1"
    ++ realUnary "sqrt" "__fs_sqrt_1" "__fd_sqrt_1"
    ++ realUnary "tan" "__fs_tan_1" "__fd_tan_1"

def relaxed : List MathFunction :=
  moduli ++ realUnary "acos" "__rs_acos_1" "__rd_acos_1"
    ++ realUnary "cos" "__rs_cos_1" "__rd_cos_1"
    ++ realUnary "exp" "__rs_exp_1" "__rd_exp_1"
    ++ hypotenuses
    ++ realUnary "log" "__rs_log_1" "__rd_log_1"
    ++ realBinary "mod" "__rs_mod_1" "__rd_mod_1"
    ++ realBinary "pow" "__rs_pow_1" "__rd_pow_1"
    ++ realUnary "sin" "__rs_sin_1" "__rd_sin_1"
    ++ realUnary "sqrt" "__rs_sqrt_1" "__rd_sqrt_1"

def precise : List MathFunction :=
  moduli ++ realUnary "acos" "__ps_acos_1" "__pd_acos_1"
    ++ realUnary "cos" "__ps_cos_1" "__pd_cos_1"
    ++ realUnary "exp" "__ps_exp_1" "__pd_exp_1"
    ++ hypotenuses
    ++ realUnary "log" "__ps_log_1" "__pd_log_1"
    ++ realBinary "mod" "__ps_mod_1" "__pd_mod_1"
    ++ realBinary "pow" "__ps_pow_1" "__pd_pow_1"
    ++ realUnary "sin" "__ps_sin_1" "__pd_sin_1"
    ++ realUnary "sqrt" "__ps_sqrt_1" "__pd_sqrt_1"

/- The functions that the code generator knows itself. -/
def llvm : List MathFunction :=
  realUnary "abs" "llvm.fabs.f32" "llvm.fabs.f64" ++ realUnary "cos" "llvm.cos.f32" "llvm.cos.f64"
    ++ realUnary "log" "llvm.log.f32" "llvm.log.f64"
    ++ realUnary "log10" "llvm.log10.f32" "llvm.log10.f64"
    ++ realUnary "sin" "llvm.sin.f32" "llvm.sin.f64"
    ++ realUnary "sqrt" "llvm.sqrt.f32" "llvm.sqrt.f64"

end MathFunction

----
-- Errors
----

inductive IntrinsicError where
  | missing (name : String)
  | losesPrecision (name : String)
  | badArguments (name : String)
  | unsupportedType (name : String) (type : Ty)
deriving DecidableEq, Repr

def IntrinsicError.message (records : RecordTable) : IntrinsicError → String
  | missing name => s!"missing intrinsic: {name}"
  | losesPrecision name => s!"runtime selection of `{name}` loses precision"
  | badArguments name => s!"bad arguments of `{name}`"
  | unsupportedType name type =>
    let text := type.render records
    s!"`{name}` does not support type `{text}`"

----
-- Libraries
----

inductive MathLibrary where
  | fast
  | relaxed
  | precise
  | llvm
deriving DecidableEq, Repr, Inhabited

namespace MathLibrary

def name : MathLibrary → String
  | fast => "fast"
  | relaxed => "relaxed"
  | precise => "precise"
  | llvm => "llvm"

def all : List MathLibrary := [fast, relaxed, precise, llvm]

def ofName (s : String) : Except String MathLibrary := match all.find? fun l => l.name == s with
  | some l => .ok l
  | none => .error s!"unknown math runtime version `{s}`"

/-
  The functions of a library, in the order of the search. The
  functions of the code generator come last.
-/
def functions : MathLibrary → List MathFunction
  | fast => MathFunction.fast ++ MathFunction.llvm
  | relaxed => MathFunction.relaxed ++ MathFunction.llvm
  | precise => MathFunction.precise ++ MathFunction.llvm
  | llvm => MathFunction.llvm

def candidates (l : MathLibrary) (name : String) : List MathFunction :=
  l.functions.filter fun f => f.name == name

/-
  Keep the closer one of the best function so far and another
  function. The earlier one stays when both are equally close,
  and an infinitely far one is never taken.
-/
def closer (call : Ty) (best : Option (MathFunction × Distance))
    (f : MathFunction) : Option (MathFunction × Distance) :=
  let d := Distance.between call f.type
  match best with
  | none => if d.isInfinite then none else some (f, d)
  | some (_, least) =>
    if d.compare least = .lt then some (f, d) else best

def closest? (call : Ty) (fs : List MathFunction) : Option (MathFunction × Distance) :=
  fs.foldl (closer call) none

/-
  The function for a call of an intrinsic procedure: the first
  one of exactly that type, or else the closest one, if that
  does not lose precision.
-/
def search (l : MathLibrary) (name : String)
    (call : Ty) : Except IntrinsicError (Option MathFunction) :=
  let fs := l.candidates name
  match fs.find? fun f => f.type = call with
  | some f => .ok (some f)
  | none =>
    match closest? call fs with
    | none => .ok none
    | some (f, d) =>
      if d.losesPrecision then .error (.losesPrecision name) else .ok (some f)

end MathLibrary

end FortranIR
