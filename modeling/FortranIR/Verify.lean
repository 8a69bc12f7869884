import FortranIR.Attr.Printer
import FortranIR.Diagnostics
import FortranIR.Module.Parts
import FortranIR.Operation.Predicate

/-
  This file defines the verification of modules: every operation
  has to have the operands, results, attributes, regions and
  place that its kind asks for.

  Verification stops at the first operation at fault. Looking at
  an entity that does not exist is a fault of the caller, and
  not a complaint about the module.

  Main declarations:
    * `VerifyError`
    * `Module.verify`
-/

namespace FortranIR

structure VerifyError where
  op : OpId
  span : Option Span
  message : String
deriving DecidableEq, Repr

/- A check of a module: a complaint, a fault, or an answer. -/
abbrev Check := ExceptT VerifyError (Except Fault)

def Check.complaint? (check : Check Unit) : Except Fault (Option VerifyError) := do
  match ← check.run with
  | .ok () => return none
  | .error e => return some e

def VerifyError.log (e : VerifyError) : Report Unit := Log.report .error e.span e.message

namespace Module

variable (records : RecordTable) (m : Module) (o : OpId) (op : Operation)

----
-- Complaints
----

def reject {α : Type} (m : Module) (o : OpId) (message : String) : Check α := do
  let op ← (m.op o : Except Fault Operation)
  throw {
    op := o
    span := op.span
    message := s!"'{op.kind.name}' op {message}" }

def ensure (cond : Bool) (message : String) : Check Unit :=
  if cond then pure () else m.reject o message

def checkedOp : Check Operation := (m.op o : Except Fault Operation)

def checkedType (v : ValueId) : Check Ty := (m.typeOf v : Except Fault Ty)

def checkedTypes (vs : List ValueId) : Check (List Ty) :=
  (m.typesOf vs : Except Fault (List Ty))

def operandType (i : Nat) : Check Ty := do
  let v ← (entry op.operands i : Except Fault ValueId)
  m.checkedType v

def resultType : Check Ty := do
  let v ← (op.result : Except Fault ValueId)
  m.checkedType v

def typeAttr (name : String) : Check Ty := do
  let op ← m.checkedOp o
  match (op.attr? name).bind Attr.type? with
  | some t => return t
  | none => m.reject o s!"expects a `{name}` type attribute"

def verifyCounts (operands results : Nat) : Check Unit := do
  let op ← m.checkedOp o
  m.ensure o (op.operands.length == operands)
    s!"expects {operands} operands, found {op.operands.length}"
  m.ensure o (op.results.length == results) s!"expects {results} results, found {op.results.length}"

----
-- Placement
----

/-
  Symbols are at the module level and nothing else is; the
  operations that end a block are last in it.
-/
def verifyPlacement : Check Unit := do
  let kind := (← m.checkedOp o).kind
  match m.parentBlock? o with
  | none => m.ensure o kind.isSymbol "must be nested in a region"
  | some b =>
    m.ensure o (!kind.isSymbol) "must be at module level"
    if kind.isTerminator then
      let last ← (m.terminator? b : Except Fault _)
      m.ensure o (last == some o) "must be the last operation of its block"

def verifyTerminatedBlocks (m : Module) (o : OpId) : List BlockId → Check Unit
  | [] => pure ()
  | b :: bs => do
      let last ← (m.terminator? b : Except Fault _)
      m.ensure o last.isSome "has a block that does not end with a terminator"
      m.verifyTerminatedBlocks o bs

def verifyTerminated : Check Unit := do
  (← m.checkedOp o).regions.forM fun r => do
    let blocks ← (m.regionBlocks r : Except Fault _)
    m.verifyTerminatedBlocks o blocks

----
-- Values
----

def constantFits (value : Attr) (t : Ty) : Bool := match value, t with
  | .int _, .integer _ => true
  | .int _, .index => true
  | .int _, .logical _ => true
  | .bool _, .logical _ => true
  | .bool _, .integer width => width == 1
  | .float _, .real _ => true
  | _, _ => false

def verifyConstant : Check Unit := do
  m.verifyCounts o 0 1
  let op ← m.checkedOp o
  let t ← m.resultType op
  match op.attr? "value" with
  | none => m.reject o "expects a `value` attribute"
  | some value =>
    m.ensure o (constantFits value t) s!"value does not match the result type `{t.render records}`"

/- The numbers of length parameters and of dynamic extents. -/
def allocSizes? : Option (Nat × Nat) :=
  match (op.attr? "operand_segment_sizes").bind Attr.ints? with
  | some [a, b] =>
    if 0 ≤ a ∧ 0 ≤ b then some (a.toInt.toNat, b.toInt.toNat) else none
  | _ => none

def verifyExtents (records : RecordTable) (m : Module) (o : OpId) : List ValueId → Check Unit
  | [] => pure ()
  | v :: vs => do
      let t ← m.checkedType v
      m.ensure o (t.belongsTo .integerLike)
        s!"extent operands must be integers, found `{t.render records}`"
      verifyExtents records m o vs

def verifyAlloc : Check Unit := do
  let op ← m.checkedOp o
  let onStack := op.kind == .alloca
  m.ensure o (op.results.length == 1) "expects one result"
  let inType ← m.typeAttr o "in_type"
  let shown := inType.render records
  match allocSizes? op with
  | none => m.reject o "expects `operand_segment_sizes` of two entries"
  | some (lenParams, shape) =>
    let covered := lenParams + shape
    m.ensure o (covered == op.operands.length) (s!"operand segments cover {covered} operands, "
        ++ s!"found {op.operands.length}")
    verifyExtents records m o (op.operands.drop lenParams)
    let invalid :=
      if onStack then
        match inType with
        | .ref _ => true
        | _ => false
      else inType.isReference || inType.isFunction
    m.ensure o (!invalid) s!"cannot allocate `{shown}`"
    match inType.recordComplaint? records with
    | some complaint => m.reject o complaint
    | none => pure ()
    let expectedLen := ((records.body? inType).map RecordBody.lenParams).getD 0
    m.ensure o (!inType.lenParamsMismatch records lenParams)
      s!"expects {expectedLen} length parameters for `{shown}`"
    m.ensure o (!inType.isIncomplete records shape) (s!"type `{shown}` is incomplete with {shape} "
        ++ "dynamic extents")
    let expected := if onStack then Ty.ref inType else .heap inType
    let found ← m.resultType op
    m.ensure o (found == expected) (s!"result type must be `{expected.render records}`, "
        ++ s!"found `{found.render records}`")

def verifyFreeMem : Check Unit := do
  m.verifyCounts o 1 0
  let t ← m.operandType (← m.checkedOp o) 0
  m.ensure o t.isHeap s!"expects a heap reference, found `{t.render records}`"

def verifyLoad : Check Unit := do
  m.verifyCounts o 1 1
  let op ← m.checkedOp o
  let t ← m.operandType op 0
  m.ensure o t.isReference s!"expects a reference, found `{t.render records}`"
  let found ← m.resultType op
  m.ensure o (t.element? == some found) (s!"result type `{found.render records}` does not match "
      ++ s!"`{t.render records}`")

def verifyStore : Check Unit := do
  m.verifyCounts o 2 0
  let op ← m.checkedOp o
  let value ← m.operandType op 0
  let memref ← m.operandType op 1
  m.ensure o memref.isReference s!"expects a reference, found `{memref.render records}`"
  m.ensure o (memref.element? == some value) (s!"cannot store `{value.render records}` into "
      ++ s!"`{memref.render records}`")

def verifyBinary : Check Unit := do
  m.verifyCounts o 2 1
  let op ← m.checkedOp o
  let lhs ← m.operandType op 0
  let rhs ← m.operandType op 1
  let found ← m.resultType op
  m.ensure o (lhs == rhs && lhs == found) "operand and result types must be equal"
  let fits :=
    if op.kind.isFloatBinary then lhs.belongsTo .floatLike || lhs.belongsTo .complexLike
    else lhs.belongsTo .integerLike
  m.ensure o fits s!"invalid operand type `{lhs.render records}`"

def verifyCmp : Check Unit := do
  m.verifyCounts o 2 1
  let op ← m.checkedOp o
  let lhs ← m.operandType op 0
  let rhs ← m.operandType op 1
  m.ensure o (lhs == rhs) "operand types must be equal"
  let found ← m.resultType op
  m.ensure o (found == .i1) "result must be `i1`"
  let index := (op.attr? "predicate").bind Attr.int?
  let valid :=
    if op.kind = .cmpF then (index.bind FloatPredicate.ofIndex?).isSome
    else (index.bind IntPredicate.ofIndex?).isSome
  let family := if op.kind = .cmpF then Ty.Family.floatLike else .integerLike
  m.ensure o valid "expects a valid `predicate` attribute"
  m.ensure o (lhs.belongsTo family) s!"invalid operand type `{lhs.render records}`"

/-
  Calls. Only calls of functions of the module are compared with
  a signature.
-/
def verifyCall : Check Unit := do
  let op ← m.checkedOp o
  match (op.attr? "callee").bind Attr.symbol? with
  | none => m.reject o "expects a `callee` symbol"
  | some callee =>
    match ← (m.lookupSymbol callee : Except Fault _) with
    | none => pure ()
    | some func =>
      if (← m.checkedOp func).kind = .func then
        let t ← m.typeAttr func "type"
        let (params, results) := t.signature?.getD ([], [])
        let args ← m.checkedTypes op.operands
        let rets ← m.checkedTypes op.results
        m.ensure o (args == params) (s!"arguments do not match the signature of "
            ++ s!"`@{callee}`")
        m.ensure o (rets == results) s!"results do not match the signature of `@{callee}`"

def verifyEmbox : Check Unit := do
  m.verifyCounts o 1 1
  let op ← m.checkedOp o
  let t ← m.operandType op 0
  m.ensure o t.isReference s!"expects a reference, found `{t.render records}`"
  let found ← m.resultType op
  m.ensure o (found.isBox && found.element? == t.element?)
    (s!"result type `{found.render records}` does not box " ++ s!"`{t.render records}`")

def verifyBoxAddr : Check Unit := do
  m.verifyCounts o 1 1
  let op ← m.checkedOp o
  let t ← m.operandType op 0
  m.ensure o t.isBox s!"expects a box, found `{t.render records}`"
  let found ← m.resultType op
  m.ensure o found.isReference s!"result must be a reference, found `{found.render records}`"

def verifyGenTypeDesc : Check Unit := do
  m.verifyCounts o 0 1
  let inType ← m.typeAttr o "in_type"
  let found ← m.resultType (← m.checkedOp o)
  let expected := Ty.typeDesc inType
  m.ensure o (found == expected) s!"result type must be `{expected.render records}`"

def verifyAddressOf : Check Unit := do
  m.verifyCounts o 0 1
  let op ← m.checkedOp o
  match (op.attr? "symbol").bind Attr.symbol? with
  | none => m.reject o "expects a `symbol` attribute"
  | some symbol =>
    let found ← m.resultType op
    m.ensure o found.isReference "result must be a reference"
    match ← (m.lookupSymbol symbol : Except Fault _) with
    | none => pure ()
    | some global =>
      let t ← m.typeAttr global "type"
      m.ensure o (found.element? == some t)
        (s!"result type `{found.render records}` does not match "
          ++ s!"global `@{symbol}` of type `{t.render records}`")

----
-- Structured control flow
----

def verifyIf : Check Unit := do
  let op ← m.checkedOp o
  let condition ←
    match op.operands with
    | [c] => do pure ((← m.checkedType c) == .i1)
    | _ => pure false
  m.ensure o condition "expects an `i1` condition"
  match op.regions with
  | [thenRegion, elseRegion] =>
    let thenBlocks ← (m.regionBlocks thenRegion : Except Fault _)
    let elseBlocks ← (m.regionBlocks elseRegion : Except Fault _)
    m.ensure o (thenBlocks.length == 1) "then region must have exactly one block"
    m.ensure o (decide (elseBlocks.length ≤ 1)) "else region must have at most one block"
    m.ensure o (op.results.isEmpty || !elseBlocks.isEmpty)
      "must have an else region when defining values"
    (thenBlocks ++ elseBlocks).forM fun b => do
      let info ← (m.block b : Except Fault _)
      m.ensure o info.args.isEmpty "region blocks take no arguments"
    m.verifyTerminated o
  | _ => m.reject o "expects then and else regions"

def verifyBounds (records : RecordTable) (m : Module) (o : OpId) : List ValueId → Check Unit
  | [] => pure ()
  | v :: vs => do
      let t ← m.checkedType v
      m.ensure o (t.belongsTo .integerLike)
        s!"loop bounds must be integers, found `{t.render records}`"
      verifyBounds records m o vs

def hasType (v : Option ValueId) (t : Ty) : Check Bool := match v with
  | none => pure false
  | some v => do return (← m.checkedType v) == t

/-
  The carried values of a loop agree in type with its results
  and with the arguments of its body.
-/
def verifyCarried (m : Module) (o : OpId) : List ValueId → List ValueId → List ValueId → Check Unit
  | r :: rs, i :: is, a :: as => do
      let result ← m.checkedType r
      let init ← m.checkedType i
      let arg ← m.checkedType a
      m.ensure o (result == init && init == arg) ("types mismatch between iteration operands, "
          ++ "block arguments and results")
      m.verifyCarried o rs is as
  | _, _, _ => pure ()

def verifyLoop : Check Unit := do
  let op ← m.checkedOp o
  let fixed := if op.kind = .doLoop then 3 else 4
  m.ensure o (decide (fixed ≤ op.operands.length))
    "expects lower bound, upper bound and step operands"
  m.ensure o (op.regions.length == 1) "expects one region"
  let region ← (entry op.regions 0 : Except Fault _)
  let blocks ← (m.regionBlocks region : Except Fault _)
  m.ensure o (blocks.length == 1) "body must have exactly one block"
  let parts ← (m.loopParts o : Except Fault LoopParts)
  verifyBounds records m o [parts.lower, parts.upper, parts.step]
  m.ensure o (← m.hasType parts.args.head? .index) "induction variable must be of type `index`"
  let carriedResults ←
    match parts.iterateIn with
    | none => pure op.results
    | some ok => do
        m.ensure o ((← m.checkedType ok) == .i1) "initial condition must be `i1`"
        m.ensure o (← m.hasType parts.args[1]? .i1) "second block argument must be `i1`"
        m.ensure o (← m.hasType op.results.head? .i1) "first result must be `i1`"
        pure (op.results.drop 1)
  m.ensure o (carriedResults.length == parts.inits.length
      && parts.inits.length == parts.carried.length)
    "mismatch in number of loop-carried values and defined values"
  m.verifyCarried o carriedResults parts.inits parts.carried
  m.verifyTerminated o

def verifyResult : Check Unit := do
  match ← (m.parentOp? o : Except Fault _) with
  | none => m.reject o "must be nested in a region"
  | some parent =>
    let parentOp ← m.checkedOp parent
    m.ensure o (parentOp.kind == .ifOp || parentOp.kind.isLoop)
      ("parent must be `fir.if`, `fir.do_loop` or " ++ "`fir.iterate_while`")
    let operands ← m.checkedTypes (← m.checkedOp o).operands
    let results ← m.checkedTypes parentOp.results
    m.ensure o (operands.length == results.length) (s!"parent expects {results.length} values, "
        ++ s!"found {operands.length}")
    m.ensure o (operands == results) "types do not match the results of the parent"

----
-- Branches
----

def verifySuccessor (dest : BlockId)
    (args : List ValueId) : Check Unit := do
  let region ←
    match m.parentBlock? o with
    | none => pure none
    | some b => do
        let info ← (m.block b : Except Fault _)
        pure (some info.region)
  let target ← (m.block dest : Except Fault BlockInfo)
  m.ensure o (region == some target.region) "branches to a block of another region"
  m.ensure o (← (m.isPlaced dest : Except Fault _)) "branches to an undefined block"
  let params ← m.checkedTypes target.args
  let found ← m.checkedTypes args
  m.ensure o (params == found) "successor arguments do not match the block arguments"

def verifySuccessors (m : Module) (o : OpId) : List BlockId → List (List ValueId) → Check Unit
  | b :: bs, args :: rest => do
      m.verifySuccessor o b args
      m.verifySuccessors o bs rest
  | _, _ => pure ()

def isIntCase : Attr → Bool
  | .int _ => true
  | .unit => true
  | _ => false

def isTypeCase : Attr → Bool
  | .type _ => true
  | .unit => true
  | _ => false

/- Every case compares with as many operands as its tag says. -/
def verifyCaseOperands (records : RecordTable) (m : Module)
    (o : OpId) : List Attr → List (List ValueId) → Check Unit
  | tag :: tags, operands :: rest => do
      m.ensure o (tag.caseOperands == operands.length) (s!"case `{tag.render records}` expects "
          ++ s!"{tag.caseOperands} compare operands, "
          ++ s!"found {operands.length}")
      verifyCaseOperands records m o tags rest
  | _, _ => pure ()

def verifySelect : Check Unit := do
  let kind := (← m.checkedOp o).kind
  match ← (m.trySelectParts o : Except Fault _) with
  | .error complaint => m.reject o complaint
  | .ok parts =>
    let selector ← m.checkedType parts.selector
    match kind with
    | .selectCase =>
      m.ensure o (parts.cases.all Attr.isCase) "invalid case attribute"
      verifyCaseOperands records m o parts.cases parts.compare.toLists
    | .selectType =>
      m.ensure o selector.isBox "selector must be a box"
      m.ensure o (parts.cases.all isTypeCase) "cases must be types or `unit`"
    | _ =>
      m.ensure o (selector.belongsTo .integerLike) "selector must be an integer"
      m.ensure o (parts.cases.all isIntCase) "cases must be integers or `unit`"
    if kind ≠ .selectCase then
      m.ensure o parts.compare.items.isEmpty "takes no compare operands"
    m.ensure o (decide (parts.cases.count .unit ≤ 1)) "has more than one default case"
    m.verifySuccessors o parts.dests parts.targets.toLists

/- The sum of two sizes that may be negative. -/
def branchSizes : Except Fault Int :=
  match (op.attr? "target_operand_offsets").bind Attr.ints? with
  | some [a, b] => checkedInt (a.toInt + b.toInt)
  | _ => .ok (-1)

def verifyCondBr : Check Unit := do
  let op ← m.checkedOp o
  m.ensure o (op.successors.length == 2) "expects two successors"
  m.ensure o (← m.hasType op.operands.head? .i1) "expects an `i1` condition"
  let covered ← (branchSizes op : Except Fault Int)
  m.ensure o (covered == (op.operands.length : Int) - 1)
    "target operand offsets do not match the operands"
  op.successors.zipIdx.forM fun (dest, i) => do
    let args ← (m.successorOperands o i : Except Fault _)
    m.verifySuccessor o dest args

def verifyBr : Check Unit := do
  let op ← m.checkedOp o
  match op.successors with
  | [dest] => m.verifySuccessor o dest op.operands
  | _ => m.reject o "expects one successor"

def verifyReturn : Check Unit := do
  let parent ← (m.parentOp? o : Except Fault (Option OpId))
  let func ←
    match parent with
    | none => pure none
    | some p => do
        if (← m.checkedOp p).kind = .func then pure (some p) else pure none
  match func with
  | none => m.reject o "must be in a function body"
  | some func =>
    let t ← m.typeAttr func "type"
    let expected := (t.signature?.map Prod.snd).getD []
    let values ← m.checkedTypes (← m.checkedOp o).operands
    m.ensure o (values == expected) "returned values do not match the function results"

----
-- The module level
----

def verifyFunc : Check Unit := do
  let op ← m.checkedOp o
  m.ensure o op.symName?.isSome "expects a `sym_name` attribute"
  let t ← m.typeAttr o "type"
  match t.signature? with
  | none => m.reject o s!"type `{t.render records}` is not a function type"
  | some (params, _) =>
    match ← (m.entryBlock? o 0 : Except Fault _) with
    | none => pure ()
    | some b =>
      let info ← (m.block b : Except Fault BlockInfo)
      let args ← m.checkedTypes info.args
      m.ensure o (args == params) "entry block arguments do not match the parameters"
    m.verifyTerminated o

def verifyLinkage : Check Unit :=
  match op.attr? "linkage" with
  | none => pure ()
  | some linkage =>
    m.ensure o (linkage.str?.bind Linkage.ofName?).isSome
      s!"invalid linkage `{linkage.render records}`"

def initializerValue? (b : BlockId) : Except Fault (Option ValueId) := do
  match ← m.terminator? b with
  | none => return none
  | some last =>
    let op ← m.op last
    match op.kind, op.operands with
    | .hasValue, [v] => return some v
    | _, _ => return none

def verifyGlobal : Check Unit := do
  let op ← m.checkedOp o
  m.ensure o op.symName?.isSome "expects a `sym_name` attribute"
  let t ← m.typeAttr o "type"
  match t.recordComplaint? records with
  | some complaint => m.reject o complaint
  | none => pure ()
  verifyLinkage records m o op
  let region ← (entry op.regions 0 : Except Fault RegionId)
  let blocks ← (m.regionBlocks region : Except Fault _)
  match blocks with
  | [] => pure ()
  | b :: _ =>
    m.ensure o (op.attr? "init_val").isNone "has both an initial value and an initializer region"
    match ← (m.initializerValue? b : Except Fault _) with
    | none => m.reject o "initializer region must end with `fir.has_value`"
    | some v =>
      let found ← m.checkedType v
      m.ensure o (found == t) (s!"initial value of type `{found.render records}` "
          ++ s!"does not match `{t.render records}`")

def verifyHasValue : Check Unit := do
  m.verifyCounts o 1 0
  let inGlobal ←
    match ← (m.parentOp? o : Except Fault (Option OpId)) with
    | none => pure false
    | some p => do pure ((← m.checkedOp p).kind == .global)
  m.ensure o inGlobal "must be in the initializer of a global"

def verifyDispatchTable : Check Unit := do
  let op ← m.checkedOp o
  m.ensure o op.symName?.isSome "expects a `sym_name` attribute"
  op.regions.forM fun r => do
    let blocks ← (m.regionBlocks r : Except Fault _)
    blocks.forM fun b => do
      let ops ← (m.blockOps b : Except Fault _)
      ops.forM fun inner => do
        m.ensure o ((← m.checkedOp inner).kind == .dtEntry) "may only contain `fir.dt_entry`"

def verifyDtEntry : Check Unit := do
  let op ← m.checkedOp o
  m.ensure o ((op.attr? "method").bind Attr.str?).isSome "expects a `method` name"
  m.ensure o ((op.attr? "proc").bind Attr.symbol?).isSome "expects a `proc` symbol"
  let inTable ←
    match ← (m.parentOp? o : Except Fault (Option OpId)) with
    | none => pure false
    | some p => do
        pure ((← m.checkedOp p).kind == .dispatchTable)
  m.ensure o inTable "must be in a dispatch table"

----
-- Operations and modules
----

def verifyOperands (m : Module) (o : OpId) : List ValueId → Check Unit
  | [] => pure ()
  | v :: vs => do
      let info ← (m.value v : Except Fault ValueInfo)
      m.ensure o (info.defined != .placeholder) "uses an undefined value"
      m.verifyOperands o vs

def verifyKind (records : RecordTable) (m : Module) (o : OpId) : OpKind → Check Unit
  | .constant => verifyConstant records m o
  | .undefined => m.verifyCounts o 0 1
  | .alloca | .allocMem => verifyAlloc records m o
  | .freeMem => verifyFreeMem records m o
  | .load => verifyLoad records m o
  | .store => verifyStore records m o
  | .convert => m.verifyCounts o 1 1
  | .addF | .subF | .mulF | .divF | .addI | .subI | .mulI => verifyBinary records m o
  | .cmpF | .cmpI => verifyCmp records m o
  | .call => m.verifyCall o
  | .embox => verifyEmbox records m o
  | .boxAddr => verifyBoxAddr records m o
  | .genTypeDesc => verifyGenTypeDesc records m o
  | .addressOf => verifyAddressOf records m o
  | .ifOp => m.verifyIf o
  | .doLoop | .iterateWhile => verifyLoop records m o
  | .result => m.verifyResult o
  | .select | .selectCase | .selectRank | .selectType => verifySelect records m o
  | .br => m.verifyBr o
  | .condBr => m.verifyCondBr o
  | .ret => m.verifyReturn o
  | .unreachable => m.verifyCounts o 0 0
  | .func => verifyFunc records m o
  | .global => verifyGlobal records m o
  | .hasValue => m.verifyHasValue o
  | .dispatchTable => m.verifyDispatchTable o
  | .dtEntry => m.verifyDtEntry o

/- An operation, without the operations nested in it. -/
def verifyOp : Check Unit := do
  let op ← m.checkedOp o
  m.verifyOperands o op.operands
  m.verifyPlacement o
  verifyKind records m o op.kind

def verifySymbols (m : Module) : List String → List OpId → Check Unit
  | _, [] => pure ()
  | seen, o :: rest => do
      match (← m.checkedOp o).symName? with
      | none => m.verifySymbols seen rest
      | some name =>
        m.ensure o (!seen.contains name) s!"redefinition of symbol `@{name}`"
        m.verifySymbols (name :: seen) rest

def verify : Check Unit := do
  m.verifySymbols [] m.top
  let ops ← (m.walk : Except Fault (List OpId))
  ops.forM (verifyOp records m)

end Module

end FortranIR
