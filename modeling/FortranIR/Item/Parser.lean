import FortranIR.Attr.Parser
import FortranIR.Item
import FortranIR.Operation.Predicate

/-
  This file reads items from the text form.

  Behind an error the reader goes on at the next operation: at
  the module level at the next line that begins with a symbol
  definition, and inside of a block at the next line that begins
  like an operation or a block, or at the end of the region.
  Nested regions are skipped as a whole.

  Main declarations:
    * `Parse.recover`
    * `Parse.nextItem`
-/

namespace FortranIR

/- What an operation consists of, apart from its results' names. -/
structure OpText where
  head : OpHead
  regions : List RegionText := []

namespace Parse

variable (fuel : Nat)

----
-- Names and operands
----

def name : Parse Name := do
  let place ← span
  let text ← item TokenKind.value? "value"
  return ⟨place, text⟩

/- Attach types to names; there have to be as many. -/
def typedNames (place : Span) (names : List Name) (types : List Ty) : Parse (List TypedName) := do
  if names.length ≠ types.length then
    fail (place.extendTo (← get).last) (s!"{names.length} operands, "
        ++ s!"but {types.length} types are given")
  return names.zipWith Name.typed types

/- Operands with their types, like `(%0, %1 : i32, f32)`. -/
def operandGroup : Parse (List TypedName) := do
  let place ← span
  expectChar '('
  if ← isAtChar ')' then
    next
    return []
  let names ← separated name fuel
  expectChar ':'
  let types ← separated (type fuel) fuel
  expectChar ')'
  typedNames place names types

/- A successor and its arguments, like `^bb1(%0 : i32)`. -/
def successor : Parse (Name × List TypedName) := do
  let place ← span
  let text ← item TokenKind.block? "successor block"
  let args ←
    if ← isAtChar '(' then operandGroup fuel else pure []
  return (⟨place, text⟩, args)

def sizes (ns : List Nat) : Attr := .ints (ns.map Int64.ofNat)

----
-- Operations without regions
----

/- The form that fits every operation without regions. -/
def generic (kind : OpKind) : Parse OpText := do
  let place ← span
  let names ← list fuel '(' ')' name
  let attrs ←
    if ← isAtChar '\x7b' then attrMap fuel else pure {}
  expectChar ':'
  let (params, results) ← signature fuel
  let operands ← typedNames place names params
  return { head := { kind, operands, attrs, resultTypes := results } }

/- A constant, like `fir.constant 1.5 : f32`. -/
def constant : Parse OpText := do
  let value ← attr fuel
  expectChar ':'
  let t ← type fuel
  return {
    head := {
      kind := .constant
      attrs := .ofList [("value", value)]
      resultTypes := [t] } }

def predicateIndex? (kind : OpKind) (text : String) : Option Nat := if kind = .cmpF then
    (FloatPredicate.ofName? text).map FloatPredicate.index
  else (IntPredicate.ofName? text).map IntPredicate.index

/- A comparison, like `fir.cmpf "olt", %0, %1 : f32`. -/
def comparison (kind : OpKind) : Parse OpText := do
  let place ← span
  let text ← item TokenKind.str? "predicate"
  match predicateIndex? kind text with
  | none =>
    fail place s!"invalid predicate \"{text}\" of '{kind.name}'"
  | some i =>
    expectChar ','
    let lhs ← name
    expectChar ','
    let rhs ← name
    expectChar ':'
    let t ← type fuel
    return {
      head := {
        kind
        operands := [lhs.typed t, rhs.typed t]
        attrs := .ofList [("predicate", .int (Int64.ofNat i))]
        resultTypes := [.i1] } }

/- A branch, like `br ^bb1(%0 : i32)`. -/
def branch : Parse OpText := do
  let (dest, args) ← successor fuel
  return { head := { kind := .br, operands := args, successors := [dest] } }

/- A branch on a condition, like `cond_br %c, ^bb1, ^bb2`. -/
def condBranch : Parse OpText := do
  let cond ← name
  expectChar ','
  let (thenDest, thenArgs) ← successor fuel
  expectChar ','
  let (elseDest, elseArgs) ← successor fuel
  return {
    head := {
      kind := .condBr
      operands := cond.typed .i1 :: thenArgs ++ elseArgs
      attrs := .ofList
        [("target_operand_offsets",
          sizes [thenArgs.length, elseArgs.length])]
      successors := [thenDest, elseDest] } }

structure CaseText where
  tag : Attr
  compare : List TypedName
  dest : Name
  args : List TypedName

def compareNames (t : Ty) : Nat → Parse (List TypedName)
  | 0 => throw (.fault .endless)
  | fuel + 1 => do
      match ← kind with
      | .value _ =>
        let n ← name
        expectChar ','
        return n.typed t :: (← compareNames t fuel)
      | _ => return []

def caseText (kind : OpKind) (t : Ty) : Parse CaseText := do
  let tag ← attr fuel
  expectChar ','
  let compare ←
    if kind = .selectCase then compareNames t fuel else pure []
  let (dest, args) ← successor fuel
  return { tag, compare, dest, args }

/-
  A multi-way branch, like
  `fir.select_case %0 : i32 [#fir.point, %1, ^bb1, unit, ^bb2]`.
-/
def multiway (kind : OpKind) : Parse OpText := do
  let selector ← name
  expectChar ':'
  let t ← type fuel
  let cases ← list fuel '[' ']' (caseText fuel kind t)
  return {
    head := {
      kind
      operands := selector.typed t
        :: cases.flatMap CaseText.compare
        ++ cases.flatMap CaseText.args
      attrs := .ofList [
        ("cases", .array (cases.map CaseText.tag)),
        ("compare_operand_offsets",
          sizes (cases.map fun c => c.compare.length)),
        ("target_operand_offsets",
          sizes (cases.map fun c => c.args.length)) ]
      successors := cases.map CaseText.dest } }

----
-- Operations with regions
----

/- The condition of a loop that iterates while it holds. -/
def loopCondition (kind : OpKind) : Parse (List TypedName) := do
  if kind = .iterateWhile then
    expectWord "and"
    return [(← name).typed .i1]
  else return []

/- The mark of a counting loop without an order. -/
def loopFlag (kind : OpKind) : Parse AttrMap := do
  if kind ≠ .iterateWhile then
    if ← isAtWord "unordered" then
      next
      return .ofList [("unordered", .unit)]
  return {}

/-
  A loop, like `fir.do_loop %lb to %ub step %st unordered
  iter_args(%x : f32) …` or `fir.iterate_while %lb to %ub step
  %st and %ok …`, if `region` reads regions.
-/
def loop (region : Parse RegionText) (kind : OpKind) : Parse OpText := do
  let lower ← name
  expectWord "to"
  let upper ← name
  expectWord "step"
  let step ← name
  let cond ← loopCondition kind
  let attrs ← loopFlag kind
  let inits ←
    if ← isAtWord "iter_args" then
      next
      operandGroup fuel
    else
      pure []
  let body ← region
  let bounds := [lower, upper, step].map fun n => n.typed .index
  return {
    head := {
      kind
      operands := bounds ++ cond ++ inits
      attrs
      resultTypes :=
        cond.map TypedName.type ++ inits.map TypedName.type }
    regions := [body] }

/- A conditional, like `fir.if %c -> (i32) … else …`. -/
def conditional (region : Parse RegionText) : Parse OpText := do
  let cond ← name
  let resultTypes ←
    if ← isAt .arrow then
      next
      list fuel '(' ')' (type fuel)
    else
      pure []
  let thenRegion ← region
  let elseRegion ←
    if ← isAtWord "else" then
      next
      region
    else
      pure []
  return {
    head := {
      kind := .ifOp
      operands := [cond.typed .i1]
      resultTypes }
    regions := [thenRegion, elseRegion] }

def optional (region : Parse RegionText) : Parse RegionText := do
  if ← isAtChar '\x7b' then region else return []

/- A function, like `func @foo : (i32) -> () …`. -/
def function (region : Parse RegionText) : Parse OpText := do
  let symbol ← item TokenKind.symbol? "function name"
  expectChar ':'
  let place ← span
  let t ← type fuel
  if !t.isFunction then
    let shown := t.render (← get).records
    fail place s!"expected function type, found '{shown}'"
  let body ← optional region
  return {
    head := {
      kind := .func
      attrs := .ofList
        [("sym_name", .str symbol), ("type", .type t)] }
    regions := [body] }

def linkage? : Parse (List (String × Attr)) := do
  let t ← token
  match t.kind with
  | .ident word =>
    match Linkage.ofName? word with
    | some l =>
      next
      return [("linkage", .str l.name)]
    | none =>
      fail t.span (s!"invalid linkage '{word}', " ++ "expected 'internal', 'common' or 'weak'")
  | _ => return []

def initial? : Parse (List (String × Attr)) := do
  if ← isAtChar '(' then
    next
    let value ← attr fuel
    expectChar ')'
    return [("init_val", value)]
  else return []

def constantFlag? : Parse (List (String × Attr)) := do
  if ← isAtWord "constant" then
    next
    return [("constant", .unit)]
  else return []

/- A global, like `fir.global internal @x (1) constant : i32`. -/
def global (region : Parse RegionText) : Parse OpText := do
  let linkage ← linkage?
  let symbol ← item TokenKind.symbol? "global name"
  let init ← initial? fuel
  let flag ← constantFlag?
  expectChar ':'
  let t ← type fuel
  let body ← optional region
  return {
    head := {
      kind := .global
      attrs := .ofList
        (linkage ++ [("sym_name", .str symbol)] ++ init ++ flag
          ++ [("type", .type t)]) }
    regions := [body] }

/- A table of procedures, like `fir.dispatch_table @t …`. -/
def dispatchTable (region : Parse RegionText) : Parse OpText := do
  let symbol ← item TokenKind.symbol? "dispatch table name"
  let body ← optional region
  return {
    head := {
      kind := .dispatchTable
      attrs := .ofList [("sym_name", .str symbol)] }
    regions := [body] }

def opText (region : Parse RegionText) (kind : OpKind) : Parse OpText :=
  match kind with
  | .func => function fuel region
  | .global => global fuel region
  | .dispatchTable => dispatchTable region
  | .doLoop | .iterateWhile => loop fuel region kind
  | .ifOp => conditional fuel region
  | .cmpF | .cmpI => comparison fuel kind
  | .constant => constant fuel
  | .br => branch fuel
  | .condBr => condBranch fuel
  | .select | .selectCase | .selectRank | .selectType => multiway fuel kind
  | _ => generic fuel kind

----
-- Recovery
----

def symbolWords : List String := ["func", "fir.global", "fir.dispatch_table"]

/- A token that can begin an operation or a block. -/
def beginsItem (top : Bool) : TokenKind → Bool
  | .ident word => !top || symbolWords.contains word
  | .value _ => !top
  | .block _ => !top
  | _ => false

/-
  Recovery stops before a token, if the token `last` before it
  was skipped.
-/
def stopsAt (top : Bool) (last : Span) (t : Token) : Bool := t.kind == .finish
    || (!top && t.kind == .other '\x7d')
    || (!last.sameLine t.span && beginsItem top t.kind)

/- The depth of nested regions behind a token. -/
def depthAfter (depth : Nat) (k : TokenKind) : Nat := if k = .other '\x7b' then depth + 1
  else if k = .other '\x7d' then depth - 1
  else depth

/-
  Skip tokens up to the next item. The item in place of the
  skipped text ends with the last skipped token. A region that
  is never closed has no item behind it.
-/
def recover (top : Bool) : Nat → Nat → Span → Span → Parse Item
  | 0, _, _, _ => throw (.fault .endless)
  | fuel + 1, depth, last, skipped => do
      let t ← token
      if depth = 0 && stopsAt top last t then return .error skipped
      nextAfterMistake
      recover top fuel (depthAfter depth t.kind) t.span (skipped.extendTo t.span)

def recovering (top : Bool) (reading : Parse Item) : Parse Item := do
  let place ← span
  fun r =>
    match reading r with
    | .error .reported after => recover top (after.lexemes.length + 2) 0 place place after
    | outcome => outcome

----
-- Blocks
----

def endsBlock : TokenKind → Bool
  | .block _ => true
  | .other c => c == '\x7d'
  | .finish => true
  | _ => false

/- The items of a block, if `op` reads operations. -/
def blockItems (op : Parse Item) : Nat → Parse (List Item)
  | 0 => throw (.fault .endless)
  | fuel + 1 => do
      if endsBlock (← kind) then return []
      let i ← recovering false op
      return i :: (← blockItems op fuel)

def blockArg : Parse TypedName := do
  let n ← name
  expectChar ':'
  return n.typed (← type fuel)

/- A block, like `^bb0(%0: index):` and its operations. -/
def block (op : Parse Item) : Parse (BlockText Item) := do
  let place ← span
  let label ← item TokenKind.block? "block header"
  let args ←
    if ← isAtChar '(' then list fuel '(' ')' (blockArg fuel) else pure []
  expectChar ':'
  let whole := place.extendTo (← get).last
  let items ← blockItems op fuel
  return { head := { span := whole, name := label, args }, items }

def blocks (fuel : Nat) (op : Parse Item) : Nat → Parse RegionText
  | 0 => throw (.fault .endless)
  | count + 1 => do
      let k ← kind
      if k = .other '\x7d' ∨ k = .finish then return []
      let b ← block fuel op
      return b :: (← blocks fuel op count)

def region (op : Parse Item) : Parse RegionText := do
  expectChar '\x7b'
  let bs ← blocks fuel op fuel
  expectChar '\x7d'
  return bs

----
-- Operations
----

def resultNames : Parse (List Name) := do
  match ← kind with
  | .value _ =>
    let names ← separated name fuel
    expectChar '='
    return names
  | _ => return []

def opKind : Parse OpKind := do
  let place ← span
  let word ← item TokenKind.ident? "operation name"
  match OpKind.ofName? word with
  | some k => return k
  | none => fail place s!"unknown operation '{word}'"

/- An operation, with regions nested at most as deep as `fuel`. -/
def operation : Nat → Parse Item
  | 0 => throw (.fault .endless)
  | fuel + 1 => do
      let place ← span
      let results ← resultNames fuel
      let k ← opKind
      let text ← opText fuel (region fuel (operation fuel)) k
      let whole := place.extendTo (← get).last
      let count := text.head.resultTypes.length
      if results.length ≠ count then
        fail whole (s!"'{k.name}' defines {count} results, "
            ++ s!"but {results.length} names are given")
      return .operation whole { text.head with results } text.regions

/-
  The next item of the module level, or the span of the end of
  the text. Every nesting takes a lexeme, so there are as many
  lexemes as levels.
-/
def nextItem : Parse (Except Span Item) := do
  let t ← token
  if t.kind = .finish then return .error t.span
  let fuel := (← get).lexemes.length + 4
  return .ok (← recovering true (operation fuel))

/-
  Go to the first token, past the mistakes before it. An input
  that can not be read counts as empty.
-/
def first : Nat → Parse Unit
  | 0 => pure ()
  | fuel + 1 => fun r =>
    match next r with
    | .error .reported after => first fuel after
    | .error .unreadable after => .ok () after
    | outcome => outcome

end Parse

----
-- Texts
----

namespace Reader

/- All items of a text, and how it ends. -/
structure Items where
  items : List Item
  ending : Except Halt Span
  reader : Reader

def itemsFrom : Nat → Reader → Items
  | 0, r => ⟨[], .error (.fault .endless), r⟩
  | fuel + 1, r =>
    match Parse.nextItem r with
    | .error halt after => ⟨[], .error halt, after⟩
    | .ok (.error span) after => ⟨[], .ok span, after⟩
    | .ok (.ok i) after =>
      let rest := itemsFrom fuel after
      { rest with items := i :: rest.items }

def items (r : Reader) : Items := match Parse.first (r.lexemes.length + 1) r with
  | .error halt after => ⟨[], .error halt, after⟩
  | .ok () after => itemsFrom (after.lexemes.length + 2) after

end Reader

end FortranIR
