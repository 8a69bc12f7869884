import FortranIR.Diagnostics
import FortranIR.Token
import FortranIR.Ty.Printer

/-
  This file defines the steps of reading the text form: a reader
  looks at one token at a time, and reports what it does not
  expect.

  A reader that meets a mistake of the lexer keeps its token, so
  it sees the same token again when it goes on.

  Main declarations:
    * `Reader`
    * `Parse.expect`
-/

namespace FortranIR

----
-- Readers
----

/-
  The state of a reader: the lexemes ahead, the current token,
  the span of the token before it, the records and the log.
-/
structure Reader where
  lexemes : List Lexeme
  current : Token := {}
  last : Span := {}
  records : RecordTable := {}
  log : Log := {}
deriving Repr

def Lexeme.report : Lexeme → Report Unit
  | token _ => pure ()
  | mistake span message => Log.report .error (some span) message
  | unreadable => Log.report .error none "read failed"

/-
  Why a reader stops: an error that has been reported, an input
  that can not be read any further, or a fault.
-/
inductive Halt where
  | reported
  | unreadable
  | fault (f : Fault)
deriving DecidableEq, Repr

abbrev Parse := EStateM Halt Reader

namespace Parse

def log (step : Report Unit) : Parse Unit := fun r =>
    match step r.log with
    | .ok () l => .ok () { r with log := l }
    | .error f l => .error (.fault f) { r with log := l }

def fail {α : Type} (span : Span) (message : String) : Parse α := do
  log (Log.report .error (some span) message)
  throw .reported

def token : Parse Token := return (← get).current

def kind : Parse TokenKind := return (← token).kind

def span : Parse Span := return (← token).span

def next : Parse Unit := do
  modify fun r => { r with last := r.current.span }
  match (← get).lexemes with
  | [] => pure ()
  | lexeme :: rest =>
    modify fun r => { r with lexemes := rest }
    log lexeme.report
    match lexeme with
    | .token t => modify fun r => { r with current := t }
    | .mistake _ _ => throw .reported
    | .unreadable => throw .unreadable

/- Go on to the next token, also past a mistake. -/
def nextAfterMistake : Parse Unit :=
  fun r =>
    match next r with
    | .error .reported after => .ok () after
    | outcome => outcome

def unexpected {α : Type} (expected : String) : Parse α := do
  let t ← token
  fail t.span s!"expected {expected}, found {t.kind.describe}"

def isAt (k : TokenKind) : Parse Bool := return (← kind) == k

def isAtChar (c : Char) : Parse Bool := isAt (.other c)

def isAtWord (word : String) : Parse Bool := isAt (.ident word)

def expect (k : TokenKind) : Parse Unit := do
  if ← isAt k then next else unexpected k.describe

def expectChar (c : Char) : Parse Unit := expect (.other c)

def expectWord (word : String) : Parse Unit := expect (.ident word)

/- Take the content of a token, if `content?` gives it. -/
def item {α : Type} (content? : TokenKind → Option α) (expected : String) : Parse α := do
  match content? (← kind) with
  | some a =>
    next
    return a
  | none => unexpected expected

----
-- Lists
----

def separated {α : Type} (thing : Parse α) : Nat → Parse (List α)
  | 0 => throw (.fault .endless)
  | fuel + 1 => do
      let a ← thing
      if ← isAtChar ',' then
        next
        return a :: (← separated thing fuel)
      else return [a]

def list {α : Type} (fuel : Nat) (opening closing : Char) (thing : Parse α) : Parse (List α) := do
  expectChar opening
  let things ←
    if ← isAtChar closing then pure [] else separated thing fuel
  expectChar closing
  return things

end Parse

----
-- The content of tokens
----

namespace TokenKind

def ident? : TokenKind → Option String
  | ident s => some s
  | _ => none

def value? : TokenKind → Option String
  | value s => some s
  | _ => none

def block? : TokenKind → Option String
  | block s => some s
  | _ => none

def symbol? : TokenKind → Option String
  | symbol s => some (s.drop 1).toString
  | _ => none

def int? : TokenKind → Option Int64
  | int n => some n
  | _ => none

def str? : TokenKind → Option String
  | str s => some s
  | _ => none

end TokenKind

end FortranIR
