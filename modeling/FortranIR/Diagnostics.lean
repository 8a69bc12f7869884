import FortranIR.Fault
import FortranIR.Location

/-
  This file defines the log of diagnostics: counts of errors and
  warnings, and the text that is written for each of them.

  A message at a span is followed by an excerpt of the input, if
  the input is known. Excerpts cut lines at byte columns, which
  is a fault inside a character of several bytes; what was
  written before the excerpt stays written.

  Main declarations:
    * `Severity`
    * `Log.report`
-/

namespace FortranIR

attribute [local instance (10000)] Zero.ofOfNat0

----
-- Colours
----

inductive Colour where
  | brightRed
  | yellow
  | blue
deriving DecidableEq, Repr

def Colour.code : Colour → String
  | brightRed => "91"
  | yellow => "33"
  | blue => "34"

def paint (colours : Bool) (colour : Colour) (s : String) : String := if colours ∧ s ≠ "" then
    "\x1b[" ++ colour.code ++ "m" ++ s ++ "\x1b[0m"
  else s

----
-- The log
----

inductive Severity where
  | error
  | warning
deriving DecidableEq, Repr

def Severity.colour : Severity → Colour
  | error => .brightRed
  | warning => .yellow

def Severity.label : Severity → String
  | error => "error"
  | warning => "warning"

/-
  The diagnostics of an input. The input is known to the log if
  excerpts of it can be shown.
-/
structure Log where
  origin : String := "<buffer>"
  source : Option String := none
  colours : Bool := false
  errors : Nat := 0
  warnings : Nat := 0
  written : String := ""
deriving DecidableEq, Repr

abbrev Report := EStateM Fault Log

namespace Log

/- A log for another input, with nothing counted. -/
def reset (l : Log) (origin : String) (source : Option String) : Log := { l with
    origin := origin
    source := source
    errors := 0
    warnings := 0 }

def count (l : Log) : Severity → Log
  | .error => { l with errors := l.errors + 1 }
  | .warning => { l with warnings := l.warnings + 1 }

def write (l : Log) (s : String) : Log := { l with written := l.written ++ s }

def hasError (l : Log) : Bool := l.errors ≠ 0

end Log

----
-- Lines
----

/-
  The lines of a text. A carriage return belongs to the line
  feed behind it; the last line may have no line feed.
-/
def textLines (s : String) : List (List Char) :=
  let rec go (line : List Char) : List Char → List (List Char)
    | [] => if line = [] then [] else [line.reverse]
    | '\n' :: rest =>
      let ended :=
        match line with
        | '\r' :: more => more
        | _ => line
      ended.reverse :: go [] rest
    | c :: rest => go (c :: line) rest
  go [] s.toList

def byteLength (line : List Char) : Nat := (line.map Char.utf8Size).sum

/-
  The number of tabs among the first `bytes` bytes of a line,
  which have to be whole characters.
-/
def tabsWithin : List Char → Nat → Except Fault Nat
  | _, 0 => .ok 0
  | [], _ + 1 => .ok 0
  | c :: rest, bytes@(_ + 1) =>
    if c.utf8Size ≤ bytes then do
      let tabs ← tabsWithin rest (bytes - c.utf8Size)
      .ok (tabs + if c = '\t' then 1 else 0)
    else .error .charBoundary

/- A tab takes two columns in an excerpt. -/
def expandTabs (line : List Char) : String := String.ofList
    (line.flatMap fun c => if c = '\t' then [' ', ' '] else [c])

/- The column in the expanded line of a column of the line. -/
def expandedColumn (line : List Char) (col : Nat) : Except Fault Nat := do
  let bytes := min col (byteLength line)
  let tabs ← tabsWithin line bytes
  .ok (bytes + tabs)

----
-- Excerpts
----

def repeated (n : Nat) (c : Char) : String := String.ofList (List.replicate n c)

def padLeft (width : Nat) (s : String) : String := repeated (width - s.length) ' ' ++ s

namespace Log

/-
  The lines between the first and the last line of a span that
  an excerpt shows. Of more than four lines only the first two
  and the last one are shown, with a gap between them.
-/
def shownLines (s : Span) : List (Option Nat) := let first := s.first.line + 1
  let count := s.last.line - first
  if count ≤ 4 then (List.range count).map fun i => some (first + i)
  else [some first, some (first + 1), none, some (s.last.line - 1)]

/-
  The lines of the input that a span covers, with the span
  marked. A span before the first character of a line has no
  excerpt.
-/
def excerpt (colours : Bool) (severity : Severity) (text : String)
    (s : Span) : Except Fault String := do
  if s.first.col = 0 ∨ s.last.col = 0 then return ""
  let lines := textLines text
  let lineAt (n : Nat) : List Char := (lines[n - 1]?).getD []
  let width := (toString (s.last.line + 1)).length
  let bar := paint colours .blue "|"
  let numbered (n : Nat) : String := paint colours .blue (padLeft width (toString n)) ++ " " ++ bar
  let blank := repeated width ' ' ++ " " ++ bar
  let mark := paint colours severity.colour
  if s.first.line = s.last.line then
    let line := lineAt s.first.line
    let c1 ← expandedColumn line s.first.col
    let c2 ← expandedColumn line s.last.col
    let marker := mark (repeated (max (c2 + 1 - c1) 1) '^')
    return blank ++ "\n" ++ numbered s.first.line ++ " " ++ expandTabs line ++ "\n"
      ++ blank ++ " " ++ repeated (c1 - 1) ' ' ++ marker ++ "\n"
  let side := mark "|"
  let firstLine := lineAt s.first.line
  let start ← expandedColumn firstLine s.first.col
  let middle :=
    (shownLines s).map fun shown =>
      match shown with
      | some n =>
        numbered n ++ " " ++ side ++ " " ++ expandTabs (lineAt n) ++ "\n"
      | none => repeated width '.' ++ " " ++ bar ++ " " ++ side ++ "\n"
  let lastLine := lineAt s.last.line
  let stop ← expandedColumn lastLine s.last.col
  return blank ++ "\n" ++ numbered s.first.line ++ "   " ++ expandTabs firstLine ++ "\n"
    ++ blank ++ "  " ++ mark (repeated start '_' ++ "^") ++ "\n"
    ++ String.join middle
    ++ numbered s.last.line ++ " " ++ side ++ " "
    ++ expandTabs lastLine ++ "\n"
    ++ blank ++ " " ++ side ++ mark (repeated stop '_' ++ "^")
    ++ "\n"

----
-- Reports
----

def report (severity : Severity) (span : Option Span) (message : String) : Report Unit := do
  modify (·.count severity)
  let l ← get
  let label := paint l.colours severity.colour severity.label
  set (l.write (label ++ ": " ++ message ++ "\n"))
  match span with
  | none => pure ()
  | some s =>
    let place := paint l.colours .blue "at"
    modify (·.write ("  " ++ place ++ " " ++ l.origin ++ ":" ++ s.first.render ++ "\n"))
    match l.source with
    | none => pure ()
    | some text =>
      match excerpt l.colours severity text s with
      | .ok shown => modify (·.write shown)
      | .error fault => throw fault
    modify (·.write "\n")

def counted (n : Nat) (word : String) : String := if n = 1 then s!"{n} {word}"
  else s!"{n} {word}s"

def summary (l : Log) : Log := let errors := paint l.colours .brightRed (counted l.errors "error")
  let warnings := paint l.colours .yellow (counted l.warnings "warning")
  match l.errors, l.warnings with
  | 0, 0 => l
  | _, 0 => l.write (errors ++ " emitted\n")
  | 0, _ => l.write (warnings ++ " emitted\n")
  | _, _ => l.write (errors ++ " and " ++ warnings ++ " emitted\n")

end Log

end FortranIR
