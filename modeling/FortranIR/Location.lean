/-
  This file defines positions and spans of a text.

  Lines are counted from one. The column of a character is its
  place in the line, counted from one; column zero stands before
  the first character of a line.

  Main declarations:
    * `Pos`
    * `Span.sameLine`
-/

namespace FortranIR

----
-- Positions
----

structure Pos where
  line : Nat := 1
  col : Nat := 0
deriving DecidableEq, Repr

namespace Pos

def advance (p : Pos) (c : Char) : Pos := if c = '\n' then ⟨p.line + 1, 0⟩
  else ⟨p.line, p.col + 1⟩

def advanceAll (p : Pos) (cs : List Char) : Pos := cs.foldl advance p

def render (p : Pos) : String := s!"{p.line}:{p.col}"

end Pos

----
-- Spans
----

/- The first and the last position of a piece of text. -/
structure Span where
  first : Pos := {}
  last : Pos := {}
deriving DecidableEq, Repr

namespace Span

def point (p : Pos) : Span := ⟨p, p⟩

def extend (s : Span) (last : Pos) : Span := ⟨s.first, last⟩

def extendTo (s t : Span) : Span := s.extend t.last

def sameLine (s t : Span) : Bool := s.last.line == t.first.line

def render (s : Span) : String := s.first.render ++ "-" ++ s.last.render

end Span

end FortranIR
