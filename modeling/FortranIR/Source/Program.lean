import FortranIR.Source.Statement

/-
  This file defines source programs: subprograms with their
  bodies, modules and block data.

  Main declarations:
    * `SubprogramKind`
    * `ProgramUnit`
-/

namespace FortranIR

inductive SubprogramKind where
  | program
  | function
  | subroutine
  | moduleProcedure
deriving DecidableEq, Repr

namespace SubprogramKind

def name : SubprogramKind → String
  | program => "Program"
  | function => "Function"
  | subroutine => "Subroutine"
  | moduleProcedure => "MpSubprogram"

def all : List SubprogramKind := [program, function, subroutine, moduleProcedure]

def header (kind : SubprogramKind) (name : Option String) : String :=
  name.elim "" fun n => kind.name.toLower ++ " " ++ n

end SubprogramKind

/-
  A subprogram without those that it contains. A main program
  may have no name. The texts of its first statement and its end
  statement are only given if they are not the usual ones.
-/
structure SubprogramHead where
  kind : SubprogramKind
  name : Option String
  scope : Scope := {}
  body : List Node := []
  header? : Option String := none
  finish? : Option (Statement Unit) := none
deriving Repr

namespace SubprogramHead

def header (s : SubprogramHead) : String := s.header?.getD (s.kind.header s.name)

/-
  The end statement. Its label is a target for branches that
  leave the subprogram.
-/
def finish (s : SubprogramHead) : Statement Unit := s.finish?.getD ⟨none, "end", ()⟩

def symbol? (s : SubprogramHead) : Option SymbolId := s.name.bind s.scope.find?

end SubprogramHead

inductive Subprogram where
  | mk (head : SubprogramHead) (contains : List Subprogram)
deriving Repr

inductive ProgramUnit where
  | subprogram (s : Subprogram)
  | module (name : String) (scope : Scope) (contains : List Subprogram)
  | blockData (name : Option String) (scope : Scope)
deriving Repr

end FortranIR
