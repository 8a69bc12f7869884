import FortranIR.Source.Scope

/-
  This file defines the statements of a source program and the
  constructs and directives that group them.

  Main declarations:
    * `Statement`
    * `ConstructKind`
-/

namespace FortranIR

----
-- Statements
----

abbrev Label := Nat

structure Statement (α : Type) where
  label : Option Label := none
  source : String := ""
  stmt : α
deriving Repr

----
-- Input and output
----

inductive IoKind where
  | backspace
  | close
  | endfile
  | flush
  | inquire
  | open
  | print
  | read
  | rewind
  | wait
  | write
deriving DecidableEq, Repr

namespace IoKind

def name : IoKind → String
  | backspace => "BackspaceStmt"
  | close => "CloseStmt"
  | endfile => "EndfileStmt"
  | flush => "FlushStmt"
  | inquire => "InquireStmt"
  | .open => "OpenStmt"
  | print => "PrintStmt"
  | read => "ReadStmt"
  | rewind => "RewindStmt"
  | wait => "WaitStmt"
  | write => "WriteStmt"

def all : List IoKind :=
  [ backspace, close, endfile, flush, inquire, .open, print, read, rewind, wait, write ]

end IoKind

/-
  A format: the default one, a format statement, or an
  expression. An integer expression is a variable that holds
  the label of a format statement.
-/
inductive Format where
  | star
  | label (label : Label)
  | expr (category : Category)
deriving DecidableEq, Repr

inductive IoSpec where
  | err (label : Label)
  | eor (label : Label)
  | finish (label : Label)
  | format (format : Format)
  | other
deriving DecidableEq, Repr

----
-- Actions
----

/-
  The statements that are executed and are no part of a
  construct. Labels are those that a statement may branch to,
  or, in an assignment of a label, the one that is assigned.
-/
inductive Action where
  | assignment
  | continue
  | call (returns : List Label)
  | cycle (construct : Option String)
  | exit (construct : Option String)
  | goto (label : Label)
  | computedGoto (labels : List Label)
  | arithmeticIf (category : Category) (labels : List Label)
  | assign (label : Label) (symbol : SymbolId)
  | assignedGoto (symbol : SymbolId)
  | if (action : Statement Action)
  | return
  | stop
  | io (kind : IoKind) (format : Option Format) (specs : List IoSpec)
  | other (name : String)
deriving Repr

def Action.name : Action → String
  | assignment => "AssignmentStmt"
  | .continue => "ContinueStmt"
  | call _ => "CallStmt"
  | cycle _ => "CycleStmt"
  | exit _ => "ExitStmt"
  | goto _ => "GotoStmt"
  | computedGoto _ => "ComputedGotoStmt"
  | arithmeticIf _ _ => "ArithmeticIfStmt"
  | assign _ _ => "AssignStmt"
  | assignedGoto _ => "AssignedGotoStmt"
  | .if _ => "IfStmt"
  | .return => "ReturnStmt"
  | stop => "StopStmt"
  | io kind _ _ => kind.name
  | other name => name

/-
  The statements among executable ones that are not executed
  themselves.
-/
inductive NonExecutable where
  | format
  | entry (symbol : SymbolId)
  | data
  | namelist
deriving DecidableEq, Repr

def NonExecutable.name : NonExecutable → String
  | format => "FormatStmt"
  | entry _ => "EntryStmt"
  | data => "DataStmt"
  | namelist => "NamelistStmt"

----
-- Construct statements
----

inductive LoopControl where
  | bounds (category : Category)
  | while
  | concurrent (dims : Nat) (masked : Bool)
deriving DecidableEq, Repr

/-
  The kinds of statements that begin, continue or end a
  construct. A loop without control never ends by itself.
-/
inductive GuardKind where
  | do (control : Option LoopControl)
  | endDo
  | ifThen
  | elseIf
  | else
  | endIf
  | selectCase
  | case
  | endSelect
  | selectRank
  | selectRankCase
  | selectType
  | typeGuard
  | associate
  | endAssociate
  | block
  | endBlock
  | critical
  | endCritical
  | changeTeam
  | endChangeTeam
deriving DecidableEq, Repr

namespace GuardKind

def name : GuardKind → String
  | .do _ => "NonLabelDoStmt"
  | endDo => "EndDoStmt"
  | ifThen => "IfThenStmt"
  | elseIf => "ElseIfStmt"
  | .else => "ElseStmt"
  | endIf => "EndIfStmt"
  | selectCase => "SelectCaseStmt"
  | case => "CaseStmt"
  | endSelect => "EndSelectStmt"
  | selectRank => "SelectRankStmt"
  | selectRankCase => "SelectRankCaseStmt"
  | selectType => "SelectTypeStmt"
  | typeGuard => "TypeGuardStmt"
  | associate => "AssociateStmt"
  | endAssociate => "EndAssociateStmt"
  | block => "BlockStmt"
  | endBlock => "EndBlockStmt"
  | critical => "CriticalStmt"
  | endCritical => "EndCriticalStmt"
  | changeTeam => "ChangeTeamStmt"
  | endChangeTeam => "EndChangeTeamStmt"

/- The statement continues a construct with another arm. -/
def isIntermediate : GuardKind → Bool
  | elseIf => true
  | .else => true
  | case => true
  | selectRankCase => true
  | typeGuard => true
  | _ => false

/- Falling into the statement only leaves the construct. -/
def isNop (k : GuardKind) : Bool := k.isIntermediate || k = endIf

def plain : List GuardKind :=
  [ endDo, ifThen, elseIf, .else, endIf, selectCase, case,
    endSelect, selectRank, selectRankCase, selectType, typeGuard,
    associate, endAssociate, block, endBlock, critical,
    endCritical, changeTeam, endChangeTeam ]

end GuardKind

/-
  A statement that begins, continues or ends a construct, with
  the name of the construct if it gives one.
-/
structure Guard where
  kind : GuardKind
  construct : Option String := none
deriving DecidableEq, Repr

inductive ConstructKind where
  | do
  | if
  | case
  | selectRank
  | selectType
  | associate
  | block
  | critical
  | changeTeam
deriving DecidableEq, Repr

namespace ConstructKind

def name : ConstructKind → String
  | .do => "DoConstruct"
  | .if => "IfConstruct"
  | case => "CaseConstruct"
  | selectRank => "SelectRankConstruct"
  | selectType => "SelectTypeConstruct"
  | associate => "AssociateConstruct"
  | block => "BlockConstruct"
  | critical => "CriticalConstruct"
  | changeTeam => "ChangeTeamConstruct"

def all : List ConstructKind :=
  [ .do, .if, case, selectRank, selectType, associate, block, critical, changeTeam ]

/- The end of the construct may have code of its own. -/
def endsWithCode : ConstructKind → Bool
  | block => true
  | critical => true
  | changeTeam => true
  | _ => false

def isSelection : ConstructKind → Bool
  | case => true
  | selectRank => true
  | selectType => true
  | _ => false

end ConstructKind

----
-- Nodes
----

structure Arm (α : Type) where
  guard : Statement Guard
  body : List α
deriving Repr

inductive Node where
  | action (s : Statement Action)
  | nonExecutable (s : Statement NonExecutable)
  | construct (kind : ConstructKind) (arms : List (Arm Node)) (finish : Statement Guard)
  | directive (name : String) (body : List Node)
deriving Repr

end FortranIR
