import FortranIR.Assembly
import FortranIR.Item.Parser
import FortranIR.Token.Lexer

/-
  This file reads modules from the text form.

  Reading goes on behind errors, so that all of them are
  reported, until there are too many. There is a module only if
  there are no errors.

  Main declarations:
    * `ReadError`
    * `Module.read`
-/

namespace FortranIR

----
-- Outcomes
----

inductive ReadError where
  | erroneous
  | tooManyErrors
  | unreadable
deriving DecidableEq, Repr

namespace ReadError

/- Reading stopped before the end of the text. -/
def isFatal : ReadError → Bool
  | erroneous => false
  | tooManyErrors => true
  | unreadable => true

def message (e : ReadError) : String := if e.isFatal then "fatal error" else "error"

end ReadError

/-
  What reading leaves behind: the module or the reason why there
  is none, the handles that are free, the records and the log.
-/
structure Reading where
  outcome : Except Fault (Except ReadError Module)
  handles : Handles
  records : RecordTable
  log : Log

----
-- Reading
----

/- The number of errors behind which reading goes on. -/
def errorLimit : Nat := 20

def Log.reportPlain (l : Log) (message : String) : Log :=
  match Log.report .error none message l with
  | .ok _ after => after
  | .error _ after => after

def Halt.outcome : Halt → Except Fault (Except ReadError Module)
  | reported => .ok (.error .erroneous)
  | unreadable => .ok (.error .unreadable)
  | fault f => .error f

def finishReading (r : Reader) (d : Draft) : Reading :=
  let log := r.log.summary
  { outcome :=
      .ok (if log.hasError then .error .erroneous else .ok d.module)
    handles := d.module.handles
    records := r.records
    log := log }

def readItems : Nat → Reader → Draft → Reading
  | 0, r, d => {
      outcome := .error .endless
      handles := d.module.handles
      records := r.records
      log := r.log }
  | fuel + 1, r, d =>
    match Parse.nextItem r with
    | .error halt after => {
        outcome := halt.outcome
        handles := d.module.handles
        records := after.records
        log := after.log }
    | .ok (.error _) after => finishReading after d
    | .ok (.ok i) after =>
      let draft := { d with log := after.log }
      match Assemble.top after.records i draft with
      | .error fault d' => {
          outcome := .error fault
          handles := d'.module.handles
          records := after.records
          log := d'.log }
      | .ok () d' =>
        if errorLimit < d'.log.errors then {
          outcome := .ok (.error .tooManyErrors)
          handles := d'.module.handles
          records := after.records
          log := d'.log.reportPlain
            "too many errors are generated, aborted" }
        else
          readItems fuel { after with log := d'.log } d'

/-
  Read a module. The handles of its entities begin where those
  of other modules end, and the records may be known already.
-/
def Module.read (handles : Handles) (records : RecordTable) (log : Log) (input : Input) : Reading :=
  let lexemes := input.lexemes
  let start : Reader := { lexemes, records, log }
  match Parse.first (lexemes.length + 1) start with
  | .error halt after => {
      outcome := halt.outcome
      handles := handles
      records := after.records
      log := after.log }
  | .ok () r =>
    readItems (r.lexemes.length + 2) r { module := Module.emptyAfter handles }

end FortranIR
