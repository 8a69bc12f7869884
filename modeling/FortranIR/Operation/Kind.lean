/-
  This file defines the kinds of operations and the linkages of
  globals.

  Main declarations:
    * `OpKind`
    * `OpKind.isSelect`
-/

namespace FortranIR

----
-- Kinds of operations
----

inductive OpKind where
  | constant
  | undefined
  | alloca
  | allocMem
  | freeMem
  | load
  | store
  | convert
  | addF
  | subF
  | mulF
  | divF
  | addI
  | subI
  | mulI
  | cmpF
  | cmpI
  | call
  | embox
  | boxAddr
  | genTypeDesc
  | addressOf
  | ifOp
  | doLoop
  | iterateWhile
  | result
  | select
  | selectCase
  | selectRank
  | selectType
  | br
  | condBr
  | ret
  | unreachable
  | func
  | global
  | hasValue
  | dispatchTable
  | dtEntry
deriving DecidableEq, Repr, Inhabited

namespace OpKind

def name : OpKind → String
  | constant => "fir.constant"
  | undefined => "fir.undefined"
  | alloca => "fir.alloca"
  | allocMem => "fir.allocmem"
  | freeMem => "fir.freemem"
  | load => "fir.load"
  | store => "fir.store"
  | convert => "fir.convert"
  | addF => "fir.addf"
  | subF => "fir.subf"
  | mulF => "fir.mulf"
  | divF => "fir.divf"
  | addI => "fir.addi"
  | subI => "fir.subi"
  | mulI => "fir.muli"
  | cmpF => "fir.cmpf"
  | cmpI => "fir.cmpi"
  | call => "fir.call"
  | embox => "fir.embox"
  | boxAddr => "fir.box_addr"
  | genTypeDesc => "fir.gentypedesc"
  | addressOf => "fir.address_of"
  | ifOp => "fir.if"
  | doLoop => "fir.do_loop"
  | iterateWhile => "fir.iterate_while"
  | result => "fir.result"
  | select => "fir.select"
  | selectCase => "fir.select_case"
  | selectRank => "fir.select_rank"
  | selectType => "fir.select_type"
  | br => "br"
  | condBr => "cond_br"
  | ret => "return"
  | unreachable => "fir.unreachable"
  | func => "func"
  | global => "fir.global"
  | hasValue => "fir.has_value"
  | dispatchTable => "fir.dispatch_table"
  | dtEntry => "fir.dt_entry"

def all : List OpKind :=
  [ constant, undefined, alloca, allocMem, freeMem, load, store,
    convert, addF, subF, mulF, divF, addI, subI, mulI, cmpF, cmpI,
    call, embox, boxAddr, genTypeDesc, addressOf, ifOp, doLoop,
    iterateWhile, result, select, selectCase, selectRank,
    selectType, br, condBr, ret, unreachable, func, global,
    hasValue, dispatchTable, dtEntry ]

def ofName? (s : String) : Option OpKind := all.find? fun kind => kind.name == s

def isSelect : OpKind → Bool
  | select => true
  | selectCase => true
  | selectRank => true
  | selectType => true
  | _ => false

def isTerminator : OpKind → Bool
  | result => true
  | br => true
  | condBr => true
  | ret => true
  | unreachable => true
  | hasValue => true
  | kind => kind.isSelect

def isSymbol : OpKind → Bool
  | func => true
  | global => true
  | dispatchTable => true
  | _ => false

def isFloatBinary : OpKind → Bool
  | addF => true
  | subF => true
  | mulF => true
  | divF => true
  | _ => false

def isIntBinary : OpKind → Bool
  | addI => true
  | subI => true
  | mulI => true
  | _ => false

def isLoop : OpKind → Bool
  | doLoop => true
  | iterateWhile => true
  | _ => false

end OpKind

----
-- Linkages
----

inductive Linkage where
  | internal
  | common
  | weak
deriving DecidableEq, Repr

namespace Linkage

def name : Linkage → String
  | internal => "internal"
  | common => "common"
  | weak => "weak"

def all : List Linkage := [internal, common, weak]

def ofName? (s : String) : Option Linkage := all.find? fun linkage => linkage.name == s

end Linkage

end FortranIR
