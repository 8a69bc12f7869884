import FortranIR.Source.Scope
import FortranIR.Storage.Interval

/-
  This file defines the variables that a unit has to allocate,
  and their order.

  A variable comes after the variables that its declaration
  refers to. Objects whose bytes overlap share a store, and the
  stores come first.

  Main declarations:
    * `Variable`
    * `Scope.storage`
-/

namespace FortranIR

----
-- Variables
----

structure Store where
  offset : Nat
  size : Nat
  isGlobal : Bool
  members : List SymbolId
deriving DecidableEq, Repr

/-
  An object with its depth, the height of the references in its
  declaration, and the offset of the store that it is part of.
-/
structure NamedVariable where
  symbol : SymbolId
  depth : Nat
  isGlobal : Bool
  onHeap : Bool
  isPointer : Bool
  isTarget : Bool
  store : Option Nat
deriving DecidableEq, Repr

inductive Variable where
  | store (s : Store)
  | named (v : NamedVariable)
deriving DecidableEq, Repr

namespace Variable

def depth : Variable → Nat
  | store _ => 0
  | named v => v.depth

def symbol? : Variable → Option SymbolId
  | store _ => none
  | named v => some v.symbol

def marks (flags : List (Bool × String)) : String :=
  String.join ((flags.filter Prod.fst).map fun f => ", " ++ f.2)

def render (scope : Scope) : Variable → Except Fault String
  | store s => do
      let names ← s.members.mapM fun m => return (← scope.symbol m).name
      let list := ", ".intercalate names
      return s!"interval[{s.offset}, {s.size}]:" ++ marks [ (s.isGlobal, "global"),
            (!s.members.isEmpty, "vars: \x7b" ++ list ++ "\x7d") ]
  | named v => do
      let name := (← scope.symbol v.symbol).name
      return s!"symbol: {name} (depth: {v.depth})" ++ marks
          [ (v.isGlobal, "global"), (v.onHeap, "allocatable"),
            (v.isPointer, "pointer"), (v.isTarget, "target") ]
        ++ v.store.elim "" fun n => s!", equivalence({n})"

end Variable

----
-- Stores
----

def Symbol.mayOverlap (s : Symbol) : Bool := match s.details with
  | .object _ => !s.attrs.inCommon
  | _ => false

namespace Scope

/-
  The intervals that the storage of some symbols covers. Every
  symbol covers at least one byte.
-/
def intervals (symbols : List (SymbolId × Symbol)) : Except Fault IntervalSet := symbols.foldlM
    (fun set (_, s) => do
      let next ← checkedAdd s.offset (max s.size 1)
      return set.merge s.offset (next - 1))
    {}

/-
  The symbols in each interval, by its first byte, and whether
  one of them is static.
-/
def sharing (set : IntervalSet) (symbols : List (SymbolId × Symbol)) :
    Keyed (List SymbolId × Bool) :=
  symbols.foldl (fun groups (id, s) =>
      match set.find? s.offset with
      | none => groups
      | some (first, _) =>
        Keyed.adjust first ([], false) (fun g => (g.1 ++ [id], g.2 || s.isGlobal)) groups)
    []

def stores (scope : Scope) : Except Fault (List Store) := do
  if scope.equivalences.isEmpty then return []
  let symbols := scope.byName.filter fun e => e.2.mayOverlap
  let set ← intervals symbols
  return (sharing set symbols).filterMap fun (first, members, isGlobal) =>
    if members.length < 2 then none
    else (set.find? first).map fun (lo, hi) => ⟨lo, hi - lo + 1, isGlobal, members⟩

----
-- Order
----

/-
  The order as far as it is known: the depths of symbols, none
  while a symbol is visited, and the objects behind the visited
  symbols.
-/
structure Visits where
  depths : Keyed (Option Nat) := []
  listed : List NamedVariable := []

abbrev Visit := EStateM Fault Visits

def setDepth (id : SymbolId) (depth : Option Nat) : Visit Unit :=
  modify fun v => { v with depths := v.depths.insert id depth }

def storeAt (stores : List Store) (offset : Nat) : Except Fault Nat := Fault.missingStore.orElse
    ((stores.find? fun s =>
      s.offset ≤ offset ∧ offset < s.offset + s.size).map
      Store.offset)

def listObject (stores : List Store) (id : SymbolId) (s : Symbol) (depth : Nat) : Visit Nat := do
  let shared := stores.any fun t => t.members.contains id
  let store ←
    if shared then
      match storeAt stores s.offset with
      | .ok offset => pure (some offset)
      | .error f => throw f
    else pure none
  let v : NamedVariable :=
    { symbol := id, depth, isGlobal := s.isGlobal,
      onHeap := s.attrs.allocatable, isPointer := s.attrs.pointer,
      isTarget := s.attrs.target, store }
  modify fun visits => { visits with listed := visits.listed ++ [v] }
  setDepth id (some depth)
  return depth

/-
  The depth of a symbol. The symbols that its declaration refers
  to are visited first; a symbol that refers to itself counts as
  depth zero in its own declaration. Each nested visit is of
  another symbol, so the number of symbols bounds the nesting.
-/
def visit (scope : Scope) (stores : List Store) : Nat → SymbolId → Visit Nat
  | 0, _ => throw .endless
  | fuel + 1, id => do
      match (← get).depths.find? id with
      | some depth => return depth.getD 0
      | none =>
        setDepth id none
        match scope.symbol id with
        | .error f => throw f
        | .ok s =>
          match s.details with
          | .derivedType => throw (.derivedTypeSymbol s.name)
          | .object d =>
            let shared := stores.any fun t => t.members.contains id
            let depth ← d.references.foldlM (fun depth other => do
                let below ← visit scope stores fuel other
                return max depth (below + 1))
              (if shared then 1 else 0)
            listObject stores id s depth
          | _ =>
            setDepth id (some 0)
            return 0

/-
  The variables of a scope: the stores, then the objects in the
  order of their depths. Objects of one depth stay in the order
  in which they were visited.
-/
def storage (scope : Scope) : Except Fault (List Variable) := do
  let stores ← scope.stores
  let fuel := scope.symbols.length + 1
  let visitAll : Visit Unit := scope.byName.forM fun e => discard (visit scope stores fuel e.1)
  match visitAll {} with
  | .error f _ => .error f
  | .ok () visits =>
    let ordered := visits.listed.mergeSort fun a b => decide (a.depth ≤ b.depth)
    return stores.map Variable.store ++ ordered.map Variable.named

end Scope

end FortranIR
