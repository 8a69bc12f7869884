import FortranIR.Proofs.Flow.Closure

/-
  This file proves in which order the evaluations of a
  subprogram are walked, numbered and chained.

  A walk goes through the evaluations that are listed at the top
  of a unit, and through those that are listed in an evaluation
  right behind it. It meets what is written in the subprogram,
  in the order of the source. The executable evaluations are
  chained in that order, and entry statements point into the
  chain.

  Main declarations:
    * `FunctionUnit.Threaded`
    * `FlowTree.units_threaded`
-/

namespace FortranIR

variable {u : FunctionUnit} {id : Nat}

open Outline

----
-- Walks
----

namespace FunctionUnit

/- What is listed in an evaluation. -/
def children (u : FunctionUnit) (id : EvalId) : List EvalId :=
  (u.evals[id]?).elim [] Evaluation.children

/-
  At most `fuel` steps of a walk. The evaluations that are still
  to be met are on a stack, where those in an evaluation come
  before those behind it.
-/
def walkWithin (u : FunctionUnit) : Nat → List EvalId → List EvalId
  | 0, _ => []
  | _ + 1, [] => []
  | fuel + 1, id :: stack => id :: u.walkWithin fuel (u.children id ++ stack)

/-
  The evaluations of a unit as they are met from the top. A walk
  that meets more evaluations than there are is cut off behind
  one of them too many.
-/
def walk (u : FunctionUnit) : List EvalId :=
  u.walkWithin (u.evals.length + 1) (u.outline.map Outline.root)

/- The executable evaluations of a walk. -/
def executables (u : FunctionUnit) : List EvalId :=
  u.walk.filter fun id => (u.evals[id]?).any Evaluation.isExecutable

/-
  The evaluations of a unit are walked in the order of the
  source, each one once and before those in it. The executable
  ones are numbered in that order, each one is followed by the
  next one, and an entry statement by the first one behind it.
-/
structure Threaded (u : FunctionUnit) : Prop where
  walk : u.walk = List.range u.evals.length
  source : u.evals.map Evaluation.written = u.source.listing
  nested : ∀ c k, k ∈ u.children c → c < k ∧ u.outer? k = some c
  chain : ∀ (k : Nat) id, u.executables[k]? = some id →
      ∃ e, u.evals[id]? = some e ∧ e.place = k + 1 ∧ e.lexicalNext = u.executables[k + 1]?
  others : ∀ (id : EvalId) e, u.evals[id]? = some e → e.isExecutable = false → e.place = 0 ∧
        e.lexicalNext = if e.entrySymbol?.isSome then u.executables.find? fun n => id < n
          else none

/- A walk through outlines meets all that is in them. -/
theorem walk_of_nests : ∀ (fuel : Nat) (ts : List (Outline EvalId))
      (stack : List EvalId), (∀ t ∈ ts, ∃ outer, u.Nests outer t) → (flattenAll ts).length ≤ fuel →
      u.walkWithin fuel (ts.map Outline.root ++ stack) = flattenAll ts ++
          u.walkWithin (fuel - (flattenAll ts).length) stack
  | fuel, [], stack => by
      simp [flattenAll]
  | fuel, .node id nested :: ts, stack => by
      intro hNests hFuel
      rcases hNests _ (.head _) with ⟨outer, hEval, -, hChildren, hNested⟩
      have hAll : ∀ t ∈ nested ++ ts, ∃ outer, u.Nests outer t := by
        intro t hMember
        rcases List.mem_append.mp hMember with hIn | hIn
        · exact ⟨_, hNested t hIn⟩
        · exact hNests t (.tail _ hIn)
      have hFlat : flattenAll (.node id nested :: ts) = id :: flattenAll (nested ++ ts) := by
        rw [flattenAll, flatten, flattenAll_append, List.cons_append]
      rw [hFlat, List.length_cons] at hFuel ⊢
      cases fuel with
      | zero => cases hFuel
      | succ fuel =>
        have hRest := walk_of_nests fuel (nested ++ ts) stack hAll (Nat.le_of_succ_le_succ hFuel)
        rw [List.map_append, List.append_assoc] at hRest
        rw [List.map_cons, List.cons_append, Outline.root, walkWithin,
          children, hEval, Option.elim_some, hChildren, hRest,
          Nat.add_sub_add_right, List.cons_append]
termination_by fuel => fuel

end FunctionUnit

----
-- Links
----

/- Behind an entry of a sorted list comes the first larger one. -/
theorem find?_lt_of_pairwise {xs : List Nat} (hSorted : xs.Pairwise (· < ·))
    (hAt : xs[k]? = some n) : xs.find? (fun m => n < m) = xs[k + 1]? := by
  induction xs generalizing k with
  | nil => cases hAt
  | cons x xs ih =>
    rw [List.pairwise_cons] at hSorted
    cases k with
    | zero =>
      rw [List.getElem?_cons_zero, Option.some.injEq] at hAt
      subst hAt
      rw [List.find?_cons_of_neg (by simp)]
      cases xs with
      | nil => rfl
      | cons y ys => exact List.find?_cons_of_pos (decide_eq_true (hSorted.1 y (.head _)))
    | succ k =>
      have hBelow := hSorted.1 n (List.mem_of_getElem? hAt)
      rw [List.find?_cons_of_neg (by simpa using Nat.le_of_lt hBelow)]
      exact ih hSorted.2 hAt

namespace Evaluation

variable (es : List Evaluation)

/- The evaluation of a number is executable. -/
def executableAt (id : Nat) : Bool := (es[id]?).any isExecutable

/- The numbers of executable evaluations. -/
def executableIds : List Nat := (List.range es.length).filter (executableAt es)

theorem executableIds_congr {es fs : List Evaluation}
    (hSame : es.map isExecutable = fs.map isExecutable) : executableIds es = executableIds fs := by
  have hLength : es.length = fs.length := by simpa using congrArg List.length hSame
  rw [executableIds, hLength]
  refine List.filter_congr fun k _ => ?_
  have hAt := congrArg (·[k]?) hSame
  simp only [List.getElem?_map] at hAt
  rw [executableAt, executableAt]
  cases hLeft : es[k]? <;> cases hRight : fs[k]? <;> simp_all

theorem executableIds_pairwise : (executableIds es).Pairwise (· < ·) :=
  List.pairwise_lt_range.sublist List.filter_sublist

theorem firstExecutable?_drop : ∀ m id : Nat, es.length - id = m →
      firstExecutable? id (es.drop id) = (executableIds es).find? fun k => id ≤ k := by
  intro m
  induction m with
  | zero =>
    intro id hNone
    rw [List.drop_eq_nil_of_le (by omega), firstExecutable?, eq_comm, List.find?_eq_none]
    intro k hMember
    have hBelow := List.mem_range.mp (List.mem_of_mem_filter hMember)
    simp only [decide_eq_true_eq]
    omega
  | succ m ih =>
    intro id hMore
    have hBelow : id < es.length := by omega
    rw [List.drop_eq_getElem_cons hBelow, firstExecutable?, executableIds, List.find?_filter]
    split
    · rename_i hIs
      rw [eq_comm, List.find?_range_eq_some]
      refine ⟨?_, List.mem_range.mpr hBelow, ?_⟩
      · simp [executableAt, hBelow, hIs]
      · intro k hLess
        have hNot : ¬ id ≤ k := by omega
        simp [hNot]
    · rename_i hNot
      rw [ih (id + 1) (by omega), executableIds, List.find?_filter]
      congr 1
      funext k
      by_cases hSame : k = id
      · subst hSame
        simp [executableAt, hBelow, hNot]
      · have hIff : id + 1 ≤ k ↔ id ≤ k := by omega
        simp [hIff]

/- What the links of an evaluation are. -/
theorem getElem?_link_eq (id place : Nat) (k : Nat) : (link id place es)[k]? = es[k]?.map fun e =>
        if e.isExecutable then
          { e with
            place := place + (es.take k).countP isExecutable
            lexicalNext := firstExecutable? (id + k + 1) (es.drop (k + 1)) }
        else if e.entrySymbol?.isSome then
          { e with lexicalNext := firstExecutable? (id + k + 1) (es.drop (k + 1)) }
        else e := by
  induction es generalizing id place k with
  | nil => rfl
  | cons e es ih =>
    unfold link
    cases k with
    | zero => split <;> (try split) <;> simp_all
    | succ k =>
      have hId : id + 1 + k = id + (k + 1) := by omega
      split
      · rename_i hIs
        rw [List.getElem?_cons_succ, ih]
        simp [hIs, Nat.add_comm, Nat.add_left_comm]
      · rename_i hNot
        split <;>
          · rw [List.getElem?_cons_succ, ih, hId]
            simp [hNot]

/- How many evaluations before one of them are executable. -/
theorem countP_take (id : Nat) : (es.take id).countP isExecutable =
      (List.range id).countP (executableAt es) := by
  induction id with
  | zero => rfl
  | succ id ih =>
    rw [List.take_add_one, List.countP_append, List.range_succ,
      List.countP_append, ih, List.countP_singleton, executableAt]
    cases es[id]? with
    | none => rfl
    | some e => exact congrArg _ List.countP_singleton

theorem executableIds_eq_append (hIs : executableAt es id = true) :
    ∃ rest, executableIds es = (List.range id).filter (executableAt es) ++ id :: rest := by
  have hBelow : id < es.length := by
    by_contra hAbove
    rw [executableAt, List.getElem?_eq_none (Nat.le_of_not_lt hAbove)] at hIs
    cases hIs
  have hLength : es.length = id + (es.length - id - 1 + 1) := by omega
  refine ⟨((List.range (es.length - id - 1)).map
    fun k => id + (k + 1)).filter (executableAt es), ?_⟩
  rw [executableIds, hLength, List.range_add, List.filter_append,
    List.range_succ_eq_map, List.map_cons, List.map_map, Nat.add_zero,
    List.filter_cons_of_pos hIs, ← hLength]
  rfl

/-
  The executable evaluations are numbered, and each one is
  followed by the next one.
-/
theorem link_executable (hAt : (executableIds es)[k]? = some id) :
    ∃ e, (link 0 1 es)[id]? = some e ∧ e.place = k + 1 ∧
      e.lexicalNext = (executableIds es)[k + 1]? := by
  have hIs : executableAt es id = true := List.of_mem_filter (List.mem_of_getElem? hAt)
  rcases Option.any_eq_true _ _ |>.mp hIs with ⟨e, hEval, hExecutable⟩
  refine ⟨_, by rw [getElem?_link_eq, hEval, Option.map_some, if_pos hExecutable], ?_, ?_⟩
  · -- its place is that of its number among all of them
    rcases executableIds_eq_append es hIs with ⟨rest, hSplit⟩
    have hPlace : (executableIds es)[((List.range id).filter (executableAt es)).length]? =
          (executableIds es)[k]? := by
      rw [hAt, hSplit, List.getElem?_append_right .refl, Nat.sub_self]
      rfl
    have hInside : ((List.range id).filter (executableAt es)).length <
          (executableIds es).length := by
      rw [hSplit, List.length_append, List.length_cons]
      omega
    have hSame := (List.getElem?_inj hInside
      ((executableIds_pairwise es).imp Nat.ne_of_lt)).mp hPlace
    have hCount : (es.take id).countP isExecutable = k := by
      rw [countP_take, List.countP_eq_length_filter, hSame]
    simp only [hCount]
    exact Nat.add_comm 1 k
  · simp only [Nat.zero_add]
    rw [firstExecutable?_drop es _ _ rfl]
    exact find?_lt_of_pairwise (executableIds_pairwise es) hAt

/-
  All others have no place, and are followed by nothing but
  entry statements.
-/
theorem link_other (hBefore : es[id]? = some e₀)
    (hFresh : e₀.place = 0 ∧ e₀.lexicalNext = none) (hOther : e₀.isExecutable = false)
    (hEval : (link 0 1 es)[id]? = some e) :
    e.place = 0 ∧ e.lexicalNext = if e₀.entrySymbol?.isSome then
          (executableIds es).find? fun n => id < n
        else none := by
  rw [getElem?_link_eq, hBefore, Option.map_some, Option.some.injEq,
    hOther, if_neg Bool.false_ne_true] at hEval
  subst hEval
  split
  · refine ⟨hFresh.1, ?_⟩
    simp only [Nat.zero_add]
    exact firstExecutable?_drop es _ _ rfl
  · exact hFresh

end Evaluation

----
-- Units
----

namespace FunctionUnit

open Evaluation

/- The evaluations of a unit are walked in their order. -/
theorem walk_eq_range (hNests : ∀ t ∈ u.outline, u.Nests none t)
    (hIds : flattenAll u.outline = List.range' 0 u.evals.length) :
    u.walk = List.range u.evals.length := by
  have hLength : (flattenAll u.outline).length = u.evals.length := by rw [hIds, List.length_range']
  have hWalk := walk_of_nests (u.evals.length + 1) u.outline []
    (fun t hIn => ⟨none, hNests t hIn⟩) (by omega)
  rw [List.append_nil, hLength, Nat.add_sub_cancel_left] at hWalk
  rw [walk, hWalk, hIds, List.range_eq_range']
  exact List.append_nil _

theorem executables_eq (hWalk : u.walk = List.range u.evals.length) :
    u.executables = executableIds u.evals := by
  rw [executables, hWalk]
  rfl

/- A new unit is threaded. -/
theorem ofHead_threaded (parent : UnitParent) (source : SubprogramHead) :
    (ofHead parent source).Threaded := by
  have hWalk := walk_eq_range (ofHead_nests parent source) (ofHead_flattenAll parent source)
  rcases numbered_laid (everyNode_true source.body) with ⟨_, hNumbered⟩
  have hEvals : (ofHead parent source).evals =
        link 0 1 ((flattenAll (numbered source)).map Prod.snd) := rfl
  generalize hEs : (flattenAll (numbered source)).map Prod.snd = es at hEvals
  -- what is read without links is that of the laid out evaluations
  have hKept : ∀ {α : Type} (f : Evaluation → α), (∀ (e : Evaluation) place next,
          f { e with place, lexicalNext := next } = f e) →
        (ofHead parent source).evals.map f = es.map f := by
    intro α f hSame
    refine List.ext_getElem? fun k => ?_
    rw [hEvals, List.getElem?_map, List.getElem?_map]
    exact getElem?_link_map hSame 0 1 es k
  have hFresh : ∀ e ∈ es, e.place = 0 ∧ e.lexicalNext = none := by
    intro e hMember
    rw [← hEs] at hMember
    rcases List.mem_map.mp hMember with ⟨p, hP, rfl⟩
    rcases mem_flattenAll.mp hP with ⟨t, hIn, hAt⟩
    rcases (hNumbered.formed t hIn).part hAt with ⟨_, _, _, ⟨-, -, hBare, -, -, -, -, -⟩, -⟩
    rw [← hBare]
    exact ⟨rfl, rfl⟩
  have hIds : (ofHead parent source).executables = executableIds es := by
    rw [executables_eq hWalk]
    exact executableIds_congr (hKept isExecutable fun _ _ _ => rfl)
  refine ⟨hWalk, ?_, ?_, ?_, ?_⟩
  · rw [hKept Evaluation.written fun _ _ _ => rfl, ← hEs, List.map_map]
    exact hNumbered.written
  · intro c k hMember
    cases hEval : (ofHead parent source).evals[c]? with
    | none =>
      rw [children, hEval] at hMember
      cases hMember
    | some e =>
      rw [children, hEval] at hMember
      have hOuter := (ofHead_children hEval).2 k hMember
      exact ⟨ofHead_ordered parent source k c hOuter, hOuter⟩
  · intro k id hAt
    rw [hIds] at hAt ⊢
    rw [hEvals]
    exact link_executable es hAt
  · intro id e hEval hOther
    have hNode := getElem?_link_map (f := Evaluation.node) (fun _ _ _ => rfl) 0 1 es id
    rw [hEvals] at hEval
    rw [hEval, Option.map_some, eq_comm, Option.map_eq_some_iff] at hNode
    rcases hNode with ⟨e₀, hBefore, hSame⟩
    have hEntry : e.entrySymbol? = e₀.entrySymbol? := by rw [entrySymbol?, entrySymbol?, hSame]
    have hOther₀ : e₀.isExecutable = false := by
      rw [← hOther, isExecutable, isExecutable, isAction, isAction,
        isGuard, isGuard, action?, action?, Evaluation.guard?, Evaluation.guard?, hSame]
    rw [hIds, hEntry]
    exact link_other es hBefore (hFresh e₀ (List.mem_of_getElem? hBefore)) hOther₀ hEval

/- What the analysis leaves alone says how a unit is threaded. -/
theorem Threaded.of_alike (hThreaded : u.Threaded) (hAlike : u.Alike v) :
    v.Threaded := by
  have hChildren : v.children = u.children := by
    funext id
    have hSame := congrArg (·[id]?) (hAlike.map_eq (f := Evaluation.children) fun _ => rfl)
    rw [FunctionUnit.children, FunctionUnit.children]
    cases hLeft : v.evals[id]? <;> cases hRight : u.evals[id]? <;> simp_all
  have hStep : ∀ fuel stack, v.walkWithin fuel stack = u.walkWithin fuel stack := by
    intro fuel
    induction fuel with
    | zero => exact fun _ => rfl
    | succ fuel ih =>
      intro stack
      cases stack with
      | nil => rfl
      | cons id stack => rw [walkWithin, walkWithin, ih, hChildren]
  have hWalk : v.walk = List.range v.evals.length := by
    rw [FunctionUnit.walk, hStep, hAlike.length_eq, hAlike.outline]
    exact hThreaded.walk
  have hIds : v.executables = u.executables := by
    rw [executables_eq hWalk, executables_eq hThreaded.walk]
    exact executableIds_congr (hAlike.map_eq fun _ => rfl)
  refine ⟨hWalk, ?_, ?_, ?_, ?_⟩
  · rw [hAlike.map_eq fun _ => rfl, hThreaded.source, hAlike.source]
  · intro c k hMember
    rw [outer?, hAlike.bind_eq fun _ => rfl]
    exact hThreaded.nested c k (hChildren ▸ hMember)
  · intro k id hAt
    rw [hIds] at hAt ⊢
    rcases hThreaded.chain k id hAt with ⟨e, hEval, hPlace, hNext⟩
    rcases hAlike.symm.getElem? hEval with ⟨f, hFound, hLaid⟩
    exact ⟨f, hFound, (eq_of_laid hLaid Evaluation.place).trans hPlace,
      (eq_of_laid hLaid lexicalNext).trans hNext⟩
  · intro id f hFound hOther
    rcases hAlike.getElem? hFound with ⟨e, hEval, hLaid⟩
    have hSame : ∀ {α : Type} (g : Evaluation → α), (∀ e, g e.laid = g e) → g f = g e :=
      fun g hG => (eq_of_laid hLaid g hG).symm
    rw [hIds, hSame Evaluation.place fun _ => rfl, hSame lexicalNext fun _ => rfl,
      hSame entrySymbol? fun _ => rfl]
    rw [hSame isExecutable fun _ => rfl] at hOther
    exact hThreaded.others id e hEval hOther

end FunctionUnit

----
-- Trees
----

namespace FlowTree

/-
  Each subprogram of a program has a unit, in the order of the
  source. The evaluations of a unit are walked in the order of
  the source, numbered and chained.
-/
theorem units_threaded {options : FlowOptions} {units : List ProgramUnit} {tree : FlowTree}
    (hTree : ofProgram options units = .ok tree) :
    tree.functionUnits.map FunctionUnit.source = units.flatMap ProgramUnit.heads ∧
      ∀ u ∈ tree.functionUnits, u.Threaded := by
  refine ⟨?_, fun u hUnit => ?_⟩
  · rw [← List.forall₂_eq_eq_eq, List.forall₂_map_left_iff]
    exact (ofProgram_completes hTree).imp fun _ _ ⟨_, hRun⟩ => FunctionUnit.complete_source hRun
  · rcases ofProgram_complete hTree hUnit with ⟨parent, head, hComplete⟩
    exact (FunctionUnit.ofHead_threaded parent head).of_alike
      (FunctionUnit.complete_grows hComplete).alike

/- Two constructs, a directive and an entry, and a procedure. -/
def entries : List ProgramUnit :=
  [.subprogram (.mk
    { kind := .subroutine
      name := some "s"
      scope :=
        { symbols :=
            [{ name := "s", details := .subprogram {} },
              { name := "t", details := .subprogram {} }] }
      body :=
        [.construct .do
            [⟨⟨none, "do i = 1, n", ⟨.do (some (.bounds .integer)), none⟩⟩, [.directive "simd"
                [.action ⟨none, "if (c) x = 1", .if ⟨none, "x = 1", .assignment⟩⟩]]⟩]
            ⟨none, "end do", ⟨.endDo, none⟩⟩, .nonExecutable ⟨none, "entry t", .entry 1⟩,
          .action ⟨none, "return", .return⟩] } [.mk { kind := .function, name := some "f" } []])]

theorem units_threaded_entries : ∃ tree u, ofProgram {} entries = .ok tree ∧
      tree.functionUnits.map FunctionUnit.source = entries.flatMap ProgramUnit.heads ∧
      u ∈ tree.functionUnits ∧ u.Threaded ∧
      u.children 0 = [1, 2, 5] ∧ u.executables = [1, 3, 4, 5, 7, 8] ∧
      (u.evals[6]?).bind Evaluation.lexicalNext = some 7 := by
  have hFound : (firstUnit? {} entries).any (fun u =>
          u.children 0 == [1, 2, 5] && u.executables == [1, 3, 4, 5, 7, 8] &&
          (u.evals[6]?).bind Evaluation.lexicalNext == some 7) = true := by cbv
  rcases exists_unit (Option.any_eq_true _ _ |>.mp hFound) with ⟨tree, u, hOk, hMember, hChecks⟩
  simp only [Bool.and_eq_true, beq_iff_eq] at hChecks
  have hAll := units_threaded hOk
  exact ⟨tree, u, hOk, hAll.1, hMember, hAll.2 u hMember, hChecks.1.1, hChecks.1.2, hChecks.2⟩

end FlowTree

end FortranIR
