import FortranIR.Proofs.Flow.References
import FortranIR.Proofs.Storage.Order

/-
  This file proves for which programs the flow tree exists.

  A unit can be analyzed if its constructs have the statements of
  their kinds, what its statements refer to is there, and its last
  evaluation is a target for branches of its own. The traversal
  then finds in each state what it looks up.

  Main declarations:
    * `SubprogramHead.Analyzable`
    * `Analyze.list_returns`
    * `FlowTree.ofProgram_returns`
-/

namespace FortranIR

variable {id : EvalId} {scope : Scope}

open Outline Evaluation ConstructKind Node

variable {es : List Evaluation} {e : Evaluation}

----
-- Subprograms
----

/- The labels that an evaluation refers to. -/
def Evaluation.labels (e : Evaluation) : List Label := e.action?.elim [] Action.labels

/- The variables of a scope can be ordered. -/
structure Scope.Allocates (scope : Scope) : Prop where
  fits : scope.Fits
  plain : ∀ s ∈ scope.symbols, s.details ≠ .derivedType
  resolved : scope.Resolved

/- A symbol is a subprogram whose result is in the scope. -/
def Scope.HasSubprogram (scope : Scope) (symbol : Option SymbolId) : Prop :=
  ∃ id s d, symbol = some id ∧ scope.symbols[id]? = some s ∧ s.details = .subprogram d ∧
    ∀ r, d.result = some r → r < scope.symbols.length

/- The action is an `if` that does nothing. -/
def Action.isIdleIf : Action → Bool
  | .if ⟨_, _, a⟩ => a.innermost.isContinue
  | _ => false

namespace SubprogramHead

/-
  The body ends with an `if` that does nothing, which is taken
  for the target of branches to the end.
-/
def endsWithIdleIf (s : SubprogramHead) : Bool := s.finish.label.isNone && s.body.getLast?.any fun
    | .action st => st.stmt.isIdleIf
    | _ => false

/-
  A subprogram whose constructs have the statements of their
  kinds, and that refers to labels, constructs and symbols that
  are there.
-/
structure Analyzable (s : SubprogramHead) : Prop where
  constructs : Node.everyNode ConstructKind.completes s.body = true
  references : Node.nodesReferIn {} s.body = true
  labels : ∀ e ∈ s.listing, ∀ label ∈ e.labels, ∃ f ∈ s.listing, f.label = some label
  entries : ∀ e ∈ s.listing, ∀ symbol, e.entrySymbol? = some symbol →
      s.scope.HasSubprogram (some symbol) ∧ s.scope.HasSubprogram s.symbol?
  scope : s.scope.Allocates
  finish : s.endsWithIdleIf = false

end SubprogramHead

/- The scopes and subprograms of a program unit can be analyzed. -/
structure ProgramUnit.Analyzable (p : ProgramUnit) : Prop where
  heads : ∀ s ∈ p.heads, s.Analyzable
  scope : ∀ name scope contains, p = .module name scope contains → scope.Allocates

----
-- Actions of conditions
----

/- An `if` is followed by its action. -/
def Evaluation.Paired : List Evaluation → Prop
  | [] => True
  | e :: es =>
    (e.isConditional = true → ∃ f, es.head? = some f ∧ f.isAction = true) ∧ Evaluation.Paired es

namespace Evaluation

theorem Paired.append (hFirst : Paired es) (hRest : Paired fs) :
    Paired (es ++ fs) := by
  induction es with
  | nil => exact hRest
  | cons e es ih =>
    rw [List.cons_append]
    refine ⟨fun hIs => ?_, ih hFirst.2⟩
    rcases hFirst.1 hIs with ⟨f, hHead, hAction⟩
    refine ⟨f, ?_, hAction⟩
    rw [List.head?_append, hHead]
    rfl

theorem Paired.getElem? (hPaired : Paired es) (hAt : es[k]? = some e)
    (hIs : e.isConditional = true) : ∃ f, es[k + 1]? = some f ∧ f.isAction = true := by
  induction es generalizing k with
  | nil => cases hAt
  | cons g es ih =>
    cases k with
    | zero =>
      rw [List.getElem?_cons_zero, Option.some.injEq] at hAt
      subst hAt
      rcases hPaired.1 hIs with ⟨f, hHead, hAction⟩
      refine ⟨f, ?_, hAction⟩
      rw [List.getElem?_cons_succ, ← hHead, List.head?_eq_getElem?]
    | succ k => exact ih hPaired.2 hAt

/- What is written tells which evaluations are paired. -/
theorem Paired.of_written (hPaired : Paired (es.map written)) : Paired es := by
  induction es with
  | nil => trivial
  | cons e es ih =>
    refine ⟨fun hIs => ?_, ih hPaired.2⟩
    rcases hPaired.1 hIs with ⟨f, hHead, hAction⟩
    rw [List.head?_map, Option.map_eq_some_iff] at hHead
    rcases hHead with ⟨g, hG, rfl⟩
    exact ⟨g, hG, hAction⟩

/- A statement that is no `if`. -/
theorem Paired.single (hNot : e.isConditional = false) : Paired [e] :=
  ⟨fun hIs => absurd (hNot.symm.trans hIs) Bool.false_ne_true, trivial⟩

theorem Paired.cons (hNot : e.isConditional = false) (hRest : Paired es) : Paired (e :: es) :=
  (Paired.single hNot).append hRest

end Evaluation

theorem Evaluation.isFollowed_of_guard (hNode : e.node = .guard g) :
    e.isFollowed = true := by simp [isFollowed, isExecutable, isGuard, guard?, hNode]

theorem Evaluation.isFollowed_of_isAction (hAction : e.isAction = true) : e.isFollowed = true := by
  rw [isFollowed, isExecutable, hAction]
  rfl

theorem Evaluation.isAction_of_isConditional (hIs : e.isConditional = true) :
    e.isAction = true := by
  rw [isConditional] at hIs
  split at hIs
  · rename_i hNode
    exact isAction_iff.mpr ⟨_, hNode⟩
  · cases hIs

open Evaluation in
theorem Action.listing_paired : ∀ (a : Action) (e : Evaluation), e.node = .action a →
      Paired (e :: a.listing)
  | .if ⟨_, source, a⟩, e => by
      intro _
      exact ⟨fun _ => ⟨_, rfl, rfl⟩, listing_paired a _ rfl⟩
  | .assignment, e | .continue, e | .call _, e | .cycle _, e |
    .exit _, e | .goto _, e | .computedGoto _, e |
    .arithmeticIf _ _, e | .assign _ _, e | .assignedGoto _, e |
    .return, e | .stop, e | .io _ _ _, e | .other _, e =>
      fun hNode => .single (by rw [isConditional, hNode])

namespace Node

open Evaluation

mutual

theorem listing_paired : ∀ n : Node, Paired n.listing
  | .action s => by
      exact s.stmt.listing_paired _ rfl
  | .nonExecutable s => by
      exact .single rfl
  | .construct kind as finish => by
      exact .cons rfl ((armsListing_paired as).append (.single rfl))
  | .directive name body => by
      exact .cons rfl (nodesListing_paired body)

theorem nodesListing_paired : ∀ ns : List Node, Paired (nodesListing ns)
  | [] => by
      trivial
  | n :: rest => by
      exact (listing_paired n).append (nodesListing_paired rest)

theorem armsListing_paired : ∀ as : List (Arm Node), Paired (armsListing as)
  | [] => by
      trivial
  | a :: rest => by
      exact (armListing_paired a).append (armsListing_paired rest)

theorem armListing_paired : ∀ a : Arm Node, Paired (armListing a)
  | ⟨guard, body⟩ => by
      exact .cons rfl (nodesListing_paired body)

end

theorem nodesListing_append (ns ms : List Node) :
    nodesListing (ns ++ ms) = nodesListing ns ++ nodesListing ms := by
  induction ns with
  | nil => rw [List.nil_append, nodesListing, List.nil_append]
  | cons n ns ih => rw [List.cons_append, nodesListing, nodesListing, ih, List.append_assoc]

end Node

/-
  A subprogram ends with a target for branches that is not the
  action of an `if`.
-/
theorem SubprogramHead.listing_eq_concat {s : SubprogramHead} (hFinish : s.endsWithIdleIf = false) :
    ∃ es e, s.listing = es ++ [e] ∧ Evaluation.Paired es ∧ e.node = .action .continue := by
  rw [listing]
  split
  · rename_i hEnds
    rw [Bool.and_eq_true] at hEnds
    rcases Option.any_eq_true _ _ |>.mp hEnds.1 with ⟨n, hLast, hContinue⟩
    rw [endsWithIdleIf, hEnds.2, hLast, Option.any_some] at hFinish
    rcases List.getLast?_eq_some_iff.mp hLast with ⟨init, hBody⟩
    cases n with
    | action st =>
      have hStmt : st.stmt = .continue := by
        rw [Node.endsWithContinue] at hContinue
        simp only [] at hFinish
        cases hIs : st.stmt with
        | «continue» => rfl
        | «if» inner =>
          rw [hIs] at hContinue hFinish
          exact absurd (hFinish.symm.trans hContinue) Bool.false_ne_true
        | _ =>
          rw [hIs] at hContinue
          cases hContinue
      have hNone : st.stmt.listing = [] := by
        rw [hStmt]
        rfl
      refine ⟨Node.nodesListing init, st.written .action, ?_, Node.nodesListing_paired init, ?_⟩
      · rw [List.append_nil, hBody, Node.nodesListing_append,
          Node.nodesListing, Node.listing, hNone]
        rfl
      · rw [Statement.written, hStmt]
    | _ => cases hContinue
  · exact ⟨_, _, rfl, Node.nodesListing_paired s.body, rfl⟩

----
-- Guards that fall through
----

namespace ConstructKind

variable {kind : ConstructKind}

theorem isIntermediate_of_endedBy (hEnded : kind.endedBy g = true) : g.isIntermediate = false := by
  cases kind <;> cases g <;> simp [endedBy] at hEnded <;> rfl

theorem endedBy_of_completes (hCompletes : kind.completes gs g = true) :
    kind.endedBy g = true := by
  rw [completes, Bool.and_eq_true, Bool.and_eq_true] at hCompletes
  cases gs with
  | nil => cases hCompletes.1.1
  | cons first rest =>
    rw [admits, Bool.and_eq_true] at hCompletes
    exact hCompletes.1.1.2

/- The first statement of a construct with more arms stays open. -/
theorem leavesOpen_of_begunBy (hBegun : kind.begunBy g = true)
    (hContinued : kind.continuedBy h = true) : g.leavesOpen false = true := by
  cases kind <;> cases h <;> simp [continuedBy] at hContinued <;> cases g <;>
    simp [begunBy] at hBegun <;> rfl

theorem leavesOpen_of_continuedBy (hContinued : kind.continuedBy g = true) (hOther : g ≠ .else) :
    g.leavesOpen true = true := by
  cases kind <;> cases g <;> simp [continuedBy] at hContinued hOther <;> rfl

/- A guard in front of an arm that continues a construct is open. -/
theorem leavesOpen_of_completes (hCompletes : kind.completes (before ++ g :: after) last = true)
    (hIntermediate : g.isIntermediate = true) :
    before.foldl (fun opened k => k.leavesOpen opened) false = true := by
  rw [completes, Bool.and_eq_true, Bool.and_eq_true] at hCompletes
  rcases hCompletes with ⟨⟨hAdmits, hElse⟩, -⟩
  cases before with
  | nil =>
    rw [List.nil_append, admits, Bool.and_eq_true, Bool.and_eq_true] at hAdmits
    have hNop := isNop_of_begunBy hAdmits.1.1
    rw [GuardKind.isNop, hIntermediate] at hNop
    cases hNop
  | cons first rest =>
    rw [List.cons_append, admits, Bool.and_eq_true, Bool.and_eq_true, List.all_eq_true] at hAdmits
    rcases hAdmits with ⟨⟨hBegun, hContinued⟩, -⟩
    have hG := hContinued g (by simp)
    rw [List.foldl_cons, leavesOpen_of_begunBy hBegun hG]
    -- no guard of the arms in between is an `else`
    have hRest : ∀ k ∈ rest, kind.continuedBy k = true ∧ k ≠ .else := by
      intro k hIn
      refine ⟨hContinued k (List.mem_append.mpr (.inl hIn)), ?_⟩
      rintro rfl
      rw [Bool.not_eq_true', ← Bool.not_eq_true, List.contains_iff_mem] at hElse
      refine hElse ?_
      rw [List.dropLast_append_of_ne_nil (by simp)]
      exact List.mem_append.mpr (.inl (.tail first hIn))
    clear hContinued hElse
    induction rest with
    | nil => rfl
    | cons k rest ih =>
      have hK := hRest k (.head _)
      rw [List.foldl_cons, leavesOpen_of_continuedBy hK.1 hK.2]
      exact ih fun m hIn => hRest m (.tail k hIn)

end ConstructKind

----
-- Units
----

namespace FunctionUnit

variable {c : EvalId} {e : Evaluation} {kind : ConstructKind}
variable {id place : Nat} {g : Guard}

/-
  A unit that can be analyzed: what its statements refer to is
  there, and it ends with a target for branches that is not the
  action of an `if`.
-/
structure Runnable (u : FunctionUnit) : Prop where
  placed : u.Placed
  built : u.Built ConstructKind.completes
  references : ({} : Opened).Resolves u.evals
  labels : ∀ e ∈ u.evals, ∀ label ∈ e.labels, u.HasLabel label
  last : ∃ es e, u.evals = es ++ [e] ∧ Evaluation.Paired es ∧ e.node = .action .continue

variable {u : FunctionUnit}

/- An `if` waits for its action, which is at a place. -/
def Awaits (u : FunctionUnit) (c place : Nat) : Prop := c + 1 = place ∧
    ∃ f, u.evals[c]? = some f ∧ f.isConditional = true

/- The guard in front of some siblings may fall through to them. -/
def opensBehind (u : FunctionUnit) (siblings : List EvalId) : Bool :=
  ((siblings.filterMap u.guardAt?).map Guard.kind).foldl (fun opened k => k.leavesOpen opened) false

theorem opensBehind_concat (hEval : u.evals[id]? = some e) :
    u.opensBehind (siblings ++ [id]) = e.leavesOpen (u.opensBehind siblings) := by
  have hGuard : u.guardAt? id = e.guard? := by rw [guardAt?, hEval, Option.bind_some]
  rw [opensBehind, List.filterMap_append, List.filterMap_cons, hGuard,
    Evaluation.guard?, Evaluation.leavesOpen]
  cases e.node with
  | guard g =>
    rw [List.map_append, List.foldl_append]
    rfl
  | _ =>
    rw [List.filterMap_nil, List.append_nil]
    rfl

namespace Runnable

variable (hRunnable : u.Runnable)
include hRunnable

/- An evaluation that is no target for branches is not the last. -/
theorem lt_of_node_ne (hEval : u.evals[id]? = some e) (hNode : e.node ≠ .action .continue) :
    id + 1 < u.evals.length := by
  rcases hRunnable.last with ⟨es, f, hEvals, -, hLast⟩
  have hBelow := (List.getElem?_eq_some_iff.mp hEval).1
  rw [hEvals, List.length_append, List.length_singleton] at hBelow ⊢
  by_contra hAbove
  have hSame : id = es.length := by omega
  rw [hEvals, hSame, List.getElem?_append_right .refl,
    Nat.sub_self, List.getElem?_cons_zero, Option.some.injEq] at hEval
  exact hNode (hEval ▸ hLast)

theorem next?_isSome (hEval : u.evals[id]? = some e) (hFollowed : e.isFollowed = true)
    (hBelow : id + 1 < u.evals.length) : (u.next? id).isSome = true := by
  rcases hRunnable.last with ⟨es, f, hEvals, -, hLast⟩
  have hAt : u.evals[es.length]? = some f := by
    rw [hEvals, List.getElem?_append_right .refl, Nat.sub_self]
    rfl
  have hExecutable : f.isExecutable = true := by
    rw [isExecutable, isAction, action?, hLast]
    rfl
  refine hRunnable.placed.next?_isSome hEval hFollowed hAt hExecutable ?_
  rw [hEvals, List.length_append, List.length_singleton] at hBelow
  omega

/- What follows an evaluation has begun or is no end. -/
theorem follows (hPlace : id ≤ place) (hNext : (u.next? id).isSome = true) :
    u.Follows (u.begunBefore place) id := by
  rcases Option.isSome_iff_exists.mp hNext with ⟨n, hN⟩
  rcases hRunnable.placed.next?_eq_some hN with ⟨-, ⟨f, hEval, -⟩, -⟩
  refine ⟨⟨n, f, hN, hEval⟩, fun m e hM hE hNop => ?_⟩
  rcases hRunnable.placed.contains_of_nop hM hE hNop with ⟨c, kind, hOuter, hKind, hContains⟩
  refine ⟨c, hOuter, Nat.lt_of_lt_of_le ?_ hPlace, by rw [hKind]; rfl⟩
  exact hContains.lt hRunnable.placed.formed.ordered

/- What follows the last statement of a construct. -/
theorem ends (hKind : u.kindAt? id = some kind) : u.Ends (u.begunBefore id) id kind := by
  have hPlaced := hRunnable.placed
  rcases hPlaced.formed.construct hKind with ⟨-, last, -, ends, -, hLast, -, hEnds, -⟩
  rcases Option.bind_eq_some_iff.mp hEnds with ⟨e, hEval, hGuard⟩
  rw [guard?_eq_some_iff] at hGuard
  have hFollowed := isFollowed_of_guard hGuard
  have hNext := hRunnable.next?_isSome hEval hFollowed
    (hRunnable.lt_of_node_ne hEval (by rw [hGuard]; simp))
  have hFollows := hRunnable.follows (Nat.le_refl last) hNext
  refine ⟨last, e, hLast, hEval, fun _ => ⟨hFollows.next, ?_⟩⟩
  intro n f hN hF hNop
  rcases hPlaced.contains_of_nop hN hF hNop with ⟨c, kind', hOuter, hKind', hContains⟩
  refine ⟨c, hOuter, ?_, by rw [hKind']; rfl⟩
  have hDirect := hPlaced.formed.outer?_of_lastChild? hLast
  rcases hContains.cases_outer hDirect with rfl | hAround
  · -- nothing in the construct comes behind its last statement
    have hLe := hPlaced.le_lastChild? hKind hLast
      (.direct (by rw [outer?, hF, Option.bind_some, hOuter]))
    exact absurd (hPlaced.next?_eq_some hN).1 (Nat.not_lt_of_le hLe)
  · exact hAround.lt hPlaced.formed.ordered

/- A construct statement has a guard in front of it. -/
theorem chained (hKind : u.kindAt? c = some kind)
    (hChildren : u.children c = before ++ id :: after) (hGuard : u.guardAt? id = some g)
    (hIntermediate : g.kind.isIntermediate = true) : u.opensBehind before = true := by
  rcases Option.bind_eq_some_iff.mp hKind with ⟨e, hEval, hNode⟩
  rcases hRunnable.built c e kind hEval (EvalNode.construct?_eq_some_iff.mp hNode) with
    ⟨gs, ends, init, last, hCompletes, hAll, hEnds, hGuards, -⟩
  rw [children, hEval, Option.elim_some, hAll] at hChildren
  rcases List.eq_nil_or_concat after with rfl | ⟨middle, k, rfl⟩
  · -- the end of the construct does not continue it
    rw [← List.concat_eq_append, ← List.concat_eq_append, List.concat_inj] at hChildren
    rw [← hChildren.2, hEnds, Option.some.injEq] at hGuard
    subst hGuard
    have hEnded := endedBy_of_completes hCompletes
    rw [isIntermediate_of_endedBy hEnded] at hIntermediate
    cases hIntermediate
  · rw [List.concat_eq_append, ← List.cons_append, ← List.append_assoc] at hChildren
    have hInit := List.append_inj_left' hChildren rfl
    rw [hInit, List.filterMap_append, List.filterMap_cons_some hGuard] at hGuards
    rw [← hGuards, List.map_append] at hCompletes
    exact leavesOpen_of_completes hCompletes hIntermediate

/- The beginning of a loop is found at its end. -/
theorem loop (hKind : u.kindAt? c = some kind) (hIn : id ∈ u.children c)
    (hGuard : u.guardAt? id = some g) (hEndDo : g.kind = .endDo) :
    ∃ first e control, (u.children c)[0]? = some first ∧ u.evals[first]? = some e ∧
      e.guard?.map Guard.kind = some (.do control) ∧ LoopControl.fits control = true := by
  rcases g with ⟨_, name⟩
  cases hEndDo
  rcases hRunnable.placed.loop_of_endDo hGuard with ⟨d, -, hOuter, hLoop, -⟩
  cases hOuter.symm.trans (hRunnable.placed.threaded.nested c id hIn).2
  rcases (hRunnable.placed.loop hLoop).1 with ⟨control, name', hDo⟩
  rcases Option.bind_eq_some_iff.mp hDo with ⟨f, hF, hFGuard⟩
  rcases hRunnable.placed.formed.construct hLoop with ⟨first, -, -, -, hChild, -⟩
  cases hRunnable.placed.firstChild?_eq hChild
  rcases Option.bind_eq_some_iff.mp hChild with ⟨e, hEval, hFirst⟩
  refine ⟨c + 1, f, control, ?_, hF, by rw [hFGuard]; rfl, ?_⟩
  · rw [children, hEval, ← List.head?_eq_getElem?]
    exact hFirst
  · rcases Option.bind_eq_some_iff.mp hKind with ⟨e', hEval', hNode⟩
    cases hEval.symm.trans hEval'
    rcases hRunnable.built c e kind hEval (EvalNode.construct?_eq_some_iff.mp hNode) with
      ⟨gs, ends, init, last, hCompletes, hAll, -, hGuards, -⟩
    rw [completes, Bool.and_eq_true, Bool.and_eq_true] at hCompletes
    rcases hCompletes with ⟨⟨hAdmits, -⟩, hFits⟩
    -- the `do` is one of the statements of the arms
    cases init with
    | nil =>
      cases hGuards
      cases hAdmits
    | cons k rest =>
      rw [hAll, List.cons_append, List.head?_cons, Option.some.injEq] at hFirst
      rw [List.filterMap_cons_some (hFirst ▸ hDo)] at hGuards
      rw [← hGuards, List.map_cons, List.all_cons, Bool.and_eq_true] at hFits
      exact hFits.1

/- An evaluation can be analyzed, before what is in it. -/
theorem starts (hEval : u.evals[id]? = some e)
    (hSiblings : ∀ c, e.outer = some c → u.children c = siblings) {last : Option EvalId}
    (hLast : u.Followed last) (hChained : e.isIntermediate = true → last.isSome = true) :
    u.Starts (u.begunBefore id) (· = u.scopesBefore id) e.outer siblings last id e where
  action act hNode := by
    have hAction : e.isAction = true := Evaluation.isAction_iff.mpr ⟨act, hNode⟩
    have hReference := hRunnable.references.getElem? hEval hNode
    have hLabels := hRunnable.labels e (List.mem_of_getElem? hEval)
    rw [Evaluation.labels, Evaluation.action?, hNode] at hLabels
    refine ⟨?_, hLabels, ?_, ?_⟩
    · by_cases hContinue : act = .continue
      · exact .inl hContinue
      · refine .inr (hRunnable.follows (Nat.le_refl id) ?_)
        refine hRunnable.next?_isSome hEval (Evaluation.isFollowed_of_isAction hAction)
          (hRunnable.lt_of_node_ne hEval ?_)
        rw [hNode]
        exact fun hSame => hContinue (EvalNode.action.inj hSame)
    all_goals
      rintro name rfl scopes rfl
      exact hRunnable.placed.refers hReference
  guard g hNode := by
    have hIs : e.isGuard = true := by
      rw [Evaluation.isGuard, Evaluation.guard?, hNode]
      rfl
    rcases hRunnable.placed.guard id e hEval hIs with ⟨c, kind, hOuter, hKind⟩
    have hDirect : u.outer? id = some c := by rw [outer?, hEval, Option.bind_some, hOuter]
    have hGuard : u.guardAt? id = some g := by
      rw [guardAt?, hEval, Option.bind_some, Evaluation.guard?, hNode]
    refine ⟨c, hOuter, ?_, ⟨?_, by rw [hKind]; rfl⟩, ?_, ?_, hLast, ?_⟩
    · refine hRunnable.follows (Nat.le_refl id) ?_
      exact hRunnable.next?_isSome hEval (Evaluation.isFollowed_of_guard hNode)
        (hRunnable.lt_of_node_ne hEval (by rw [hNode]; simp))
    · exact hRunnable.placed.formed.ordered id c hDirect
    · exact hRunnable.placed.formed.ordered.exists_outer hEval hOuter
    · intro hIntermediate
      refine hChained ?_
      rw [Evaluation.isIntermediate, Evaluation.guard?, hNode]
      exact hIntermediate
    · intro hEndDo
      rw [← hSiblings c hOuter]
      exact hRunnable.loop hKind (hRunnable.placed.listed id c hDirect) hGuard hEndDo
  construct kind hNode := by
    refine hRunnable.ends ?_
    rw [kindAt?, hEval, Option.bind_some, hNode]
    rfl
  last := hLast

/- An evaluation can be analyzed, behind what is in it. -/
theorem stops (hEval : u.evals[id]? = some e) (hPlace : id ≤ place) {conditional : Option EvalId}
    (hWaits : ∀ c, conditional = some c → c ≠ id → u.Awaits c id) :
    u.Stops (u.begunBefore place) e.outer conditional id where
  follows := hRunnable.follows hPlace
  conditional c hSome hOther := by
    rcases hWaits c hSome hOther with ⟨hId, f, hF, hIs⟩
    rcases hRunnable.last with ⟨es, last, hEvals, hPaired, -⟩
    have hBelow := (List.getElem?_eq_some_iff.mp hEval).1
    have hLength : u.evals.length = es.length + 1 := by
      rw [hEvals, List.length_append, List.length_singleton]
    -- the action of an `if` stands before the last evaluation
    have hBefore : c < es.length := by
      rw [← hId, hLength] at hBelow
      exact Nat.lt_of_succ_lt_succ hBelow
    rw [hEvals, List.getElem?_append_left hBefore] at hF
    rcases hPaired.getElem? hF hIs with ⟨g, hG, hAction⟩
    have hInside := (List.getElem?_eq_some_iff.mp hG).1
    have hSame : e = g := by
      rw [hEvals, ← hId, List.getElem?_append_left hInside, hG, Option.some.injEq] at hEval
      exact hEval.symm
    subst hSame
    refine ⟨hRunnable.next?_isSome hEval (isFollowed_of_isAction hAction) (by omega), ?_⟩
    have hC : u.evals[c]? = some f := by rw [hEvals, List.getElem?_append_left hBefore, hF]
    exact hRunnable.next?_isSome hC
      (isFollowed_of_isAction (isAction_of_isConditional hIs)) (by omega)
  arm n f hNext hF hIntermediate := by
    rcases hRunnable.placed.contains_of_nop hNext hF
      (isNop_of_isIntermediate hIntermediate) with ⟨c, kind, -, -, hContains⟩
    have hSome := hContains.outer?_ne_none
    rw [outer?, hEval] at hSome
    rcases Option.ne_none_iff_exists.mp hSome with ⟨p, hOuter⟩
    rcases hRunnable.placed.formed.ordered.exists_outer hEval hOuter.symm with ⟨g, hG⟩
    exact ⟨p, g, hOuter.symm, hG⟩

end Runnable

end FunctionUnit

----
-- Traversals
----

namespace Analyze

open FunctionUnit

variable {u : FunctionUnit}

/-
  The analysis of a unit at a place: the constructs before it
  have begun, and what is open has a following evaluation.
-/
structure Ready (u : FunctionUnit) (place : Nat) (left : Open) (a : Analysis) : Prop where
  at_ : At u place a
  stands : Stands u (u.begunBefore place) anyScopes a
  guard : u.Followed left.guard
  waits : ∀ c, left.conditional = some c → u.Awaits c place

/- The beginning of an evaluation returns. -/
theorem begin_returns (hRunnable : u.Runnable) (options : FlowOptions)
    {place : Nat} (hEval : u.evals[place]? = some e)
    (hSiblings : ∀ c, e.outer = some c → u.children c = siblings) (hReady : Ready u place left a)
    (hChained : e.isIntermediate = true → left.guard.isSome = true) :
    ∃ left' a', begin options e.outer siblings left place a = .ok left' a' ∧ At u (place + 1) a' ∧
      Stands u (u.begunBefore (place + 1)) anyScopes a' ∧ u.Leaves place e left left' := by
  have hStands : Stands u (u.begunBefore place) (· = u.scopesBefore place) a :=
    ⟨hReady.stands.alike, hReady.at_.scopes, hReady.stands.exits, hReady.stands.control⟩
  have hLeads : Leads (Stands u (u.begunBefore place) (· = u.scopesBefore place))
        (begin options e.outer siblings left place) _ :=
    begin_leads hRunnable.placed.formed.ordered hEval
      (hRunnable.starts hEval hSiblings hReady.guard hChained)
  rcases hLeads a hStands with ⟨left', a', hRun, hBehind, hLeaves⟩
  refine ⟨left', a', hRun, ?_, ?_, hLeaves⟩
  · exact hReady.at_.begin hEval (hReady.at_.begins hEval hRun)
  · refine hBehind.weaken ?_ fun _ hAny => hAny
    rintro c ⟨hBelow, hKind⟩
    by_cases hSame : c = place
    · refine .inl ⟨hSame, ?_⟩
      rw [hSame, kindAt?, hEval] at hKind
      rcases Option.isSome_iff_exists.mp hKind with ⟨kind, hNode⟩
      rw [isConstruct, EvalNode.construct?_eq_some_iff.mp hNode]
    · exact .inr ⟨Nat.lt_of_le_of_ne (Nat.le_of_lt_succ hBelow) hSame, hKind⟩

mutual

/- An evaluation and what is in it can be analyzed. -/
theorem each_returns (hRunnable : u.Runnable) (options : FlowOptions) :
    ∀ {parent : Option EvalId} {siblings : List EvalId} {left : Open} {place n : Nat} {a : Analysis}
      (t : Outline EvalId), u.Nests parent t → flatten t = List.range' place n →
      (∀ c, parent = some c → u.children c = siblings) → Ready u place left a →
      (∀ g, u.guardAt? t.root = some g → g.kind.isIntermediate = true → left.guard.isSome = true) →
      ∃ left' a', each options parent siblings left t a = .ok left' a' ∧
        Ready u (place + n) left' a' ∧ ∀ e, u.evals[t.root]? = some e →
          left'.guard.isSome = e.leavesOpen left.guard.isSome
  | parent, siblings, left, place, n, a, .node root nested => by
      intro hNests hIds hSiblings hReady hChained
      rw [flatten, eq_comm, List.range'_eq_cons_iff] at hIds
      rcases hIds with ⟨rfl, hSome, hInside⟩
      rcases hNests with ⟨hEval, rfl, hChildren, hNested⟩
      rename_i e
      rcases begin_returns hRunnable options hEval hSiblings hReady (fun hIs => by
          rcases Option.any_eq_true _ _ |>.mp hIs with ⟨g, hG, hKind⟩
          refine hChained g ?_ hKind
          rw [root, guardAt?, hEval, Option.bind_some, hG])
        with ⟨left₁, a₁, hBegin, hAt₁, hStands₁, hLeaves⟩
      have hListed : u.children place = nested.map root := by
        rw [FunctionUnit.children, hEval, Option.elim_some, hChildren]
      rcases list_returns hRunnable options (some place) (nested.map root) {} nested []
        hNested hInside (by rintro c ⟨⟩; exact hListed) rfl
        ⟨hAt₁, hStands₁, nofun, by simp⟩ rfl with ⟨a₂, hList, hAt₂, hStands₂⟩
      have hPlace : place + 1 + (n - 1) = place + n := by omega
      rw [hPlace] at hAt₂ hStands₂
      -- an `if` that waits is the one before, or the evaluation
      have hWaits : ∀ c, left₁.conditional = some c → c ≠ place → u.Awaits c place := by
        intro c hOpen hOther
        rcases hLeaves.conditional c hOpen with ⟨hSame, -⟩ | hBefore
        · exact absurd hSame hOther
        · exact hReady.waits c hBefore
      have hDoes : Does u (u.begunBefore (place + n)) anyScopes _
            (finish options e.outer left₁ place) :=
        finish_does ⟨e, hEval⟩ (hRunnable.stops hEval (Nat.le_add_right place n) hWaits)
      rcases hDoes a₂ hStands₂ with ⟨left₂, a₃, hFinish, hStands₃, hGuard, hOpen⟩
      refine ⟨left₂, a₃, ?_, ⟨?_, hStands₃, ?_, ?_⟩, ?_⟩
      · rw [each, bind_of_ok hBegin rfl, bind_of_ok hList rfl]
        exact hFinish
      · exact hAt₂.notes (finish_notes options _ left₁ _) hFinish
      · rw [hGuard]
        exact hLeaves.last
      · intro c hStill
        rcases hOpen c hStill with ⟨rfl, hOwn⟩
        rcases hLeaves.conditional c hOwn with ⟨-, hIs⟩ | hBefore
        · -- nothing is in an `if`, so its action comes next
          have hLeaf : nested = [] := by
            have hAction := isAction_of_isConditional hIs
            rw [hRunnable.placed.leaf c e hEval (isStatement_of_isExecutable
              (by rw [isExecutable, hAction, Bool.true_or]))] at hChildren
            exact List.map_eq_nil_iff.mp hChildren.symm
          rw [hLeaf, flattenAll, eq_comm, List.range'_eq_nil_iff] at hInside
          exact ⟨by omega, e, hEval, hIs⟩
        · have hNext := (hReady.waits c hBefore).1
          omega
      · intro f hF
        rw [root, hEval, Option.some.injEq] at hF
        rw [hGuard, hLeaves.guard, hF]

/- The evaluations of a body can be analyzed. -/
theorem list_returns (hRunnable : u.Runnable) (options : FlowOptions) :
    ∀ (parent : Option EvalId) (siblings : List EvalId) (left : Open) {place n : Nat} {a : Analysis}
      (ts : List (Outline EvalId)) (before : List EvalId),
      (∀ t ∈ ts, u.Nests parent t) → flattenAll ts = List.range' place n →
      (∀ c, parent = some c → u.children c = siblings) → siblings = before ++ ts.map Outline.root →
      Ready u place left a → left.guard.isSome = u.opensBehind before → ∃ a',
        list options parent siblings left ts a = .ok () a' ∧ At u (place + n) a' ∧
        Stands u (u.begunBefore (place + n)) anyScopes a'
  | parent, siblings, left, place, n, a, [], before => by
      intro _ hIds _ _ hReady _
      rw [flattenAll, eq_comm, List.range'_eq_nil_iff] at hIds
      subst hIds
      exact ⟨a, by rw [list]; rfl, hReady.at_, hReady.stands⟩
  | parent, siblings, left, place, n, a, t :: ts, before => by
      intro hNests hIds hSiblings hSplit hReady hOpen
      rw [flattenAll, eq_comm, List.range'_eq_append_iff] at hIds
      rcases hIds with ⟨k, hCount, hFirst, hRest⟩
      rw [Nat.mul_one] at hRest
      have hNested := hNests t (.head _)
      rcases hNested with ⟨hEval, rfl, -, -⟩
      rename_i root e nested
      have hChained : ∀ g, u.guardAt? root = some g → g.kind.isIntermediate = true →
            left.guard.isSome = true := by
        intro g hGuard hIntermediate
        have hIs : e.isGuard = true := by
          rw [guardAt?, hEval, Option.bind_some] at hGuard
          rw [isGuard, hGuard]
          rfl
        rcases hRunnable.placed.guard root e hEval hIs with ⟨c, kind, hOuter, hKind⟩
        have hListed : u.children c = before ++ root :: ts.map Outline.root := by
          rw [hSiblings c hOuter, hSplit]
          rfl
        rw [hOpen]
        exact hRunnable.chained hKind hListed hGuard hIntermediate
      rcases each_returns hRunnable options _
        (hNests _ (.head _)) hFirst hSiblings hReady hChained with ⟨left₁, a₁, hEach, hReady₁, hLeft₁⟩
      rcases list_returns hRunnable options e.outer siblings left₁ ts (before ++ [root])
        (fun r hIn => hNests r (.tail _ hIn)) hRest
        hSiblings (by rw [hSplit, List.map_cons, List.append_cons]; rfl) hReady₁ (by
          rw [hLeft₁ e hEval, hOpen, opensBehind_concat hEval]) with ⟨a', hList, hAt, hStands⟩
      have hPlace : place + k + (n - k) = place + n := by omega
      rw [hPlace] at hAt hStands
      refine ⟨a', ?_, hAt, hStands⟩
      rw [list, bind_of_ok hEach rfl]
      exact hList

end

end Analyze

----
-- Complete units
----

theorem Scope.Allocates.storage_returns (hAllocates : scope.Allocates) :
    ∃ vars, scope.storage = .ok vars := by
  rcases Scope.orderable_of_fits hAllocates.fits hAllocates.plain
    hAllocates.resolved with ⟨stores, hStores, hOrderable⟩
  exact Scope.storage_returns hStores hOrderable

theorem Scope.HasSubprogram.entryPoint_returns {symbol : Option SymbolId}
    (hHas : scope.HasSubprogram symbol) :
    ∃ point, FunctionUnit.entryPoint scope symbol = .ok point := by
  rcases hHas with ⟨k, s, d, rfl, hSymbol, hDetails, hResult⟩
  have hFound : ∃ result, d.result.mapM (fun r =>
          return (r, (← scope.symbol r).size)) = (.ok result : Except Fault _) := by
    cases hSome : d.result with
    | none => exact ⟨none, rfl⟩
    | some r =>
      have hR : scope.symbol r = .ok _ := orElse_eq_ok_iff.mpr
        (List.getElem?_eq_getElem (hResult r hSome))
      refine ⟨some (r, _), bind_eq_ok_iff.mpr ⟨_, bind_eq_ok_iff.mpr ⟨_, hR, rfl⟩, rfl⟩⟩
  rcases hFound with ⟨result, hRun⟩
  refine ⟨⟨d.args.filterMap id, result⟩, bind_eq_ok_iff.mpr ⟨k, orElse_eq_ok_iff.mpr rfl,
        bind_eq_ok_iff.mpr ⟨s, orElse_eq_ok_iff.mpr hSymbol, ?_⟩⟩⟩
  rw [hDetails]
  exact bind_eq_ok_iff.mpr ⟨result, hRun, rfl⟩

namespace FunctionUnit

variable {parent : UnitParent} {source : SubprogramHead}

/- The unit of an analyzable subprogram is runnable. -/
theorem ofHead_runnable (hOk : source.Analyzable) : (ofHead parent source).Runnable := by
  have hBuilt : (ofHead parent source).Built completes := ofHead_built hOk.constructs
  have hFormed : (ofHead parent source).WellFormed := by
    refine ⟨ofHead_ordered parent source,
      fun _ _ => ofHead_guard_children, fun _ _ => ofHead_children, ?_⟩
    intro c e kind hEval hKind
    rcases hBuilt c e kind hEval hKind with ⟨gs, last, init, k, hCompletes, hRest⟩
    rw [completes, Bool.and_eq_true, Bool.and_eq_true] at hCompletes
    exact ⟨gs, last, init, k, hCompletes.1.1, hRest⟩
  have hPlaced := ofHead_placed parent hFormed
  have hSource : (ofHead parent source).evals.map written = source.listing :=
    hPlaced.threaded.source
  -- what is written does not tell evaluations of the unit apart
  have hWritten : ∀ e ∈ (ofHead parent source).evals, e.written ∈ source.listing := by
    intro e hIn
    have hListed := List.mem_map_of_mem (f := written) hIn
    rwa [hSource] at hListed
  refine ⟨hPlaced, hBuilt, ?_, ?_, ?_⟩
  · refine Opened.Resolves.of_written ?_
    rw [hSource]
    exact SubprogramHead.listing_resolves hOk.constructs hOk.references
  · intro e hIn label hLabel
    rcases hOk.labels e.written (hWritten e hIn) label hLabel with ⟨f, hF, hHas⟩
    have hF' : f ∈ (ofHead parent source).evals.map written := by rwa [hSource]
    rcases List.mem_map.mp hF' with ⟨g, hG, rfl⟩
    exact hasLabel_of_mem rfl hG hHas
  · rcases SubprogramHead.listing_eq_concat hOk.finish with ⟨es, e, hListing, hPaired, hLast⟩
    rw [← hSource, List.map_eq_append_iff] at hListing
    rcases hListing with ⟨fs, rest, hEvals, rfl, hRest⟩
    rcases List.map_eq_singleton_iff.mp hRest with ⟨f, rfl, rfl⟩
    exact ⟨fs, f, hEvals, .of_written hPaired, hLast⟩

/- A runnable unit has an evaluation that is entered first. -/
theorem firstEvaluation_returns {u : FunctionUnit} (hRunnable : u.Runnable)
    (hIds : flattenAll u.outline = List.range' 0 u.evals.length) (hAlike : u.Alike v) :
    ∃ first, v.firstEvaluation = .ok first := by
  rcases hRunnable.last with ⟨es, last, hEvals, -, -⟩
  cases hOutline : u.outline with
  | nil =>
    rw [hOutline, hEvals, List.length_append] at hIds
    cases hIds
  | cons t ts =>
    have hMember : t.root ∈ flattenAll u.outline := by
      rw [hOutline]
      exact root_mem_flattenAll (.head _)
    rw [hIds, List.mem_range'_1, Nat.zero_add] at hMember
    have hEval := List.getElem?_eq_getElem hMember.2
    rcases hAlike.symm.getElem? hEval with ⟨e, hFound, hLaid⟩
    have hTop : (v.outline.map root)[0]? = some t.root := by
      rw [hAlike.outline, hOutline]
      rfl
    unfold firstEvaluation
    simp only [entry, orElse_eq_ok_iff.mpr hTop, bind, Except.bind, eval_eq_ok_iff.mpr hFound]
    split
    · exact ⟨_, rfl⟩
    · split
      · rename_i hEntry
        have hSame := eq_of_laid hLaid entrySymbol?
        rw [hSame] at hEntry
        have hNext := hRunnable.next?_isSome hEval
          (by rw [isFollowed, hEntry, Bool.or_true])
          (hRunnable.lt_of_node_ne hEval fun hNode => by
            rw [entrySymbol?, hNode] at hEntry
            cases hEntry)
        rw [← hAlike.next?_eq, next?, hFound] at hNext
        rcases Option.isSome_iff_exists.mp hNext with ⟨n, hN⟩
        exact ⟨n, bind_eq_ok_iff.mpr ⟨e, eval_eq_ok_iff.mpr hFound, orElse_eq_ok_iff.mpr hN⟩⟩
      · exact ⟨_, rfl⟩

theorem withEntries_returns (hOk : source.Analyzable) (hAlike : (ofHead parent source).Alike v) :
    ∃ w, v.withEntries = .ok w := by
  unfold withEntries
  split
  · exact ⟨v, rfl⟩
  · rename_i hMore
    rcases firstEvaluation_returns (ofHead_runnable hOk)
      (ofHead_flattenAll parent source) hAlike with ⟨first, hFirst⟩
    have hEntries : ∀ p ∈ entriesOf (ofHead parent source).evals, source.scope.HasSubprogram p.1 ∧
            source.scope.HasSubprogram source.symbol? := by
      intro p hIn
      rcases List.mem_filterMap.mp hIn with ⟨⟨e, k⟩, hE, hSome⟩
      rcases Option.map_eq_some_iff.mp hSome with ⟨symbol, hIs, rfl⟩
      have hListed : e.written ∈ source.listing := by
        have hSource := (ofHead_threaded parent source).source
        have hMapped := List.mem_map_of_mem (f := written)
          (List.fst_mem_of_mem_zipIdx hE)
        rwa [hSource] at hMapped
      exact hOk.entries e.written hListed symbol hIs
    have hAll : (ofHead parent source).entries = (source.symbol?, none)
            :: entriesOf (ofHead parent source).evals := rfl
    rw [hAlike.entries, hAll] at hMore
    have hEach : ∀ p ∈ v.entries, ∃ point, entryPoint v.source.scope p.1 = .ok point := by
      rw [hAlike.source, hAlike.entries]
      intro p hIn
      refine Scope.HasSubprogram.entryPoint_returns ?_
      rcases List.mem_cons.mp hIn with rfl | hEntry
      · cases hNone : entriesOf (ofHead parent source).evals with
        | nil =>
          rw [hNone] at hMore
          exact absurd rfl hMore
        | cons q rest => exact (hEntries q (by rw [hNone]; exact .head _)).2
      · exact (hEntries p hEntry).1
    rcases mapM_returns hEach with ⟨points, hPoints⟩
    exact ⟨_, bind_eq_ok_iff.mpr ⟨first, hFirst, bind_eq_ok_iff.mpr ⟨points, hPoints, rfl⟩⟩⟩

/- The analysis of a unit returns a unit that is alike. -/
theorem analyze_returns (parent : UnitParent) (hOk : source.Analyzable) (options : FlowOptions) :
    ∃ v, (ofHead parent source).analyze options = .ok v ∧ (ofHead parent source).Alike v := by
  have hStands : Analyze.Stands (ofHead parent source)
        ((ofHead parent source).begunBefore 0) Analyze.anyScopes { unit := ofHead parent source } :=
    ⟨.refl _, trivial, fun c hBegun => absurd hBegun.1 (Nat.not_lt_zero c),
      fun id e hEval hSome => by
        rw [← ofHead_laid hEval] at hSome
        cases hSome⟩
  rcases Analyze.list_returns (ofHead_runnable hOk) options none
    ((ofHead parent source).outline.map root) {} (ofHead parent source).outline []
    (ofHead_nests parent source) (ofHead_flattenAll parent source) (by simp) rfl
    ⟨ofHead_at parent source, hStands, nofun, by simp⟩ rfl with ⟨a, hRun, -, hBehind⟩
  refine ⟨a.unit, ?_, hBehind.alike⟩
  unfold analyze
  simp only [hRun]

theorem complete_returns (parent : UnitParent) (hOk : source.Analyzable) (options : FlowOptions) :
    ∃ v, (ofHead parent source).complete options = .ok v := by
  rcases analyze_returns parent hOk options with ⟨analyzed, hAnalyze, hAlike⟩
  rcases withEntries_returns hOk hAlike with ⟨entered, hEntered⟩
  rcases hOk.scope.storage_returns with ⟨vars, hStorage⟩
  exact ⟨_, bind_eq_ok_iff.mpr ⟨analyzed, hAnalyze, bind_eq_ok_iff.mpr ⟨entered, hEntered,
      bind_eq_ok_iff.mpr ⟨vars, hStorage, rfl⟩⟩⟩⟩

end FunctionUnit

----
-- Trees
----

namespace FlowTree

mutual

theorem function_returns (options : FlowOptions) : ∀ (parent : UnitParent) (s : Subprogram),
      (∀ head ∈ s.heads, head.Analyzable) → ∃ t, function options parent s = .ok t
  | parent, .mk head contains => by
      intro hOk
      rcases functions_returns options (.function head.name) contains
        (fun h hIn => hOk h (.tail head hIn)) with ⟨nested, hNested⟩
      rcases FunctionUnit.complete_returns parent (hOk head (.head _)) options with ⟨u, hU⟩
      exact ⟨_, bind_eq_ok_iff.mpr ⟨nested, hNested, bind_eq_ok_iff.mpr ⟨u, hU, rfl⟩⟩⟩

theorem functions_returns (options : FlowOptions) : ∀ (parent : UnitParent) (ss : List Subprogram),
      (∀ head ∈ Subprogram.headsAll ss, head.Analyzable) →
      ∃ ts, functions options parent ss = .ok ts
  | parent, [] => by
      intro _
      exact ⟨[], rfl⟩
  | parent, s :: ss => by
      intro hOk
      rcases function_returns options parent s (fun h hIn =>
        hOk h (List.mem_append.mpr (.inl hIn))) with ⟨t, hT⟩
      rcases functions_returns options parent ss (fun h hIn =>
        hOk h (List.mem_append.mpr (.inr hIn))) with ⟨ts, hTs⟩
      exact ⟨_, bind_eq_ok_iff.mpr ⟨t, hT, bind_eq_ok_iff.mpr ⟨ts, hTs, rfl⟩⟩⟩

end

theorem unit_returns (options : FlowOptions) (place : Nat) (hOk : p.Analyzable) :
    ∃ f, unit options place p = .ok f := by
  cases p with
  | subprogram s =>
    rcases function_returns options .program s hOk.heads with ⟨t, hT⟩
    exact ⟨_, bind_eq_ok_iff.mpr ⟨t, hT, rfl⟩⟩
  | module name scope contains =>
    rcases functions_returns options (.module place) contains hOk.heads with ⟨ts, hTs⟩
    rcases (hOk.scope name scope contains rfl).storage_returns with ⟨vars, hVars⟩
    exact ⟨_, bind_eq_ok_iff.mpr ⟨ts, hTs, bind_eq_ok_iff.mpr ⟨vars, hVars, rfl⟩⟩⟩
  | blockData => exact ⟨_, rfl⟩

/-
  A program whose units can be analyzed has a flow tree, whatever
  the options are.
-/
theorem ofProgram_returns (options : FlowOptions) {units : List ProgramUnit}
    (hOk : ∀ p ∈ units, p.Analyzable) : ∃ tree, ofProgram options units = .ok tree := by
  refine mapM_returns fun p hIn => unit_returns options p.2 ?_
  exact hOk p.1 (List.fst_mem_of_mem_zipIdx hIn)

/- A scope of two subprograms. -/
def procedures : Scope where
  symbols := [{ name := "s", details := .subprogram {} },
      { name := "t", details := .subprogram {} }]

theorem procedures_allocates : procedures.Allocates where
  fits := by
    unfold Scope.Fits
    decide
  plain := by decide
  resolved a b hRefers := Scope.refers_of_all (p := fun _ b => b < 2) (by decide) hRefers

/- An entry, a branch to a label, and a loop that is left by name. -/
def leaves : SubprogramHead where
  kind := .subroutine
  name := some "s"
  scope := procedures
  body := [.nonExecutable ⟨none, "entry t", .entry 1⟩, .construct .do
        [⟨⟨none, "outer: do", ⟨.do none, some "outer"⟩⟩, [.construct .if
            [⟨⟨none, "if (c) then", ⟨.ifThen, none⟩⟩, [.action ⟨none, "goto 10", .goto 10⟩]⟩,
              ⟨⟨none, "else", ⟨.else, none⟩⟩, [.action ⟨none, "if (d) exit outer",
                  .if ⟨none, "exit outer", .exit (some "outer")⟩⟩]⟩]
            ⟨none, "end if", ⟨.endIf, none⟩⟩, .action ⟨some 10, "cycle", .cycle none⟩]⟩]
        ⟨none, "end do outer", ⟨.endDo, some "outer"⟩⟩]

theorem ofProgram_returns_leaves : leaves.Analyzable ∧ ∃ tree, ofProgram { structured := false }
        [.subprogram (.mk leaves [])] = .ok tree := by
  have hSubprogram : ∀ id < 2, leaves.scope.HasSubprogram (some id) := by
    intro id hBelow
    have hDetails : ∃ s, procedures.symbols[id]? = some s ∧ s.details = .subprogram {} := by
      revert id
      decide
    rcases hDetails with ⟨s, hSymbol, hIs⟩
    exact ⟨id, s, {}, rfl, hSymbol, hIs, by simp⟩
  have hEntries : ∀ e ∈ leaves.listing, e.entrySymbol?.all (· == 1) = true := by decide +kernel
  have hOk : leaves.Analyzable :=
    { constructs := by decide +kernel
      references := by decide +kernel
      labels := by decide +kernel
      entries := fun e hIn symbol hIs => by
        have hOne := hEntries e hIn
        rw [hIs, Option.all_some, beq_iff_eq] at hOne
        subst hOne
        exact ⟨hSubprogram 1 (by simp), hSubprogram 0 (by simp)⟩
      scope := procedures_allocates
      finish := by decide +kernel }
  refine ⟨hOk, ofProgram_returns _ ?_⟩
  intro p hIn
  rcases List.mem_singleton.mp hIn with rfl
  refine ⟨fun s hS => ?_, by simp⟩
  rcases List.mem_singleton.mp hS with rfl
  exact hOk

/- A subroutine that ends with an `if` that does nothing. -/
def idleIf : SubprogramHead where
  kind := .subroutine
  name := some "s"
  scope := procedures
  body := [.action ⟨none, "if (c) continue", .if ⟨none, "continue", .continue⟩⟩]

/-
  The end of the subroutine is no target for branches, so nothing
  follows the action of the `if`.
-/
theorem ofProgram_idleIf : Node.everyNode ConstructKind.completes idleIf.body = true ∧
      Node.nodesReferIn {} idleIf.body = true ∧
      (∀ e ∈ idleIf.listing, e.labels = [] ∧ e.entrySymbol? = none) ∧
      idleIf.scope.HasSubprogram idleIf.symbol? ∧ idleIf.scope.Allocates ∧
      idleIf.endsWithIdleIf = true ∧
      ofProgram {} [.subprogram (.mk idleIf [])] = .error .missingLexicalSuccessor := by
  refine ⟨by decide +kernel, by decide +kernel, by decide +kernel, ?_,
    procedures_allocates, by decide +kernel, ?_⟩
  · exact ⟨0, _, {}, by decide +kernel, rfl, rfl, by simp⟩
  · cbv

end FlowTree

end FortranIR
