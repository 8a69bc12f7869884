import FortranIR.Flow.Tree
import FortranIR.Proofs.Flow.Constructs
import FortranIR.Proofs.Walk

/-
  This file proves that a construct that keeps its structure is
  not left by a branch, and is entered by branches at its first
  statement only.

  Marks are carried outwards whenever the analysis leaves an
  evaluation. The invariant of the traversal says of each branch
  that was visited: from its source outwards, all is marked up
  to an evaluation that the analysis has not left.

  Main declarations:
    * `Analyze.At`, `Analyze.Visits`
    * `FlowTree.branches_unstructure`
-/

namespace FortranIR

variable {tree : FlowTree} {units : List ProgramUnit} {outer : Option EvalId}

open Outline FunctionUnit

variable {c : EvalId} {place : Nat} {parent : Option EvalId}
variable {v u : FunctionUnit} {siblings : List EvalId} {left' left : Open}
variable {options : FlowOptions} {e : Evaluation} {α : Type} {x : Analyze α}
variable {r : α}

/- The evaluation is an `if` whose action follows it. -/
def Evaluation.isConditional (e : Evaluation) : Bool := match e.node with
  | .action (.if _) => true
  | _ => false

/-
  Whether the guard before the next one may fall through to it,
  behind a construct statement.
-/
def GuardKind.leavesOpen (k : GuardKind) (opened : Bool) : Bool := match k with
  | .ifThen | .elseIf => true
  | .selectCase | .selectRank | .selectType => true
  | .case | .selectRankCase | .typeGuard => true
  | .else | .endIf | .endSelect => false
  | _ => opened

namespace Analyze

open FunctionUnit

variable {a a' : Analysis}

----
-- Beginnings
----

/-
  A step at an evaluation without an exit: it may set the exit
  of this evaluation, but no other one.
-/
structure Begins (id : EvalId) (f : Scopes → Scopes) (a a' : Analysis) : Prop where
  grows : a.unit.Grows a'.unit
  exits : ∀ k, k ≠ id → a'.unit.exit? k = a.unit.exit? k
  scopes : a'.scopes = f a.scopes

theorem Notes.begins (hNotes : Notes f x) (id : EvalId) (hRun : x a = .ok r a') :
    Begins id f a a' :=
  have hStep := hNotes a r a' hRun
  ⟨hStep.1.grows, fun k _ => hStep.1.exits k, hStep.2⟩

section

variable {id : EvalId} (hRun : mark id (fun e => { e with exit := some exit }) a = .ok () a')
include hRun

/- All but the exit of a construct is kept where the exit is set. -/
theorem exit_kept (g : Option Evaluation → α)
    (hSame : ∀ e x, g (some { e with exit := x }) = g (some e)) (k : EvalId) :
    g a'.unit.evals[k]? = g a.unit.evals[k]? := by
  cases hRun
  simp only [List.getElem?_modify]
  cases a.unit.evals[k]? with
  | none => rfl
  | some e => by_cases hAt : id = k <;> simp [hAt, hSame]

/- The exit of a construct is set once. -/
theorem exit_begins (hExit : a.unit.exit? id = none) : Begins id (fun s => s) a a' := by
  have hFlags := exit_kept hRun (·.any Evaluation.isUnstructured) fun _ _ => rfl
  cases hRun
  have hExits : ∀ k, k ≠ id → exit? { a.unit with
            evals := a.unit.evals.modify id fun e => { e with exit := some exit } } k =
          a.unit.exit? k := by
    intro k hOther
    unfold exit?
    simp only [List.getElem?_modify, if_neg hOther.symm,
      Option.map_eq_map, Option.map_id_fun', id_eq]
  refine ⟨⟨(Alike.refl _).modify id fun _ => rfl, ?_, ?_⟩, hExits, rfl⟩
  · intro k x hBefore
    by_cases hSame : k = id
    · rw [hSame, hExit] at hBefore
      cases hBefore
    · exact (hExits k hSame).trans hBefore
  · exact fun k hBefore => (hFlags k).trans hBefore

end

/-
  The exit of a construct is looked up and set: the last
  statement in it, if that has code of its own, or what follows
  that one.
-/
theorem construct_eq_ok {id : EvalId}
    (hRun : construct id kind a = .ok () a') : ∃ exit last b, a.unit.lastChild? id = some last ∧
      (if kind.endsWithCode then exit = last else a.unit.nextBeyondNops last = .ok exit) ∧
      mark id (fun e => { e with exit := some exit }) a = .ok () b ∧
      Adds { Licence.none with own := (· = id) } b.unit a'.unit ∧ a'.scopes = b.scopes := by
  rcases look_bind_eq_ok hRun with ⟨e, hEval, hRest⟩
  rcases look_bind_eq_ok hRest with ⟨last, hLast, hRest'⟩
  rw [eval_eq_ok_iff] at hEval
  rw [orElse_eq_ok_iff] at hLast
  have hChild : a.unit.lastChild? id = some last := by
    rw [lastChild?, hEval, Option.bind_some, hLast]
  have hSelect : Marking { Licence.none with own := (· = id) } (fun s => s)
      (if kind.isSelection then unstructure id else Pure.pure () : Analyze Unit) :=
    .ite (unstructure_marks rfl) (.pure ())
  by_cases hCode : kind.endsWithCode
  · simp only [hCode, if_true, pure_bind] at hRest'
    rcases bind_eq_ok hRest' with ⟨_, b', hSet, hEnd⟩
    exact ⟨last, last, b', hChild, by rw [if_pos hCode], hSet, hSelect b' () a' hEnd⟩
  · simp only [hCode, Bool.false_eq_true, if_false] at hRest'
    rcases look_bind_eq_ok hRest' with ⟨exit, hNext, hRest₂⟩
    rcases bind_eq_ok hRest₂ with ⟨_, b', hSet, hEnd⟩
    exact ⟨exit, last, b', hChild, by rwa [if_neg hCode], hSet, hSelect b' () a' hEnd⟩

theorem construct_begins (hExit : a.unit.exit? c = none)
    (hRun : construct c kind a = .ok () a') : Begins c (fun s => s) a a' := by
  rcases construct_eq_ok hRun with ⟨exit, last, b, -, -, hSet, hAdds, hScopes⟩
  have hFirst := exit_begins hSet hExit
  exact ⟨hFirst.grows.trans hAdds.grows,
    fun k hOther => (hAdds.exits k).trans (hFirst.exits k hOther), hScopes.trans hFirst.scopes⟩

/- The exit that a construct gets. -/
theorem construct_exit? {id : EvalId}
    (hRun : construct id kind a = .ok () a') : ∃ x last, a.unit.lastChild? id = some last ∧
      (if kind.endsWithCode then x = last else a.unit.nextBeyondNops last = .ok x) ∧
      a'.unit.exit? id = some x := by
  rcases construct_eq_ok hRun with ⟨x, last, b, hLast, hFrom, hSet, hAdds, -⟩
  refine ⟨x, last, hLast, hFrom, ?_⟩
  rcases Option.bind_eq_some_iff.mp hLast with ⟨e, hEval, -⟩
  cases hSet
  rw [hAdds.exits, exit?]
  simp [hEval]

/- What the beginning of an evaluation does, by what the evaluation is. -/
inductive Beginning (options : FlowOptions) (parent : Option EvalId) (siblings : List EvalId)
    (left : Open) (id : EvalId) (a : Analysis) : EvalNode → Open → Analysis → Prop where
  | action {act : Action} {left' : Open} {a' : Analysis} (hAction : action id act a = .ok () a')
      (hLeft : left' = left ∨ (∃ s, act = .if s) ∧ left' = { left with conditional := some id }) :
      Beginning options parent siblings left id a (.action act) left' a'
  | guard {g : Guard} {outer : EvalId} {last : Option EvalId} {a' : Analysis}
      (hParent : parent = some outer)
      (hGuard : guard options outer siblings left.guard id g a = .ok last a') :
      Beginning options parent siblings left id a (.guard g) { left with guard := last } a'
  | construct {kind : ConstructKind} {a' : Analysis}
      (hConstruct : construct id kind a = .ok () a') :
      Beginning options parent siblings left id a (.construct kind) left a'
  | nonExecutable {kind : NonExecutable} :
      Beginning options parent siblings left id a (.nonExecutable kind) left a
  | directive {name : String} : Beginning options parent siblings left id a (.directive name) left a

section

variable (hEval : a.unit.evals[c]? = some e)
variable (hRun : begin options parent siblings left c a = .ok left' a')

include hEval hRun

theorem begin_beginning :
    Beginning options parent siblings left c a e.node left' a' := by
  rcases look_bind_eq_ok hRun with ⟨found, hFound, hRest⟩
  cases hEval.symm.trans (eval_eq_ok_iff.mp hFound)
  cases hNode : e.node with
  | action act =>
    simp only [hNode] at hRest
    rcases bind_eq_ok hRest with ⟨_, a₁, hAction, hLast⟩
    have hSame : a' = a₁ ∧ (left' = left ∨
        (∃ s, act = .if s) ∧ left' = { left with conditional := some c }) := by
      cases act <;> cases hLast <;> simp
    rcases hSame with ⟨rfl, hLeft⟩
    exact .action hAction hLeft
  | guard g =>
    simp only [hNode] at hRest
    rcases look_bind_eq_ok hRest with ⟨outer, hParent, hRest'⟩
    rcases bind_eq_ok hRest' with ⟨last, a₁, hGuard, hLast⟩
    cases hLast
    exact .guard (orElse_eq_ok_iff.mp hParent) hGuard
  | construct kind =>
    simp only [hNode] at hRest
    rcases bind_eq_ok hRest with ⟨_, a₁, hConstruct, hLast⟩
    cases hLast
    exact .construct hConstruct
  | nonExecutable kind =>
    simp only [hNode] at hRest
    cases hRest
    exact .nonExecutable
  | directive name =>
    simp only [hNode] at hRest
    cases hRest
    exact .directive

/- The beginning of an evaluation, which knows where it is. -/
theorem begin_begins (hOuter : e.outer = parent) (hExit : a.unit.exit? c = none) :
    Begins c (fun s => s.after e) a a' := by
  -- all but a statement of a construct leave the scopes alone
  have hQuiet : (∀ g, e.node ≠ .guard g) → (fun s : Scopes => s.after e) = id := by
    intro hOther
    unfold Scopes.after
    cases hNode : e.node with
    | guard g => exact absurd hNode (hOther g)
    | _ => rfl
  have hBeginning := begin_beginning hEval hRun
  generalize hNode : e.node = node at hBeginning hQuiet
  cases hBeginning with
  | action hAction =>
    rw [hQuiet (by simp)]
    exact (action_notes c _).begins c hAction
  | @guard g outer last a' hParent hGuard =>
    have hAfter : (fun s : Scopes => s.after e) = Scopes.afterGuard g outer := by
      funext s
      rw [Scopes.after, hNode, hOuter, hParent]
    rw [hAfter]
    exact (guard_notes options outer siblings left.guard c g).begins c hGuard
  | construct hConstruct =>
    rw [hQuiet (by simp)]
    exact construct_begins hExit hConstruct
  | nonExecutable | directive =>
    rw [hQuiet (by simp)]
    exact Notes.begins (.pure ()) c rfl

/- An exit that is set at the beginning is that of a construct. -/
theorem begin_exit? (hExit : a.unit.exit? c = none)
    (hSome : a'.unit.exit? c = some exit) : ∃ kind last, e.node = .construct kind ∧
      a.unit.lastChild? c = some last ∧
      (if kind.endsWithCode then exit = last else a.unit.nextBeyondNops last = .ok exit) := by
  have hKept : ∀ {β : Type} {f : Scopes → Scopes} {x : Analyze β} {r : β}, Notes f x →
      x a ≠ .ok r a' := by
    intro β f x r hNotes hStep
    rw [(hNotes a r a' hStep).1.exits, hExit] at hSome
    cases hSome
  have hBeginning := begin_beginning hEval hRun
  generalize hNode : e.node = node at hBeginning
  cases hBeginning with
  | action hAction => exact absurd hAction (hKept (action_notes c _))
  | guard _ hGuard => exact absurd hGuard (hKept (guard_notes options _ siblings left.guard c _))
  | construct hConstruct =>
    rcases construct_exit? hConstruct with ⟨x, last, hLast, hFrom, hIs⟩
    cases hIs.symm.trans hSome
    exact ⟨_, last, rfl, hLast, hFrom⟩
  | nonExecutable | directive => exact absurd (hExit.symm.trans hSome) nofun

/- The beginning of a statement marks its branches. -/
theorem begin_reaches (hOrdered : a.unit.Ordered) (hScopes : a.scopes = a.unit.scopesBefore c)
    (hBegins : Begins c f a a')
    (hGrows : a'.unit.Grows v) (hBranch : v.BranchesTo c target) :
    a'.unit.Reaches c target := by
  -- a branch is an action of the unit in the end, and so before
  have hAction : ∃ act, e.node = .action act := by
    rcases (hBegins.grows.trans hGrows).getElem? hEval with ⟨e', hEval', hFixed⟩
    have hNode : e'.node = e.node := congrArg Prod.fst hFixed
    rw [← hNode]
    rcases hBranch with ⟨hEval, hNode', -⟩ | ⟨hEval, hNode', -⟩ | ⟨hEval, hNode', -⟩
    all_goals
      rw [hEval', Option.some.injEq] at hEval
      exact ⟨_, hEval ▸ hNode'⟩
  rcases hAction with ⟨act, hNode⟩
  have hBeginning := begin_beginning hEval hRun
  rw [hNode] at hBeginning
  cases hBeginning with
  | action hStep => exact action_reaches hOrdered hEval hScopes hNode hStep hGrows hBranch

end

----
-- Ends
----

/- A marked evaluation marks what it is directly in. -/
theorem finish_marks {outer : EvalId} (hOuter : a.unit.evals[outer]? = some o)
    (hFlag : a.unit.unstructured c = true)
    (hRun : finish options (some outer) left c a = .ok left' a') :
    a'.unit.unstructured outer = true := by
  rcases bind_eq_ok hRun with ⟨_, a₁, hConditional, hRest⟩
  rcases bind_eq_ok hRest with ⟨_, a₂, hArm, hRest'⟩
  rcases look_bind_eq_ok hRest' with ⟨e, hFound, hLast⟩
  rw [eval_eq_ok_iff] at hFound
  have hGrows : a.unit.Grows a₂.unit := (Notes.grows (.forM fun d _ =>
      finishConditional_marks options trivial trivial c) hConditional).trans
    (Notes.grows (leaveArm_marks (some outer) trivial) hArm)
  have hMarked : e.isUnstructured = true := by
    have hStill := hGrows.flags c hFlag
    rwa [unstructured, hFound] at hStill
  rw [hMarked] at hLast
  rcases bind_eq_ok hLast with ⟨_, a₃, hMark, hEnd⟩
  rcases hGrows.getElem? hOuter with ⟨o', hOuter', -⟩
  rcases bind_eq_ok hMark with ⟨_, _, hStep, hNil⟩
  cases hNil
  exact (Notes.grows (finishLast_marks options left c e) hEnd).flags
    outer (unstructure_sets hOuter' hStep)

----
-- Traversal
----

/-
  The analysis is at a place of a unit: the scopes are those of
  the source, and nothing from there on has an exit.
-/
structure At (u : FunctionUnit) (place : Nat) (a : Analysis) : Prop where
  grows : u.Grows a.unit
  scopes : a.scopes = u.scopesBefore place
  exits : ∀ k, place ≤ k → a.unit.exit? k = none

theorem At.begins (hAt : At u place a) (hEval : u.evals[place]? = some e)
    (hRun : Analyze.begin options e.outer siblings left place a = .ok left' a') :
    Begins place (fun s => s.after e) a a' := by
  rcases hAt.grows.getElem? hEval with ⟨e', hEval', hFixed⟩
  have hAfter : (fun s : Scopes => s.after e') = fun s => s.after e :=
    funext (Scopes.after_congr hFixed)
  rw [← hAfter]
  exact begin_begins hEval' hRun (congrArg (·.2.1) hFixed) (hAt.exits _ .refl)

/- The beginning of an evaluation moves on to what is in it. -/
theorem At.begin (hAt : At u place a) (hEval : u.evals[place]? = some e)
    (hBegins : Begins place (fun s => s.after e) a a') : At u (place + 1) a' where
  grows := hAt.grows.trans hBegins.grows
  scopes := by rw [hBegins.scopes, hAt.scopes, scopesBefore_succ hEval]
  exits k hLater := by
    rw [hBegins.exits k (Nat.ne_of_gt hLater)]
    exact hAt.exits k (Nat.le_of_succ_le hLater)

theorem At.notes (hAt : At u place a) (hNotes : Notes id x) (hRun : x a = .ok r a') :
    At u place a' := by
  rcases hNotes a r a' hRun with ⟨hAdds, hScopes⟩
  exact ⟨hAt.grows.trans hAdds.grows, hScopes.trans hAt.scopes,
    fun k hLater => (hAdds.exits k).trans (hAt.exits k hLater)⟩

----
-- Invariants of the traversal
----

/-
  What is left open among evaluations: an `if` that waits for its
  action stands directly in the same construct, and what may
  fall through is a construct statement.
-/
structure Waits (u : FunctionUnit) (outer : Option EvalId) (left : Open) : Prop where
  conditional : ∀ c, left.conditional = some c →
      ∃ f, u.evals[c]? = some f ∧ f.outer = outer ∧ f.isConditional = true
  guard : ∀ l, left.guard = some l →
      ∃ f g, u.evals[l]? = some f ∧ f.node = .guard g ∧ g.kind.leavesOpen false = true

theorem Waits.empty : Waits u parent {} := ⟨by simp, by simp⟩

/-
  The analysis visits an evaluation, inside the evaluations that
  are open, the innermost one first.
-/
structure Visits (u : FunctionUnit) (opened siblings : List EvalId) (left : Open) (id : EvalId)
    (e : Evaluation) : Prop where
  eval : u.evals[id]? = some e
  outer : e.outer = opened.head?
  siblings : ∀ p, opened.head? = some p →
      id ∈ siblings ∧ ∃ c, u.evals[p]? = some c ∧ c.children = siblings
  waits : Waits u opened.head? left

/-
  A statement on the open evaluations, the place in the source
  and the analysis, which the beginning and the end of each
  evaluation keep. At the end of an evaluation, all that comes
  between it and the place is in it.
-/
structure Invariant (u : FunctionUnit) (options : FlowOptions)
    (inv : List EvalId → Nat → Analysis → Prop) : Prop where
  begin : ∀ {opened siblings : List EvalId} {left left' : Open}
      {place : Nat} {e : Evaluation} {a a' : Analysis}, Visits u opened siblings left place e →
      At u place a → inv opened place a →
      begin options opened.head? siblings left place a = .ok left' a' →
      inv (place :: opened) (place + 1) a'
  finish : ∀ {opened siblings : List EvalId} {left left' : Open}
      {id place : Nat} {e : Evaluation} {a a' : Analysis}, Visits u opened siblings left id e →
      (∀ x, id < x → x < place → u.Contains id x) → At u place a → inv (id :: opened) place a →
      finish options opened.head? left id a = .ok left' a' → inv opened place a'

variable {inv : List EvalId → Nat → Analysis → Prop} {opened : List EvalId} {id : EvalId}

/- What a step gives has a property, whatever it does. -/
def Gives (p : α → Prop) (x : Analyze α) : Prop := ∀ a r a', x a = .ok r a' → p r

section

variable {β : Type} {p : α → Prop}

theorem Gives.pure (hResult : p r) : Gives p (pure r : Analyze α) := by
  rintro a r a' ⟨⟩
  exact hResult

theorem Gives.bind {x : Analyze β} (hRest : ∀ r, Gives p (y r)) : Gives p (x >>= y) := by
  intro a r a' hRun
  rcases bind_eq_ok hRun with ⟨s, a₁, -, hNext⟩
  exact hRest s a₁ r a' hNext

theorem Gives.ite {cond : Prop} [Decidable cond] {y : Analyze α} (hThen : Gives p x)
    (hElse : Gives p y) : Gives p (if cond then x else y) := by
  split
  · exact hThen
  · exact hElse

end

/- What a construct statement leaves open, by what it was given. -/
theorem guard_gives (outer : EvalId) (siblings : List EvalId) (last : Option EvalId) (g : Guard) :
    Gives (fun r => r = last ∨ r = none ∨ r = some id ∧ g.kind.leavesOpen false = true)
      (guard options outer siblings last id g) := by
  rcases g with ⟨kind, name⟩
  cases kind with
  | «do» control => exact .bind fun _ => .bind fun _ => .bind fun _ => .pure (.inl rfl)
  | endDo | associate | block | critical | changeTeam => exact .bind fun _ => .pure (.inl rfl)
  | ifThen => exact .bind fun _ => .bind fun _ => .bind fun _ => .pure (.inr (.inr ⟨rfl, rfl⟩))
  | elseIf =>
    exact .bind fun _ => .bind fun _ => .bind fun _ => .bind fun _ =>
      .pure (.inr (.inr ⟨rfl, rfl⟩))
  | «else» | endSelect => exact .bind fun _ => .bind fun _ => .pure (.inr (.inl rfl))
  | endIf =>
    exact .bind fun _ => .bind fun _ => .ite (.bind fun _ => .bind fun _ => .pure (.inr (.inl rfl)))
      (.bind fun _ => .pure (.inr (.inl rfl)))
  | selectCase | selectRank | selectType => exact .bind fun _ => .pure (.inr (.inr ⟨rfl, rfl⟩))
  | case | selectRankCase | typeGuard =>
    exact .bind fun _ => .bind fun _ => .pure (.inr (.inr ⟨rfl, rfl⟩))
  | endAssociate | endBlock | endCritical | endChangeTeam => exact .pure (.inl rfl)

/- The beginning of an evaluation leaves nothing else open. -/
theorem begin_waits (hEval : u.evals[id]? = some e)
    (hOuter : e.outer = outer) (hEval' : a.unit.evals[id]? = some e') (hNode : e'.node = e.node)
    (hWaits : Waits u outer left)
    (hRun : begin options parent siblings left id a = .ok left' a') : Waits u outer left' := by
  have hBeginning := begin_beginning hEval' hRun
  generalize hIs : e'.node = node at hBeginning
  rw [hIs] at hNode
  cases hBeginning with
  | action _ hLeft =>
    rcases hLeft with rfl | ⟨⟨s, rfl⟩, rfl⟩
    · exact hWaits
    · refine ⟨?_, hWaits.guard⟩
      rintro c ⟨⟩
      exact ⟨e, hEval, hOuter, by rw [Evaluation.isConditional, ← hNode]⟩
  | guard _ hGuard =>
    refine ⟨hWaits.conditional, ?_⟩
    rintro l ⟨⟩
    rcases guard_gives _ _ _ _ _ _ _ hGuard with hSame | hNone | ⟨hSame, hOpens⟩
    · exact hWaits.guard l hSame.symm
    · cases hNone
    · cases hSame
      exact ⟨e, _, hEval, hNode.symm, hOpens⟩
  | construct | nonExecutable | directive => exact hWaits

/- The end of an evaluation leaves all as it was, or no `if`. -/
theorem finish_gives (left : Open) : Gives
    (fun left' => left' = { left with conditional := none } ∨ left' = left)
    (finish options parent left id) := by
  refine .bind fun _ => .bind fun _ => .bind fun e => ?_
  have hLast : Gives (fun left' => left' = { left with conditional := none } ∨ left' = left)
      (if (left.conditional.filter fun c => c ≠ id).isSome
        then Pure.pure { left with conditional := none } else Pure.pure left : Analyze Open) :=
    .ite (.pure (.inl rfl)) (.pure (.inr rfl))
  exact .ite (.bind fun _ => .ite (.bind fun _ => hLast) hLast) (.ite (.bind fun _ => hLast) hLast)

/- The beginning of an evaluation is still a visit of it. -/
theorem Visits.begin (hVisits : Visits u opened siblings left place e) (hAt : At u place a) (hRun :
      begin options opened.head? siblings left place a = .ok left' a') :
    Visits u opened siblings left' place e where
  eval := hVisits.eval
  outer := hVisits.outer
  siblings := hVisits.siblings
  waits := by
    rcases hAt.grows.getElem? hVisits.eval with ⟨e', hEval', hFixed⟩
    exact begin_waits hVisits.eval hVisits.outer hEval' (congrArg Prod.fst hFixed) hVisits.waits hRun

theorem Visits.begins (hVisits : Visits u opened siblings left place e) (hAt : At u place a) (hRun :
      Analyze.begin options opened.head? siblings left place a = .ok left' a') :
    Begins place (fun s => s.after e) a a' := hAt.begins hVisits.eval (hVisits.outer ▸ hRun)

/- What is nested in an evaluation is contained in it. -/
theorem contains_of_nests {t : Outline EvalId} (hNests : u.Nests outer t)
    {o x : EvalId} (hOuter : outer = some o) (hMember : x ∈ flatten t) : u.Contains o x := by
  induction hNests generalizing o with
  | node hEval hSame hChildren hNested ih =>
    rename_i outer root e nested
    have hRoot : u.Contains o root :=
      .direct (by rw [outer?, hEval, Option.bind_some, hSame, hOuter])
    rcases List.mem_cons.mp hMember with rfl | hInside
    · exact hRoot
    · rcases mem_flattenAll.mp hInside with ⟨t, hIn, hAt⟩
      exact hRoot.trans (ih t hIn rfl hAt)

mutual

/- An invariant holds behind an evaluation and all that is in it. -/
theorem Invariant.each (hInv : Invariant u options inv) :
    ∀ {opened siblings : List EvalId} {left left' : Open}
      {place n : Nat} {a a' : Analysis} (t : Outline EvalId), u.Nests opened.head? t →
      flatten t = List.range' place n → (∀ e, u.evals[t.root]? = some e → e.outer = opened.head? →
        Visits u opened siblings left t.root e) → At u place a → inv opened place a →
      each options opened.head? siblings left t a = .ok left' a' →
      inv opened (place + n) a' ∧ At u (place + n) a' ∧ Waits u opened.head? left'
  | opened, siblings, left, left', place, n, a, a', .node root nested => by
      intro hNests hIds hVisit hAt hStart hRun
      rw [flatten, eq_comm, List.range'_eq_cons_iff] at hIds
      rcases hIds with ⟨rfl, hSome, hInside⟩
      rcases hNests with ⟨hEval, hOuter, hChildren, hNested⟩
      rename_i e
      have hVisits := hVisit e hEval hOuter
      rcases bind_eq_ok hRun with ⟨left₁, a₁, hBegin, hRest⟩
      rcases bind_eq_ok hRest with ⟨_, a₂, hList, hFinish⟩
      have hAt₁ := hAt.begin hEval (hVisits.begins hAt hBegin)
      have hFirst := hInv.begin hVisits hAt hStart hBegin
      have hInner : ∀ t ∈ nested, u.Nests (place :: opened).head? t := hNested
      have hWithin := Invariant.list hInv nested hInner hInside (fun t hIn p hHead => by
          cases hHead
          exact ⟨List.mem_map_of_mem hIn, e, hEval, hChildren⟩) .empty hAt₁ hFirst hList
      have hPlace : place + 1 + (n - 1) = place + n := by
        rw [Nat.add_assoc, Nat.add_sub_cancel' hSome]
      rw [hPlace] at hWithin
      have hVisits₁ := hVisits.begin hAt hBegin
      have hAll : ∀ x, place < x → x < place + n → u.Contains place x := by
        intro x hAbove hBelow
        have hMember : x ∈ flattenAll nested := by
          rw [hInside, List.mem_range'_1, hPlace]
          exact ⟨hAbove, hBelow⟩
        rcases mem_flattenAll.mp hMember with ⟨t, hIn, hFound⟩
        exact contains_of_nests (hNested t hIn) rfl hFound
      refine ⟨hInv.finish hVisits₁ hAll hWithin.2 hWithin.1 hFinish,
        hWithin.2.notes (finish_notes options _ left₁ _) hFinish, ?_⟩
      rcases finish_gives _ _ _ _ hFinish with rfl | rfl
      · exact ⟨by simp, hVisits₁.waits.guard⟩
      · exact hVisits₁.waits

/- An invariant holds behind the evaluations of a body. -/
theorem Invariant.list (hInv : Invariant u options inv) :
    ∀ {opened siblings : List EvalId} {left : Open}
      {place n : Nat} {a a' : Analysis} (ts : List (Outline EvalId)),
      (∀ t ∈ ts, u.Nests opened.head? t) → flattenAll ts = List.range' place n →
      (∀ t ∈ ts, ∀ p, opened.head? = some p → t.root ∈ siblings ∧
          ∃ c, u.evals[p]? = some c ∧ c.children = siblings) →
      Waits u opened.head? left → At u place a → inv opened place a →
      list options opened.head? siblings left ts a = .ok () a' →
      inv opened (place + n) a' ∧ At u (place + n) a'
  | _, _, _, _, _, _, _, [] => by
      intro _ hIds _ _ hAt hStart hRun
      rw [flattenAll, eq_comm, List.range'_eq_nil_iff] at hIds
      subst hIds
      cases hRun
      exact ⟨hStart, hAt⟩
  | opened, siblings, left, place, n, _, _, t :: ts => by
      intro hNests hIds hSiblings hLeft hAt hStart hRun
      rw [flattenAll, eq_comm, List.range'_eq_append_iff] at hIds
      rcases hIds with ⟨k, hCount, hFirst, hRest⟩
      rw [Nat.mul_one] at hRest
      rcases bind_eq_ok hRun with ⟨left₁, a₁, hEach, hList⟩
      have hHead := Invariant.each hInv t (hNests t (.head _)) hFirst
        (fun e hEval hOuter => ⟨hEval, hOuter, hSiblings t (.head _), hLeft⟩) hAt hStart hEach
      have hTail := Invariant.list hInv ts (fun r hIn => hNests r (.tail t hIn)) hRest
        (fun r hIn => hSiblings r (.tail t hIn)) hHead.2.2 hHead.2.1 hHead.1 hList
      have hPlace : place + k + (n - k) = place + n := by
        rw [Nat.add_assoc, Nat.add_sub_cancel' hCount]
      rwa [hPlace] at hTail

end

end Analyze

----
-- Units
----

namespace FunctionUnit

theorem BranchesTo.lt_length {source : EvalId} (hBranch : u.BranchesTo source target) :
    source < u.evals.length := by
  rcases hBranch with ⟨hEval, -⟩ | ⟨hEval, -⟩ | ⟨hEval, -⟩ <;>
    exact (List.getElem?_eq_some_iff.mp hEval).1

theorem ofHead_ordered (parent : UnitParent) (source : SubprogramHead) :
    (ofHead parent source).Ordered := by
  intro id o hOuter
  rcases Option.bind_eq_some_iff.mp hOuter with ⟨e, hEval, hSome⟩
  exact ofHead_outer_lt hEval hSome

theorem ofHead_at (parent : UnitParent) (source : SubprogramHead) :
    Analyze.At (ofHead parent source) 0 { unit := ofHead parent source } where
  grows := .refl _
  scopes := rfl
  exits k _ := by
    unfold exit?
    cases hEval : (ofHead parent source).evals[k]? with
    | none => rfl
    | some e => exact congrArg Evaluation.exit (ofHead_laid hEval).symm

----
-- Branches
----

/-
  From an evaluation outwards, all is marked up to one that is
  still open.
-/
inductive Climbs (u : FunctionUnit) (opened : List EvalId) : EvalId → Prop where
  | stop {k : EvalId} (hFlag : u.unstructured k = true)
      (hEnd : k ∈ opened ∨ u.outer? k = none) : Climbs u opened k
  | step {k o : EvalId} (hFlag : u.unstructured k = true) (hOuter : u.outer? k = some o)
      (hRest : Climbs u opened o) : Climbs u opened k

theorem Climbs.flag (hClimbs : u.Climbs opened s) :
    u.unstructured s = true := by
  cases hClimbs with
  | stop hFlag => exact hFlag
  | step hFlag => exact hFlag

/- Where nothing is open, all that is around is marked. -/
theorem Climbs.around (hClimbs : u.Climbs [] s) (hContains : u.Contains c s) :
    u.unstructured c = true := by
  induction hClimbs with
  | stop _ hEnd =>
    rcases hEnd with hIn | hNone
    · cases hIn
    · exact absurd hNone hContains.outer?_ne_none
  | step _ hOuter hRest ih =>
    rcases hContains.cases_outer hOuter with rfl | hMore
    · exact hRest.flag
    · exact ih hMore

theorem Climbs.grows (hClimbs : u.Climbs opened s)
    (hGrows : u.Grows v) (hOpened : ∀ k ∈ opened, u.unstructured k = true → v.Climbs opened' k) :
    v.Climbs opened' s := by
  induction hClimbs with
  | stop hFlag hEnd =>
    rcases hEnd with hIn | hNone
    · exact hOpened _ hIn hFlag
    · exact .stop (hGrows.flags _ hFlag) (.inr ((hGrows.outer?_eq _).trans hNone))
  | step hFlag hOuter _ ih =>
    exact .step (hGrows.flags _ hFlag) ((hGrows.outer?_eq _).trans hOuter) ih

end FunctionUnit

namespace Analyze

open FunctionUnit

/- An invariant that holds of a new unit holds once it is analyzed. -/
theorem Invariant.analyze {parent : UnitParent} {source : SubprogramHead} {v : FunctionUnit}
    (hInv : Invariant (ofHead parent source) options inv)
    (hStart : inv [] 0 { unit := ofHead parent source })
    (hRun : (ofHead parent source).analyze options = .ok v) :
    ∃ a, a.unit = v ∧ At (ofHead parent source) v.evals.length a ∧ inv [] v.evals.length a := by
  unfold FunctionUnit.analyze at hRun
  simp only [] at hRun
  split at hRun
  · rename_i a hList
    cases hRun
    have hNests : ∀ t ∈ (ofHead parent source).outline,
          (ofHead parent source).Nests ([] : List EvalId).head? t := ofHead_nests parent source
    have hPassed := hInv.list (ofHead parent source).outline hNests
      (ofHead_flattenAll parent source)
      (by simp) .empty (ofHead_at parent source) hStart hList
    rw [Nat.zero_add, ← hPassed.2.grows.alike.length_eq] at hPassed
    exact ⟨a, rfl, hPassed.2, hPassed.1⟩
  · cases hRun

/- The marks of the branches that the analysis has visited. -/
theorem climbs_invariant (hOrdered : u.Ordered) : Invariant u options fun opened place a =>
      ∀ final, a.unit.Grows final → ∀ s t, s < place → final.BranchesTo s t →
        a.unit.Reaches s t ∧ a.unit.Climbs opened s where
  begin := by
    intro opened siblings left left' place e a a' hVisits hAt hBefore hRun final hFinal s t hBelow
      hBranch
    have hBegins := hVisits.begins hAt hRun
    rcases Nat.lt_succ_iff_lt_or_eq.mp hBelow with hEarlier | rfl
    · rcases hBefore final (hBegins.grows.trans hFinal) s t hEarlier hBranch with
        ⟨hReaches, hClimbs⟩
      refine ⟨hReaches.grows hBegins.grows, hClimbs.grows hBegins.grows fun k hIn hFlag => ?_⟩
      exact .stop (hBegins.grows.flags k hFlag) (.inl (.tail place hIn))
    · rcases hAt.grows.getElem? hVisits.eval with ⟨e', hEval', -⟩
      have hScopes : a.scopes = a.unit.scopesBefore s := by
        rw [hAt.scopes, hAt.grows.scopesBefore_eq]
      have hReaches := begin_reaches hEval' hRun (hAt.grows.ordered hOrdered) hScopes hBegins
        hFinal hBranch
      exact ⟨hReaches, .stop hReaches.1 (.inl (.head _))⟩
  finish := by
    intro opened siblings left left' id place e a a' hVisits _ hAt hBefore hRun final hFinal s t
      hBelow hBranch
    have hGrows := (finish_notes options opened.head? left id).grows hRun
    rcases hBefore final (hGrows.trans hFinal) s t hBelow hBranch with ⟨hReaches, hClimbs⟩
    refine ⟨hReaches.grows hGrows, hClimbs.grows hGrows fun k hIn hFlag => ?_⟩
    have hMarked := hGrows.flags k hFlag
    rcases List.mem_cons.mp hIn with rfl | hOpen
    · -- what the analysis leaves has marked what it is in
      have hOuter : a'.unit.outer? k = opened.head? := by
        rw [hGrows.outer?_eq, hAt.grows.outer?_eq, outer?, hVisits.eval, Option.bind_some,
          hVisits.outer]
      cases hHead : opened.head? with
      | none => exact .stop hMarked (.inr (hOuter.trans hHead))
      | some o =>
        rcases (hVisits.siblings o hHead).2 with ⟨c, hParent, -⟩
        rcases hAt.grows.getElem? hParent with ⟨c', hParent', -⟩
        rw [hHead] at hRun
        exact .step hMarked (hOuter.trans hHead)
          (.stop (finish_marks hParent' hFlag hRun) (.inl (List.mem_of_head? hHead)))
    · exact .stop hMarked (.inl hOpen)

end Analyze

----
-- Entry points and variables
----

namespace FunctionUnit

variable {s t : EvalId} {parent : UnitParent} {source : SubprogramHead}

/- Entry points only add a block, and variables add nothing. -/
theorem complete_adds (hRun : u.complete options = .ok v) : ∃ analyzed,
      u.analyze options = .ok analyzed ∧
      Adds .none analyzed v := by
  rcases bind_eq_ok_iff.mp hRun with ⟨analyzed, hAnalyze, hRest⟩
  rcases bind_eq_ok_iff.mp hRest with ⟨entered, hEntries, hLast⟩
  rcases bind_eq_ok_iff.mp hLast with ⟨storage, -, hDone⟩
  cases hDone
  refine ⟨analyzed, hAnalyze, ?_⟩
  unfold withEntries at hEntries
  split at hEntries
  · cases hEntries
    exact .of_evals rfl ⟨rfl, rfl, rfl, rfl, rfl⟩
  · rcases bind_eq_ok_iff.mp hEntries with ⟨first, -, hRest'⟩
    rcases bind_eq_ok_iff.mp hRest' with ⟨points, -, hDone'⟩
    cases hDone'
    exact (Analyze.beginBlock_marks first { unit := analyzed } () _ rfl).1.trans
      (.of_evals rfl ⟨rfl, rfl, rfl, rfl, rfl⟩)

/- Without new marks, the marks of both units are the same. -/
theorem Adds.grows_back (hAdds : Adds .none u v) : v.Grows u where
  alike := hAdds.grows.alike.symm
  exits k _ hExit := (hAdds.exits k).symm.trans hExit
  flags k hFlag := (hAdds.flags k hFlag).resolve_right fun hNone => hNone

/- The branches of a unit are still there when it has grown. -/
theorem BranchesTo.grows (hGrows : u.Grows v) (hBranch : u.BranchesTo s t) : v.BranchesTo s t := by
  have hEach : ∀ e, u.evals[s]? = some e → ∃ e', v.evals[s]? = some e' ∧ e'.node = e.node := by
    intro e hEval
    rcases hGrows.getElem? hEval with ⟨e', hEval', hFixed⟩
    exact ⟨e', hEval', congrArg Prod.fst hFixed⟩
  rcases hBranch with ⟨hEval, hNode, hLabel, hTarget⟩ |
    ⟨hEval, hNode, hLoop, hTarget⟩ | ⟨hEval, hNode, hLoop, hTarget⟩
  · rcases hEach _ hEval with ⟨e', hEval', hSame⟩
    exact .label hEval' (hSame.trans hNode) hLabel (hGrows.alike.labels ▸ hTarget)
  · rcases hEach _ hEval with ⟨e', hEval', hSame⟩
    rw [← hGrows.scopesBefore_eq] at hLoop
    rw [← hGrows.lastChild?_eq] at hTarget
    exact .cycle hEval' (hSame.trans hNode) hLoop hTarget
  · rcases hEach _ hEval with ⟨e', hEval', hSame⟩
    rw [← hGrows.scopesBefore_eq] at hLoop
    exact .exit hEval' (hSame.trans hNode) hLoop (hGrows.exits _ t hTarget)

/- The branches of a new unit, once it is complete. -/
theorem complete_branches (hRun : (ofHead parent source).complete options = .ok v)
    (hBranch : v.BranchesTo s t) :
    (∀ c, v.Contains c s → v.unstructured c = true) ∧ v.Enters s t := by
  rcases complete_adds hRun with ⟨analyzed, hAnalyze, hAdds⟩
  have hGrows := hAdds.grows
  rcases (Analyze.climbs_invariant (ofHead_ordered parent source)).analyze (fun _ _ _ _ => nofun)
    hAnalyze with ⟨a, rfl, -, hVisited⟩
  have hBefore := hBranch.grows hAdds.grows_back
  rcases hVisited a.unit (.refl _) s t hBefore.lt_length hBefore with ⟨⟨-, hEnters⟩, hClimbs⟩
  refine ⟨?_, ?_⟩
  · intro c hContains
    exact hGrows.flags c (hClimbs.around (hGrows.contains_iff.mp hContains))
  · intro c hTarget hSource
    rw [hGrows.contains_iff] at hTarget hSource
    rcases hEnters c hTarget hSource with hFlag | hFirst
    · exact .inl (hGrows.flags c hFlag)
    · exact .inr ((hGrows.firstChild?_eq c).trans hFirst)

end FunctionUnit

----
-- Trees
----

mutual

/- The subprograms of a subprogram, itself first. -/
def Subprogram.heads : Subprogram → List SubprogramHead
  | .mk head contains => head :: Subprogram.headsAll contains

def Subprogram.headsAll : List Subprogram → List SubprogramHead
  | [] => []
  | s :: rest => Subprogram.heads s ++ Subprogram.headsAll rest

end

/- The subprograms of a program unit, in the order of the source. -/
def ProgramUnit.heads : ProgramUnit → List SubprogramHead
  | .subprogram s => s.heads
  | .module _ _ contains => Subprogram.headsAll contains
  | .blockData _ _ => []

/- The subprograms of a unit, also those in other ones. -/
def FlowUnit.functionUnits : FlowUnit → List FunctionUnit
  | .function f => flatten f
  | .module _ _ contains _ => flattenAll contains
  | .blockData _ => []

namespace FlowTree

/- All subprograms of a tree. -/
def functionUnits (tree : FlowTree) : List FunctionUnit := tree.flatMap FlowUnit.functionUnits

variable {options : FlowOptions}

/- The unit is completed from the subprogram. -/
def Completes (options : FlowOptions) (u : FunctionUnit) (head : SubprogramHead) : Prop :=
  ∃ parent, (FunctionUnit.ofHead parent head).complete options = .ok u

mutual

/- The units of a subprogram are completed from its source. -/
theorem function_completes : ∀ {parent : UnitParent} {t : Outline FunctionUnit} (s : Subprogram),
      function options parent s = .ok t → List.Forall₂ (Completes options) (flatten t) s.heads
  | parent, t, .mk head contains => by
      intro hRun
      rcases bind_eq_ok_iff.mp hRun with ⟨nested, hNested, hRest⟩
      rcases bind_eq_ok_iff.mp hRest with ⟨root, hRoot, hDone⟩
      cases hDone
      exact .cons ⟨parent, hRoot⟩ (functions_completes contains hNested)

theorem functions_completes :
    ∀ {parent : UnitParent} {ts : List (Outline FunctionUnit)} (ss : List Subprogram),
      functions options parent ss = .ok ts →
      List.Forall₂ (Completes options) (flattenAll ts) (Subprogram.headsAll ss)
  | parent, ts, [] => by
      intro hRun
      cases hRun
      exact .nil
  | parent, ts, s :: ss => by
      intro hRun
      rcases bind_eq_ok_iff.mp hRun with ⟨t, hFirst, hRest⟩
      rcases bind_eq_ok_iff.mp hRest with ⟨rest, hLater, hDone⟩
      cases hDone
      exact List.rel_append (function_completes s hFirst) (functions_completes ss hLater)

end

theorem unit_completes
    (hRun : unit options place p = .ok f) :
    List.Forall₂ (Completes options) f.functionUnits p.heads := by
  cases p with
  | subprogram s =>
    rcases bind_eq_ok_iff.mp hRun with ⟨t, hFunction, hDone⟩
    cases hDone
    exact function_completes s hFunction
  | module name scope contains =>
    rcases bind_eq_ok_iff.mp hRun with ⟨ts, hFunctions, hRest⟩
    rcases bind_eq_ok_iff.mp hRest with ⟨storage, -, hDone⟩
    cases hDone
    exact functions_completes contains hFunctions
  | blockData =>
    cases hRun
    exact .nil

theorem units_completes (units : List ProgramUnit) {place : Nat}
    (hRun : (units.zipIdx place).mapM (fun e => unit options e.2 e.1) = .ok tree) :
    List.Forall₂ (Completes options) tree.functionUnits (units.flatMap ProgramUnit.heads) := by
  induction units generalizing place tree with
  | nil =>
    cases hRun
    exact .nil
  | cons p units ih =>
    rw [List.zipIdx_cons, List.mapM_cons] at hRun
    rcases bind_eq_ok_iff.mp hRun with ⟨f, hFirst, hRest⟩
    rcases bind_eq_ok_iff.mp hRest with ⟨rest, hLater, hDone⟩
    cases hDone
    exact List.rel_append (unit_completes hFirst) (ih hLater)

/- The units of a tree are completed from the subprograms, in their order. -/
theorem ofProgram_completes (hTree : ofProgram options units = .ok tree) :
    List.Forall₂ (Completes options) tree.functionUnits (units.flatMap ProgramUnit.heads) :=
  units_completes units hTree

theorem ofProgram_complete (hTree : ofProgram options units = .ok tree)
    (hUnit : u ∈ tree.functionUnits) :
    ∃ parent head, (ofHead parent head).complete options = .ok u := by
  rcases forall₂_mem_left (ofProgram_completes hTree) hUnit with ⟨head, -, parent, hRun⟩
  exact ⟨parent, head, hRun⟩

/-
  Branches leave and enter only what is marked. All that is
  around the source of a branch is marked, and so is all that is
  around its target but not around its source, unless the branch
  goes to its first statement.
-/
theorem branches_unstructure {options : FlowOptions} {units : List ProgramUnit} {tree : FlowTree}
    (hTree : ofProgram options units = .ok tree) {u : FunctionUnit} (hUnit : u ∈ tree.functionUnits)
    {s t : EvalId} (hBranch : u.BranchesTo s t) :
    (∀ c, u.Contains c s → u.unstructured c = true) ∧ ∀ c, u.Contains c t → ¬ u.Contains c s →
        u.unstructured c = true ∨ u.firstChild? c = some t := by
  rcases ofProgram_complete hTree hUnit with ⟨parent, head, hComplete⟩
  exact complete_branches hComplete hBranch

/- The first subprogram of a program, once it is complete. -/
def firstUnit? (options : FlowOptions) (units : List ProgramUnit) : Option FunctionUnit :=
  (ofProgram options units).toOption.bind fun tree => tree.functionUnits.head?

/- What holds of the first subprogram holds of one of the tree. -/
theorem exists_unit {options : FlowOptions} {p : FunctionUnit → Prop}
    (hFound : ∃ u ∈ firstUnit? options units, p u) :
    ∃ tree u, ofProgram options units = .ok tree ∧ u ∈ tree.functionUnits ∧ p u := by
  rcases hFound with ⟨u, hUnit, hHolds⟩
  rcases Option.bind_eq_some_iff.mp hUnit with ⟨tree, hTree, hHead⟩
  exact ⟨tree, u, eq_ok_of_toOption hTree, List.mem_of_head? hHead, hHolds⟩

/- A branch into two constructs, and one that leaves them again. -/
def jumps : List ProgramUnit :=
  [.subprogram (.mk
    { kind := .program
      name := none
      body :=
        [.action ⟨none, "goto 10", .goto 10⟩, .construct .do
            [⟨⟨none, "outer: do", ⟨.do none, some "outer"⟩⟩, [.construct .if
                [⟨⟨none, "if (c) then", ⟨.ifThen, none⟩⟩, [.action ⟨some 10, "continue", .continue⟩,
                    .action ⟨none, "exit outer", .exit (some "outer")⟩]⟩]
                ⟨none, "end if", ⟨.endIf, none⟩⟩]⟩]
            ⟨none, "end do outer", ⟨.endDo, some "outer"⟩⟩] } [])]

theorem branches_unstructure_jumps : ∃ tree u, ofProgram {} jumps = .ok tree ∧
      u ∈ tree.functionUnits ∧ (u.BranchesTo 0 5 ∧ u.Contains 3 5 ∧ ¬ u.Contains 3 0 ∧
        u.firstChild? 3 ≠ some 5 ∧ u.unstructured 3 = true) ∧ u.BranchesTo 6 9 ∧ u.Contains 1 6 ∧
        u.unstructured 1 = true := by
  have hFound : ∃ u ∈ firstUnit? {} jumps, u.BranchesTo 0 5 ∧ u.BranchesTo 6 9 ∧
        u.outer? 5 = some 3 ∧ u.outer? 0 = none ∧ u.outer? 6 = some 3 ∧
        u.outer? 3 = some 1 ∧ u.firstChild? 3 ≠ some 5 := by decide +kernel
  rcases exists_unit hFound with
    ⟨tree, u, hOk, hMember, hInto, hOut, hFive, hZero, hSix, hThree, hFirst⟩
  have hInside : u.Contains 3 5 := .direct hFive
  have hOutside : ¬ u.Contains 3 0 := fun hContains => hContains.outer?_ne_none hZero
  have hAround : u.Contains 1 6 := .inside hSix (.direct hThree)
  refine ⟨tree, u, hOk, hMember, ⟨hInto, hInside, hOutside, hFirst, ?_⟩, hOut, hAround, ?_⟩
  · exact ((branches_unstructure hOk hMember hInto).2 3 hInside hOutside).resolve_right hFirst
  · exact (branches_unstructure hOk hMember hOut).1 1 hAround

end FlowTree

end FortranIR
