import FortranIR.Proofs.Flow.Closure

/-
  This file proves where loops and `if` constructs that need
  branches get their blocks.

  The end statement of such a construct lets its exit begin a
  block, and counts the extra blocks of a loop. It decides by
  the mark of the construct at that time. The mark is final by
  then, unless a branch from behind the end statement goes into
  the construct.

  Main declarations:
    * `LoopControl.extraBlocks`
    * `Analyze.tracks_invariant`
    * `FlowTree.unstructured_blocks`
-/

namespace FortranIR

open Evaluation

variable {c id : EvalId} {kind : ConstructKind} {place : Nat} {parent : UnitParent}
variable {v u : FunctionUnit} {control : Option LoopControl} {siblings : List EvalId}
variable {source : SubprogramHead} {left' left : Open} {options : FlowOptions} {e : Evaluation}

/-
  The extra blocks of a loop that needs branches. A concurrent
  loop has a header and a body for each dimension, and one block
  for its mask, where one of them is the loop's own.
-/
def LoopControl.extraBlocks : Option LoopControl → Nat
  | some (.concurrent dims masked) => 2 * dims + masked.toNat - 1
  | _ => 1

/- The kind of a construct. -/
def EvalNode.construct? : EvalNode → Option ConstructKind
  | .construct kind => some kind
  | _ => none

theorem EvalNode.construct?_eq_some_iff {node : EvalNode} :
    node.construct? = some kind ↔ node = .construct kind := by
  cases node <;> simp [EvalNode.construct?]

theorem Evaluation.guard?_eq_some_iff : e.guard? = some g ↔ e.node = .guard g := by
  unfold guard?
  cases e.node <;> simp

theorem Evaluation.action?_eq_some_iff :
    e.action? = some act ↔ e.node = .action act := by
  unfold action?
  cases e.node <;> simp

theorem Evaluation.isAction_iff : e.isAction = true ↔ ∃ act, e.node = .action act := by
  simp only [isAction, Option.isSome_iff_exists, action?_eq_some_iff]

namespace FunctionUnit

----
-- Statements of constructs
----

/- The kind of the construct at a number. -/
def kindAt? (u : FunctionUnit) (id : EvalId) : Option ConstructKind :=
  (u.evals[id]?).bind fun e => e.node.construct?

/-
  A branch from behind the last statement of a construct goes
  into it.
-/
def EnteredLate (u : FunctionUnit) (c : EvalId) : Prop := ∃ last source target,
    u.lastChild? c = some last ∧ last < source ∧ u.BranchesTo source target ∧ u.Around c target ∧
      u.Crosses source target

/-
  The exit of a construct begins a block, and if the construct
  is a loop, its extra blocks are counted.
-/
structure HasBlocks (u : FunctionUnit) (c : EvalId) : Prop where
  exit : ∃ x, u.exit? c = some x ∧ u.beginsBlock x = true
  loop : ∀ first control name, u.firstChild? c = some first →
      u.guardAt? first = some ⟨.do control, name⟩ →
      u.extraBlocks? first = some (LoopControl.extraBlocks control)

/-
  A unit whose evaluations are numbered in the order of the
  source and whose constructs have the statements of their
  kinds.
-/
structure WellFormed (u : FunctionUnit) : Prop where
  ordered : u.Ordered
  guards : ∀ (k : EvalId) (e : Evaluation), u.evals[k]? = some e →
      e.isGuard = true → e.children = []
  children : ∀ (c : EvalId) (e : Evaluation), u.evals[c]? = some e → e.children.Pairwise (· < ·) ∧
        ∀ k ∈ e.children, u.outer? k = some c
  built : u.Built ConstructKind.admits

theorem ofHead_wellFormed (parent : UnitParent) (hFormed : source.isWellFormed = true) :
    (ofHead parent source).WellFormed where
  ordered := ofHead_ordered parent source
  guards _ _ := ofHead_guard_children
  children _ _ := ofHead_children
  built := ofHead_built hFormed

section

variable (hFormed : u.WellFormed)
include hFormed

/-
  The first statement of a construct begins it, the last one
  ends it, and no other one does.
-/
theorem WellFormed.construct (hKind : u.kindAt? c = some kind) : ∃ first last begins ends,
      u.firstChild? c = some first ∧ u.lastChild? c = some last ∧ u.guardAt? first = some begins ∧
      u.guardAt? last = some ends ∧ kind.begunBy begins.kind = true ∧
      kind.endedBy ends.kind = true ∧
      ∀ id g e, u.evals[c]? = some e → id ∈ e.children → id ≠ last → u.guardAt? id = some g →
        id = first ∧ g = begins ∨ kind.continuedBy g.kind = true := by
  rcases Option.bind_eq_some_iff.mp hKind with ⟨e, hEval, hNode⟩
  have hConstruct : e.node = .construct kind := EvalNode.construct?_eq_some_iff.mp hNode
  rcases hFormed.built c e kind hEval hConstruct with
    ⟨gs, ends, init, last, hFits, hChildren, hEnds, hGuards, hHead⟩
  cases gs with
  | nil => cases hFits
  | cons begins rest =>
    rw [List.map_cons, ConstructKind.admits, Bool.and_eq_true,
      Bool.and_eq_true, List.all_eq_true] at hFits
    rcases hFits with ⟨⟨hBegun, hContinued⟩, hEnded⟩
    rw [List.head?_cons, Option.bind_eq_some_iff] at hHead
    rcases hHead with ⟨first, hFirst, hBegins⟩
    refine ⟨first, last, begins, ends, ?_, ?_, hBegins, hEnds, hBegun, hEnded, ?_⟩
    · rw [firstChild?, hEval, Option.bind_some, hChildren, List.head?_append, hFirst]
      rfl
    · rw [lastChild?, hEval, Option.bind_some, hChildren, List.getLast?_append]
      rfl
    · intro id g e' hEval' hIn hOther hGuard
      rw [hEval, Option.some.injEq] at hEval'
      rw [← hEval', hChildren] at hIn
      have hInit : id ∈ init := by
        rcases List.mem_append.mp hIn with hLeft | hRight
        · exact hLeft
        · exact absurd (List.mem_singleton.mp hRight) hOther
      rcases List.head?_eq_some_iff.mp hFirst with ⟨others, rfl⟩
      rw [List.filterMap_cons_some hBegins, List.cons.injEq] at hGuards
      rcases List.mem_cons.mp hInit with rfl | hLater
      · exact .inl ⟨rfl, Option.some.inj (hGuard.symm.trans hBegins)⟩
      · have hRest : g ∈ rest := hGuards.2 ▸ List.mem_filterMap.mpr ⟨id, hLater, hGuard⟩
        exact .inr (hContinued g.kind (List.mem_map_of_mem hRest))

theorem WellFormed.outer?_of_lastChild? (hLast : u.lastChild? c = some last) :
    u.outer? last = some c := by
  rcases Option.bind_eq_some_iff.mp hLast with ⟨e, hEval, hSome⟩
  exact (hFormed.children c e hEval).2 last (List.mem_of_getLast? hSome)

theorem WellFormed.outer?_of_firstChild? (hFirst : u.firstChild? c = some first) :
    u.outer? first = some c := by
  rcases Option.bind_eq_some_iff.mp hFirst with ⟨e, hEval, hSome⟩
  exact (hFormed.children c e hEval).2 first (List.mem_of_head? hSome)

/- No other child comes before the first one. -/
theorem WellFormed.firstChild?_le (hEval : u.evals[c]? = some e)
    (hFirst : u.firstChild? c = some first) (hIn : id ∈ e.children) : first ≤ id := by
  rw [firstChild?, hEval] at hFirst
  rcases List.head?_eq_some_iff.mp hFirst with ⟨rest, hChildren⟩
  have hSorted := (hFormed.children c e hEval).1
  rw [hChildren] at hIn hSorted
  rcases List.mem_cons.mp hIn with rfl | hLater
  · exact Nat.le_refl id
  · exact Nat.le_of_lt ((List.pairwise_cons.mp hSorted).1 id hLater)

/- No other child comes behind the last one. -/
theorem WellFormed.le_lastChild? (hEval : u.evals[c]? = some e)
    (hLast : u.lastChild? c = some last) (hIn : id ∈ e.children) : id ≤ last := by
  rw [lastChild?, hEval] at hLast
  rcases List.getLast?_eq_some_iff.mp hLast with ⟨init, hChildren⟩
  have hSorted := (hFormed.children c e hEval).1
  rw [hChildren, List.pairwise_append] at hSorted
  rw [hChildren] at hIn
  rcases List.mem_append.mp hIn with hInit | hSame
  · exact Nat.le_of_lt (hSorted.2.2 id hInit last (List.mem_singleton.mpr rfl))
  · exact Nat.le_of_eq (List.mem_singleton.mp hSame)

/- A loop that begins with a `do` is ended by its `end do` only. -/
theorem WellFormed.lastChild?_of_endDo (hKind : u.kindAt? c = some kind)
    (hFirst : u.firstChild? c = some first) (hDo : u.guardAt? first = some ⟨.do control, name⟩)
    (hEval : u.evals[c]? = some e) (hIn : id ∈ e.children)
    (hEnd : (u.guardAt? id).map Guard.kind = some .endDo) : u.lastChild? c = some id := by
  rcases hFormed.construct hKind with
    ⟨first', last, begins, ends, hFirst', hLast, hBegins, -, hBegun, -, hOthers⟩
  cases hFirst.symm.trans hFirst'
  cases hDo.symm.trans hBegins
  rcases Option.map_eq_some_iff.mp hEnd with ⟨g, hGuard, hG⟩
  by_cases hSame : id = last
  · rw [hSame, hLast]
  · rcases hOthers id g e hEval hIn hSame hGuard with ⟨-, rfl⟩ | hContinued
    · cases hG
    · rw [hG] at hContinued
      cases kind <;> cases hContinued

/- The end of a loop or `if` is not marked while it is visited. -/
theorem WellFormed.isOpenAt_lastChild? (hKind : u.kindAt? c = some kind)
    (hSort : kind = .do ∨ kind = .if) (hLast : u.lastChild? c = some last) :
    u.isOpenAt last = false := by
  rcases hFormed.construct hKind with ⟨-, last', -, ends, -, hLast', -, hEnds, -, hEnded, -⟩
  cases hLast.symm.trans hLast'
  rcases Option.bind_eq_some_iff.mp hEnds with ⟨e, hEval, hGuard⟩
  rw [guard?_eq_some_iff] at hGuard
  rcases ends with ⟨endKind, name⟩
  rw [isOpenAt, hEval, Option.any_some, isOpen, hGuard]
  all_goals cases endKind <;> simp [ConstructKind.endedBy] at hEnded ⊢

end

----
-- Growth
----

section

variable (hGrows : u.Grows v)
include hGrows

theorem Grows.kindAt?_eq (id : EvalId) : v.kindAt? id = u.kindAt? id :=
  hGrows.alike.bind_eq (fun _ => rfl) id

theorem EnteredLate.grows (hLate : u.EnteredLate c) : v.EnteredLate c := by
  rcases hLate with ⟨last, s, t, hLast, hBehind, hBranch, hAround, hCrosses⟩
  refine ⟨last, s, t, (hGrows.lastChild?_eq c).trans hLast, hBehind,
    hBranch.grows hGrows, ?_, hGrows.crosses_iff.mpr hCrosses⟩
  rcases hAround with rfl | hContains
  · exact .inl rfl
  · exact .inr (hGrows.contains_iff.mpr hContains)

end

/- Blocks stay where they are, if the loop is not counted again. -/
theorem HasBlocks.spreads (hSpreads : Spreads u p v w) (hBlocks : v.HasBlocks c)
    (hCounted : ∀ first control name, v.firstChild? c = some first →
        v.guardAt? first = some ⟨.do control, name⟩ → ¬ p.counted first) : w.HasBlocks c where
  exit := by
    rcases hBlocks.exit with ⟨x, hExit, hBegins⟩
    exact ⟨x, hSpreads.grows.exits c x hExit, hSpreads.blocks x hBegins⟩
  loop first control name hFirst hDo := by
    rw [hSpreads.grows.firstChild?_eq] at hFirst
    rw [hSpreads.grows.guardAt?_eq] at hDo
    rw [hSpreads.counts first (hCounted first control name hFirst hDo)]
    exact hBlocks.loop first control name hFirst hDo

end FunctionUnit

----
-- End statements
----

namespace Analyze

open FunctionUnit

variable {a a' : Analysis}

theorem beginBlock_begins (hBelow : id < a.unit.evals.length)
    (hRun : beginBlock id a = .ok () a') : a'.unit.beginsBlock id = true := by
  cases hRun
  unfold FunctionUnit.beginsBlock
  simp [List.getElem?_eq_getElem hBelow]

/- A mark of an evaluation, seen at its extra blocks. -/
theorem mark_extraBlocks?
    (hRun : mark id f a = .ok () a') (k : EvalId) : a'.unit.extraBlocks? k = if id = k then
        (a.unit.evals[k]?).map fun e => (f e).localBlocks
      else a.unit.extraBlocks? k := by
  cases hRun
  unfold FunctionUnit.extraBlocks?
  by_cases hSame : id = k
  · simp [hSame, Function.comp_def]
  · simp [hSame]

theorem needsBranches_eq_ok (hFlag : a.unit.unstructured id = true)
    (hRun : needsBranches options id a = .ok needed a') : needed = true ∧ a' = a := by
  rcases look_bind_eq_ok hRun with ⟨e, hFound, hPure⟩
  cases hPure
  rw [eval_eq_ok_iff] at hFound
  rw [FunctionUnit.unstructured, hFound, Option.any_some] at hFlag
  exact ⟨by rw [Evaluation.needsBranches, hFlag, Bool.true_or], rfl⟩

/- All exits are evaluations of the unit. -/
def ExitsExist (u : FunctionUnit) : Prop := ∀ c x, u.exit? c = some x → x < u.evals.length

/- The end of a concurrent loop counts the blocks of the loop. -/
theorem concurrentBlocks_counts {id : Nat} (hOther : id ≠ first)
    (hThere : first < a.unit.evals.length)
    (hRun : concurrentBlocks first id dims masked a = .ok () a') :
    a'.unit.extraBlocks? first = some (2 * dims + masked.toNat - 1) := by
  rcases look_bind_eq_ok hRun with ⟨count, hSum, hRest⟩
  rcases bind_eq_ok_iff.mp hSum with ⟨twice, hTwice, hCount⟩
  have hTwice' : twice = dims + dims := by
    unfold checkedAdd at hTwice
    split at hTwice
    · injection hTwice with hSame
      exact hSame.symm
    · cases hTwice
  have hCount' : count = twice + masked.toNat := by
    unfold checkedAdd at hCount
    split at hCount
    · injection hCount with hSame
      exact hSame.symm
    · cases hCount
  rcases bind_eq_ok hRest with ⟨_, a₁, hFirst, hLast⟩
  rw [mark_extraBlocks? hLast, if_neg hOther, mark_extraBlocks? hFirst,
    if_pos rfl, List.getElem?_eq_getElem hThere, Option.map_some, hCount', hTwice', Nat.two_mul]

/- Steps that mark nothing and count no blocks. -/
abbrev Quiet (v w : FunctionUnit) : Prop :=
  Spreads v .none v w

/- Steps that mark nothing. -/
abbrev Unmarked (v w : FunctionUnit) : Prop :=
  Spreads v { Licence.none with counted := fun _ => True } v w

/- The steps at the end of a loop that needs branches. -/
theorem loopEnd_eq_ok (hFlag : a.unit.unstructured c = true)
    (hSiblings : siblings.head? = some first)
    (hDo : a.unit.guardAt? first = some ⟨.do control, name⟩)
    (hRun : loopEnd options c siblings id a = .ok () a') :
    ∃ x a₁ a₂ a₃, Quiet a.unit a₁.unit ∧ mark first (fun e =>
        { e with localBlocks := e.localBlocks + 1 }) a₁ = .ok () a₂ ∧ a₂.unit.exit? c = some x ∧
      beginBlock x a₂ = .ok () a₃ ∧ ((∃ dims masked, control = some (.concurrent dims masked) ∧
          concurrentBlocks first id dims masked a₃ = .ok () a') ∨
        LoopControl.extraBlocks control = 1 ∧ a' = a₃) := by
  rcases look_bind_eq_ok hRun with ⟨first', hHead, hRest⟩
  rw [entry, orElse_eq_ok_iff, ← List.head?_eq_getElem?, hSiblings, Option.some.injEq] at hHead
  subst hHead
  rcases bind_eq_ok hRest with ⟨_, a₁, hControl, hRest₁⟩
  rcases bind_eq_ok hRest₁ with ⟨_, a₂, hLoops, hRest₂⟩
  rcases bind_eq_ok hRest₂ with ⟨needed, a₃, hNeeds, hRest₃⟩
  have hSet : Quiet a.unit a₁.unit :=
    Marking.steers (setControl_marks trivial _) a () a₁ (.refl _) hControl
  have hUntil : Quiet a.unit a₂.unit :=
    hSet.trans ((loops_marks List.tail).spreads a₁ () a₂ hSet.grows hLoops)
  rcases needsBranches_eq_ok (hUntil.grows.flags c hFlag) hNeeds with ⟨rfl, rfl⟩
  rcases bind_eq_ok hRest₃ with ⟨_, a₄, hCount, hRest₄⟩
  rcases look_bind_eq_ok hRest₄ with ⟨x, hExit, hRest₅⟩
  rcases bind_eq_ok hRest₅ with ⟨_, a₅, hBlock, hRest₆⟩
  rcases look_bind_eq_ok hRest₆ with ⟨d, hFirst, hLast⟩
  rw [eval_eq_ok_iff] at hFirst
  -- the first statement of the loop is still its `do`
  have hKind : d.guard?.map Guard.kind = some (.do control) := by
    have hGrows := (Notes.grows (count_marks trivial _) hCount).trans
      (Notes.grows (beginBlock_marks x) hBlock)
    have hSame := (hUntil.grows.trans hGrows).guardAt?_eq first
    rw [hDo, guardAt?, hFirst, Option.bind_some] at hSame
    rw [hSame, Option.map_some]
  simp only [hKind] at hLast
  refine ⟨x, a₃, a₄, a₅, hUntil, hCount, exitOf_eq_ok_iff.mp hExit, hBlock, ?_⟩
  cases control with
  | none =>
    cases hLast
    exact .inr ⟨rfl, rfl⟩
  | some form =>
    cases form with
    | concurrent dims masked => exact .inl ⟨dims, masked, rfl, hLast⟩
    | _ =>
      cases hLast
      exact .inr ⟨rfl, rfl⟩

/-
  The end of a loop that needs branches: its exit begins a
  block, and its extra blocks are counted.
-/
theorem loopEnd_blocks (hFlag : a.unit.unstructured c = true)
    (hExits : ExitsExist a.unit) (hChild : a.unit.firstChild? c = some first)
    (hSiblings : siblings.head? = some first)
    (hDo : a.unit.guardAt? first = some ⟨.do control, name⟩)
    (hZero : a.unit.extraBlocks? first = some 0) (hOther : id ≠ first)
    (hRun : loopEnd options c siblings id a = .ok () a') : a'.unit.HasBlocks c := by
  have hKept : Adds {} a.unit a'.unit :=
    (loopEnd_marks options c (fun _ _ => trivial) trivial trivial a () a' hRun).1
  rcases loopEnd_eq_ok hFlag hSiblings hDo hRun with
    ⟨x, a₁, a₂, a₃, hUntil, hCount, hExit, hBlock, hLast⟩
  have hSame := mark_extraBlocks? hCount first
  have hGrows := Notes.grows (count_marks trivial _) hCount
  have hBlocks : Quiet a₂.unit a₃.unit :=
    (beginBlock_marks x).spreads a₂ () a₃ (.refl _) hBlock
  have hOnce : a₃.unit.extraBlocks? first = some 1 := by
    have hBefore : a₁.unit.extraBlocks? first = some 0 := by
      rw [hUntil.counts first (fun h => h), hZero]
    rcases Option.map_eq_some_iff.mp hBefore with ⟨e, hEval, hNone⟩
    rw [hBlocks.counts first (fun h => h), hSame, if_pos rfl, hEval, Option.map_some, hNone]
  have hThere : first < a₃.unit.evals.length := by
    rcases Option.map_eq_some_iff.mp hOnce with ⟨e, hEval, -⟩
    exact (List.getElem?_eq_some_iff.mp hEval).1
  -- a concurrent loop counts its blocks anew
  have hTail : Unmarked a₃.unit a'.unit ∧ a'.unit.extraBlocks? first =
          some (LoopControl.extraBlocks control) := by
    rcases hLast with ⟨dims, masked, rfl, hStep⟩ | ⟨hSingle, rfl⟩
    · exact ⟨(concurrentBlocks_marks trivial trivial dims masked).spreads a₃ () a' (.refl _) hStep,
        concurrentBlocks_counts hOther hThere hStep⟩
    · exact ⟨.refl _, by rw [hOnce, hSingle]⟩
  have hAfter := hBlocks.grows.trans hTail.1.grows
  have hExit' : a'.unit.exit? c = some x := hAfter.exits c x hExit
  refine ⟨⟨x, hExit', ?_⟩, ?_⟩
  · have hBelow : x < a₂.unit.evals.length := by
      rw [hGrows.alike.length_eq, hUntil.grows.alike.length_eq]
      exact hExits c x ((hKept.exits c).symm.trans hExit')
    exact hTail.1.blocks x (beginBlock_begins hBelow hBlock)
  · intro f control' name' hChild' hDo'
    rw [hKept.grows.firstChild?_eq, hChild, Option.some.injEq] at hChild'
    subst hChild'
    rw [hKept.grows.guardAt?_eq, hDo] at hDo'
    cases hDo'
    exact hTail.2

/- The end of an `if` that needs branches: its exit begins a block. -/
theorem endIf_blocks
    (hFlag : a.unit.unstructured c = true) (hExits : ExitsExist a.unit)
    (hRun : guard options c siblings last id ⟨.endIf, name⟩ a = .ok last' a') :
    ∃ x, a'.unit.exit? c = some x ∧ a'.unit.beginsBlock x = true := by
  rcases look_bind_eq_ok hRun with ⟨x, hExit, hRest⟩
  rcases bind_eq_ok hRest with ⟨needed, b₁, hNeeds, hRest'⟩
  rcases needsBranches_eq_ok hFlag hNeeds with ⟨rfl, rfl⟩
  rcases bind_eq_ok hRest' with ⟨_, a₁, hBlock, hLast⟩
  have hBegins := beginBlock_begins (hExits c x (exitOf_eq_ok_iff.mp hExit)) hBlock
  have hTail : Quiet a₁.unit a'.unit := Marking.steers (.quiet_bind
    (.forM fun l _ => setControl_marks trivial _) fun _ => .pure none) a₁ last' a' (.refl _) hLast
  refine ⟨x, ?_, hTail.blocks x hBegins⟩
  exact hTail.grows.exits c x ((Notes.grows (beginBlock_marks x) hBlock).exits c x
    (exitOf_eq_ok_iff.mp hExit))

----
-- Exits
----

theorem nextBeyondNops_lt (hExits : ExitsExist u)
    (hRun : u.nextBeyondNops id = .ok x) : x < u.evals.length := by
  rcases nextBeyondNops_eq_ok_iff.mp hRun with ⟨n, e, -, hEval, hLast⟩
  split at hLast
  · rcases hLast with ⟨c, -, hExit⟩
    exact hExits c x hExit
  · rw [hLast]
    exact (List.getElem?_eq_some_iff.mp hEval).1

/- A construct statement is visited inside of its construct. -/
theorem begin_guard_eq_ok {parent : Option EvalId}
    (hEval : a.unit.evals[id]? = some e) (hNode : e.node = .guard g)
    (hRun : begin options parent siblings left id a = .ok left' a') :
    ∃ c last, parent = some c ∧ guard options c siblings left.guard id g a = .ok last a' := by
  have hBeginning := begin_beginning hEval hRun
  rw [hNode] at hBeginning
  cases hBeginning with
  | guard hParent hGuard => exact ⟨_, _, hParent, hGuard⟩

/- The exit that a construct gets is an evaluation of the unit. -/
theorem begin_exits {parent : Option EvalId} (hExits : ExitsExist a.unit)
    (hLast : ∀ last, a.unit.lastChild? id = some last → last < a.unit.evals.length)
    (hEval : a.unit.evals[id]? = some e) (hBegins : Begins id f a a')
    (hExit : a.unit.exit? id = none)
    (hRun : begin options parent siblings left id a = .ok left' a') : ExitsExist a'.unit := by
  intro c x hFound
  rw [hBegins.grows.alike.length_eq]
  by_cases hSame : c = id
  · subst hSame
    rcases begin_exit? hEval hRun hExit hFound with ⟨kind, last, -, hChild, hFrom⟩
    split at hFrom
    · exact hFrom ▸ hLast last hChild
    · exact nextBeyondNops_lt hExits hFrom
  · exact hExits c x ((hBegins.exits c hSame).symm.trans hFound)

----
-- Traversal
----

/-
  What is known of the blocks at a place of a unit. The extra
  blocks of a loop are not counted before its end, and behind
  it, a loop or an `if` that needs branches has its blocks,
  unless it is entered late.
-/
structure Tracks (u v : FunctionUnit) (place : Nat) : Prop where
  exits : ExitsExist v
  zero : ∀ c kind first last control name, u.kindAt? c = some kind →
      u.firstChild? c = some first → u.lastChild? c = some last →
      u.guardAt? first = some ⟨.do control, name⟩ → place ≤ last → v.extraBlocks? first = some 0
  blocks : ∀ c kind last, u.kindAt? c = some kind →
      kind = .do ∨ kind = .if → u.lastChild? c = some last →
      last < place → v.unstructured c = true → v.HasBlocks c ∨ v.EnteredLate c

variable {opened : List EvalId}

/- The blocks of a loop are counted at its end only. -/
theorem Visits.lastChild?_of_counts (hFormed : u.WellFormed)
    (hVisits : Visits u opened siblings left id e)
    (hParent : e.isGuard = true → opened.head? ≠ none) (hKind : u.kindAt? c = some kind)
    (hFirst : u.firstChild? c = some first) (hDo : u.guardAt? first = some ⟨.do control, name⟩)
    (hCounts : Counts e siblings id first) : u.lastChild? c = some id := by
  have hAt : u.guardAt? id = e.guard? := by rw [guardAt?, hVisits.eval, Option.bind_some]
  rcases hCounts with ⟨hAction, rfl⟩ | ⟨hEnd, rfl | hHead⟩
  · -- an action is no construct statement
    rw [hDo, eq_comm, guard?_eq_some_iff] at hAt
    rcases isAction_iff.mp hAction with ⟨act, hNode⟩
    rw [hAt] at hNode
    cases hNode
  · rw [← hAt, hDo] at hEnd
    cases hEnd
  · have hGuard : e.isGuard = true := by
      rw [isGuard]
      rcases Option.map_eq_some_iff.mp hEnd with ⟨g, hSome, -⟩
      rw [hSome]
      rfl
    cases hOpen : opened.head? with
    | none => exact absurd hOpen (hParent hGuard)
    | some p =>
      rcases hVisits.siblings p hOpen with ⟨hIn, d, hEval, hChildren⟩
      -- the first statement is in one construct only
      have hSame : p = c := by
        have hOuter := (hFormed.children p d hEval).2 first (hChildren ▸ List.mem_of_head? hHead)
        rw [hFormed.outer?_of_firstChild? hFirst, Option.some.injEq] at hOuter
        exact hOuter.symm
      subst hSame
      exact hFormed.lastChild?_of_endDo hKind hFirst hDo hEval (hChildren ▸ hIn) (hAt ▸ hEnd)

/- The end statement of a loop or `if` that needs branches. -/
theorem Visits.ends (hFormed : u.WellFormed) (hVisits : Visits u opened siblings left place e)
    (hAt : At u place a) (hTracks : Tracks u a.unit place)
    (hRun : Analyze.begin options opened.head? siblings left place a = .ok left' a')
    (hKind : u.kindAt? c = some kind) (hSort : kind = .do ∨ kind = .if)
    (hLast : u.lastChild? c = some place) (hFlag : a.unit.unstructured c = true) :
    a'.unit.HasBlocks c := by
  rcases hFormed.construct hKind with
    ⟨first, last, begins, ends, hFirst, hLast', hBegins, hEnds, hBegun, hEnded, -⟩
  cases hLast.symm.trans hLast'
  rcases hAt.grows.getElem? hVisits.eval with ⟨e', hEval', _⟩
  have hNode : e'.node = .guard ends := by
    have hSame := hAt.grows.guardAt?_eq place
    rwa [hEnds, guardAt?, hEval', Option.bind_some, guard?_eq_some_iff] at hSame
  rcases begin_guard_eq_ok hEval' hNode hRun with ⟨p, l, hParent, hGuard⟩
  have hSame : p = c := by
    have hOuter := hFormed.outer?_of_lastChild? hLast
    rw [outer?, hVisits.eval, Option.bind_some, hVisits.outer, hParent, Option.some.injEq] at hOuter
    exact hOuter
  subst hSame
  rcases hVisits.siblings p hParent with ⟨-, d, hEval, hChildren⟩
  have hHead : siblings.head? = some first := by
    rw [← hChildren, ← hFirst, firstChild?, hEval, Option.bind_some]
  rcases ends with ⟨endKind, endName⟩
  rcases begins with ⟨beginKind, beginName⟩
  rcases hSort with rfl | rfl
  · -- a loop
    cases endKind <;> simp [ConstructKind.endedBy] at hEnded
    cases beginKind <;> simp [ConstructKind.begunBy] at hBegun
    rcases bind_eq_ok hGuard with ⟨_, a₁, hEnd, hPure⟩
    cases hPure
    have hOther : place ≠ first := by
      rintro rfl
      rw [hBegins] at hEnds
      cases hEnds
    exact loopEnd_blocks hFlag hTracks.exits ((hAt.grows.firstChild?_eq p).trans hFirst) hHead
      ((hAt.grows.guardAt?_eq first).trans hBegins)
      (hTracks.zero p _ first place _ _ hKind hFirst hLast hBegins .refl) hOther hEnd
  · -- an `if`, which has no extra blocks
    cases endKind <;> simp [ConstructKind.endedBy] at hEnded
    cases beginKind <;> simp [ConstructKind.begunBy] at hBegun
    have hGrows := (guard_notes options p siblings left.guard place _).grows hGuard
    refine ⟨endIf_blocks hFlag hTracks.exits hGuard, ?_⟩
    intro f control name hChild hDo
    rw [hGrows.firstChild?_eq, hAt.grows.firstChild?_eq, hFirst, Option.some.injEq] at hChild
    subst hChild
    rw [hGrows.guardAt?_eq, hAt.grows.guardAt?_eq, hBegins] at hDo
    cases hDo

/- A branch begins at an action. -/
theorem branchesTo_guard (hGuard : v.guardAt? s = some g) : ¬ v.BranchesTo s t := by
  have hAction : ∀ e act, v.evals[s]? = some e → e.node ≠ .action act := by
    intro e act hEval hNode
    rw [guardAt?, hEval, Option.bind_some, guard?_eq_some_iff, hNode] at hGuard
    cases hGuard
  rintro (⟨hEval, hNode, -, -⟩ | ⟨hEval, hNode, -, -⟩ | ⟨hEval, hNode, -, -⟩)
  all_goals exact hAction _ _ hEval hNode

theorem Tracks.begin (hFormed : u.WellFormed) (hVisits : Visits u opened siblings left place e)
    (hAt : At u place a) (hTracks : Tracks u a.unit place)
    (hRun : Analyze.begin options opened.head? siblings left place a = .ok left' a') :
    Tracks u a'.unit (place + 1) := by
  have hSpreads := hVisits.spreads hFormed.ordered hAt hRun
  rcases hAt.grows.getElem? hVisits.eval with ⟨e', hEval', hFixed⟩
  have hNode : e'.node = e.node := congrArg Prod.fst hFixed
  have hParent : e.isGuard = true → opened.head? ≠ none := by
    intro hGuard
    rcases Option.isSome_iff_exists.mp hGuard with ⟨g, hSome⟩
    rw [guard?_eq_some_iff, ← hNode] at hSome
    rcases begin_guard_eq_ok hEval' hSome hRun with ⟨c, last, hOpen, -⟩
    rw [hOpen]
    exact Option.some_ne_none c
  refine ⟨?_, ?_, ?_⟩
  · refine begin_exits hTracks.exits ?_ hEval' (hVisits.begins hAt hRun)
      (hAt.exits _ .refl) hRun
    intro last hLast
    rw [hAt.grows.lastChild?_eq] at hLast
    rw [hAt.grows.alike.length_eq]
    rcases Option.bind_eq_some_iff.mp (hFormed.outer?_of_lastChild? hLast) with ⟨f, hEval, -⟩
    exact (List.getElem?_eq_some_iff.mp hEval).1
  · intro c kind first last control name hKind hFirst hLast hDo hBelow
    rw [hSpreads.counts first fun hCounts => ?_]
    · exact hTracks.zero c kind first last control name hKind hFirst
        hLast hDo (Nat.le_of_succ_le hBelow)
    · have hEnd := hVisits.lastChild?_of_counts hFormed hParent hKind hFirst hDo hCounts
      rw [hLast, Option.some.injEq] at hEnd
      exact absurd hBelow (by rw [hEnd]; exact Nat.not_succ_le_self _)
  · intro c kind last hKind hSort hLast hBelow hFlag
    have hInside : c < last := hFormed.ordered last c (hFormed.outer?_of_lastChild? hLast)
    rcases Nat.lt_or_eq_of_le (Nat.le_of_lt_succ hBelow) with hBehind | rfl
    · rcases hSpreads.flags c hFlag with hBefore | ⟨rfl, -⟩ | ⟨t, ⟨hBranch, hCrosses⟩, hAround, -⟩
      · rcases hTracks.blocks c kind last hKind hSort hLast hBehind hBefore with hBlocks | hLate
        · refine .inl (hBlocks.spreads hSpreads ?_)
          intro first control name hFirst hDo hCounts
          rw [hAt.grows.firstChild?_eq] at hFirst
          rw [hAt.grows.guardAt?_eq] at hDo
          have hEnd := hVisits.lastChild?_of_counts hFormed hParent hKind hFirst hDo hCounts
          rw [hLast, Option.some.injEq] at hEnd
          exact absurd hBehind (by rw [hEnd]; exact Nat.lt_irrefl _)
        · exact .inr (hLate.grows hSpreads.grows)
      · exact absurd (Nat.lt_trans hInside hBehind) (Nat.lt_irrefl _)
      · -- a branch from here goes into the construct
        refine .inr (EnteredLate.grows hSpreads.grows ?_)
        exact ⟨last, place, t, (hAt.grows.lastChild?_eq c).trans hLast,
          hBehind, hBranch, hAround, hCrosses⟩
    · -- the end statement itself
      refine .inl (hVisits.ends hFormed hAt hTracks hRun hKind hSort hLast ?_)
      rcases hFormed.construct hKind with ⟨-, last', -, ends, -, hLast', -, hEnds, -⟩
      cases hLast.symm.trans hLast'
      rcases hSpreads.flags c hFlag with hBefore | ⟨rfl, -⟩ | ⟨t, ⟨hBranch, -⟩, -⟩
      · exact hBefore
      · exact absurd hInside (Nat.lt_irrefl _)
      · exact absurd hBranch (branchesTo_guard ((hAt.grows.guardAt?_eq last).trans hEnds))

theorem Tracks.finish (hFormed : u.WellFormed) (hStructured : options.structured = true) {id : Nat}
    (hVisits : Visits u opened siblings left id e)
    (hInside : ∀ x, id < x → x < place → u.Contains id x) (hAt : At u place a)
    (hClosed : a.unit.Closed ((id :: opened).filter u.isOpenAt)) (hTracks : Tracks u a.unit place)
    (hRun : Analyze.finish options opened.head? left id a = .ok left' a') :
    Tracks u a'.unit place := by
  have hSpreads : Spreads u { Licence.none with own := _ } a.unit a'.unit :=
    finish_spreads hStructured hAt.grows hRun
  have hKept := (finish_notes options opened.head? left id a left' a' hRun).1
  refine ⟨?_, ?_, ?_⟩
  · intro c x hFound
    rw [hKept.grows.alike.length_eq]
    exact hTracks.exits c x ((hKept.exits c).symm.trans hFound)
  · intro c kind first last control name hKind hFirst hLast hDo hBelow
    rw [hSpreads.counts first fun hNone => hNone]
    exact hTracks.zero c kind first last control name hKind hFirst hLast hDo hBelow
  · intro c kind last hKind hSort hLast hBehind hFlag
    -- the construct is marked already, if its end is over
    have hBefore : a.unit.unstructured c = true := by
      rcases hSpreads.flags c hFlag with hBefore | hOwn | ⟨_, hNone, -⟩
      · exact hBefore
      · rcases hOwn with ⟨hMarked, hParent | ⟨hOpen, -⟩⟩
        · rcases hVisits.siblings c hParent with ⟨hIn, d, hEval, hChildren⟩
          have hOuter : u.outer? id = some c := by
            rw [outer?, hVisits.eval, Option.bind_some, hVisits.outer, hParent]
          have hLast' := hFormed.outer?_of_lastChild? hLast
          -- nothing directly in the construct is behind its end
          have hSame : id = last := by
            have hLe : id ≤ last := hFormed.le_lastChild? hEval hLast (hChildren ▸ hIn)
            rcases Nat.lt_or_eq_of_le hLe with hLess | hSame
            · rcases (hInside last hLess hBehind).cases_outer hLast' with rfl | hAround
              · exact absurd (hFormed.ordered _ _ hOuter) (Nat.lt_irrefl _)
              · exact absurd (hFormed.ordered _ _ hOuter)
                  (Nat.lt_asymm (hAround.lt hFormed.ordered))
            · exact hSame
          subst hSame
          rw [← hAt.grows.outer?_eq] at hOuter
          rcases hClosed id c hMarked hOuter with hDone | hOpened
          · exact hDone
          · -- an end statement is not marked by its visit
            have hOpen := (List.mem_filter.mp hOpened).2
            rw [hFormed.isOpenAt_lastChild? hKind hSort hLast] at hOpen
            cases hOpen
        · rcases hVisits.waits.conditional c hOpen with ⟨f, hEval, -, hIf⟩
          rw [kindAt?, hEval] at hKind
          rw [isConditional, EvalNode.construct?_eq_some_iff.mp hKind] at hIf
          cases hIf
      · exact hNone.elim
    rcases hTracks.blocks c kind last hKind hSort hLast hBehind hBefore with hBlocks | hLate
    · exact .inl (hBlocks.spreads hSpreads fun _ _ _ _ _ hNone => hNone)
    · exact .inr (hLate.grows hSpreads.grows)

theorem tracks_invariant (hFormed : u.WellFormed) (hStructured : options.structured = true) :
    Invariant u options fun opened place a =>
      a.unit.Closed (opened.filter u.isOpenAt) ∧ Tracks u a.unit place where
  begin := by
    intro opened siblings left left' place e a a' hVisits hAt hInv hRun
    exact ⟨(closed_invariant hFormed.ordered hFormed.guards
      hStructured).begin hVisits hAt hInv.1 hRun, hInv.2.begin hFormed hVisits hAt hRun⟩
  finish := by
    intro opened siblings left left' id place e a a' hVisits hInside hAt hInv hRun
    exact ⟨(closed_invariant hFormed.ordered hFormed.guards
      hStructured).finish hVisits hInside hAt hInv.1 hRun,
      hInv.2.finish hFormed hStructured hVisits hInside hAt hInv.1 hRun⟩

end Analyze

----
-- Units
----

namespace FunctionUnit

open Analyze

theorem ofHead_tracks {source : SubprogramHead} :
    Tracks (ofHead parent source) (ofHead parent source) 0 where
  exits c x hExit := by
    rw [(ofHead_at parent source).exits c (Nat.zero_le c)] at hExit
    cases hExit
  zero c kind first last control name _ _ _ hDo _ := by
    rcases Option.bind_eq_some_iff.mp hDo with ⟨e, hEval, -⟩
    rw [extraBlocks?, hEval, ← ofHead_laid hEval]
    rfl
  blocks c kind last _ _ _ hBelow := absurd hBelow (Nat.not_lt_zero _)

/- The blocks of a complete unit. -/
theorem complete_blocks (hFormed : source.isWellFormed = true)
    (hStructured : options.structured = true)
    (hRun : (ofHead parent source).complete options = .ok v) (hKind : v.kindAt? c = some kind)
    (hSort : kind = .do ∨ kind = .if) (hFlag : v.unstructured c = true) :
    v.HasBlocks c ∨ v.EnteredLate c := by
  rcases complete_adds hRun with ⟨analyzed, hAnalyze, hAdds⟩
  have hQuiet : Quiet analyzed v := hAdds.spreads
  have hWell := ofHead_wellFormed parent hFormed
  have hClosed : (ofHead parent source).Closed [] := by
    intro k o hMarked
    rw [ofHead_unstructured] at hMarked
    cases hMarked
  rcases (tracks_invariant hWell hStructured).analyze
    ⟨hClosed, ofHead_tracks⟩ hAnalyze with ⟨a, rfl, hAt, -, hTracks⟩
  rw [hQuiet.grows.kindAt?_eq, hAt.grows.kindAt?_eq] at hKind
  have hBefore : a.unit.unstructured c = true := hAdds.grows_back.flags c hFlag
  rcases hWell.construct hKind with ⟨-, last, -, -, -, hLast, -⟩
  have hBelow : last < a.unit.evals.length := by
    rcases Option.bind_eq_some_iff.mp (hWell.outer?_of_lastChild? hLast) with ⟨e, hEval, -⟩
    rw [hAt.grows.alike.length_eq]
    exact (List.getElem?_eq_some_iff.mp hEval).1
  rcases hTracks.blocks c kind last hKind hSort hLast hBelow hBefore with hBlocks | hLate
  · exact .inl (hBlocks.spreads hQuiet fun _ _ _ _ _ hNone => hNone)
  · exact .inr (hLate.grows hQuiet.grows)

/- The construct is entered by none of the branches behind it. -/
theorem not_enteredLate (hOrdered : v.Ordered) (hLast : v.lastChild? c = some last) (hBranches :
      ∀ s, s < v.evals.length → last < s → ∀ t ∈ v.targets s, c ∉ t :: v.ancestors t) :
    ¬ v.EnteredLate c := by
  rintro ⟨last', s, t, hLast', hBehind, hBranch, hAround, -⟩
  cases hLast.symm.trans hLast'
  refine hBranches s hBranch.lt_length hBehind t (branchesTo_iff.mp hBranch) ?_
  rw [List.mem_cons, mem_ancestors_iff hOrdered]
  exact hAround

end FunctionUnit

----
-- Trees
----

namespace FlowTree

open FunctionUnit

/-
  A loop or `if` that needs branches has its blocks, if no
  branch from behind it goes into it: its exit begins a block,
  and the extra blocks of a loop are counted at its `do`.
-/
theorem unstructured_blocks {options : FlowOptions} (hStructured : options.structured = true)
    {units : List ProgramUnit} {tree : FlowTree} (hTree : ofProgram options units = .ok tree)
    {u : FunctionUnit} (hUnit : u ∈ tree.functionUnits) (hFormed : u.source.isWellFormed = true)
    {c : EvalId} {e : Evaluation} {kind : ConstructKind} (hEval : u.evals[c]? = some e)
    (hNode : e.node = .construct kind) (hSort : kind = .do ∨ kind = .if)
    (hFlag : e.isUnstructured = true) (hEarly : ¬ u.EnteredLate c) :
    (∃ x y, e.exit = some x ∧ u.evals[x]? = some y ∧ y.isNewBlock = true) ∧ (kind = .do →
        ∃ first d control name, e.children.head? = some first ∧ u.evals[first]? = some d ∧
          d.node = .guard ⟨.do control, name⟩ ∧
          d.localBlocks = LoopControl.extraBlocks control) := by
  rcases ofProgram_complete hTree hUnit with ⟨parent, head, hComplete⟩
  rw [complete_source hComplete] at hFormed
  have hKind : u.kindAt? c = some kind := by
    rw [kindAt?, hEval, Option.bind_some, hNode]
    rfl
  have hMarked : u.unstructured c = true := by rw [unstructured, hEval, Option.any_some, hFlag]
  have hBlocks : u.HasBlocks c := (complete_blocks hFormed hStructured hComplete hKind hSort
      hMarked).resolve_right hEarly
  refine ⟨?_, ?_⟩
  · rcases hBlocks.exit with ⟨x, hExit, hBegins⟩
    rw [exit?, hEval, Option.bind_some] at hExit
    rcases Option.any_eq_true _ _ |>.mp hBegins with ⟨y, hAt, hBlock⟩
    exact ⟨x, y, hExit, hAt, hBlock⟩
  · rintro rfl
    have hGrows := complete_grows hComplete
    rw [hGrows.kindAt?_eq] at hKind
    rcases (ofHead_wellFormed parent hFormed).construct hKind with
      ⟨first, -, begins, -, hFirst, -, hBegins, -, hBegun, -⟩
    rcases begins with ⟨beginKind, name⟩
    cases beginKind <;> simp [ConstructKind.begunBy] at hBegun
    rename_i control
    rw [← hGrows.firstChild?_eq] at hFirst
    rw [← hGrows.guardAt?_eq] at hBegins
    have hCount := hBlocks.loop first control name hFirst hBegins
    rw [firstChild?, hEval, Option.bind_some] at hFirst
    rcases Option.bind_eq_some_iff.mp hBegins with ⟨d, hAt, hGuard⟩
    rw [extraBlocks?, hAt, Option.map_some, Option.some.injEq] at hCount
    exact ⟨first, d, control, name, hFirst, hAt, guard?_eq_some_iff.mp hGuard, hCount⟩

/-
  A masked concurrent loop that is left by a branch, and an `if`
  in it. Behind the loop, a branch goes back to where it began.
-/
def backwardJump : List ProgramUnit :=
  [.subprogram (.mk
    { kind := .program
      name := none
      body :=
        [.action ⟨some 10, "continue", .continue⟩, .construct .do
            [⟨⟨none, "do concurrent (i = 1:n, j = 1:n, m)",
                ⟨.do (some (.concurrent 2 true)), none⟩⟩, [.construct .if
                [⟨⟨none, "if (c) then", ⟨.ifThen, none⟩⟩, [.action ⟨none, "goto 20", .goto 20⟩]⟩]
                ⟨none, "end if", ⟨.endIf, none⟩⟩]⟩] ⟨none, "end do", ⟨.endDo, none⟩⟩,
          .action ⟨some 20, "y = 1", .assignment⟩, .action ⟨none, "goto 10", .goto 10⟩] } [])]

/- The two constructs are left for the end, and not entered again. -/
theorem unstructured_blocks_backwardJump : ∃ tree u loop test x first,
      ofProgram {} backwardJump = .ok tree ∧ u ∈ tree.functionUnits ∧ u.source.isWellFormed = true ∧
      (u.evals[1]? = some loop ∧ loop.node = .construct .do ∧
        loop.isUnstructured = true ∧ ¬ u.EnteredLate 1 ∧ loop.children.head? = some first ∧
        u.extraBlocks? first = some 4) ∧ u.evals[3]? = some test ∧ test.node = .construct .if ∧
        test.isUnstructured = true ∧ ¬ u.EnteredLate 3 ∧
        test.exit = some x ∧ u.beginsBlock x = true := by
  have hFound : ∃ u ∈ firstUnit? {} backwardJump, u.source.isWellFormed = true ∧
        (∃ e ∈ u.evals[1]?, e.node.construct? = some .do ∧ e.isUnstructured = true) ∧
        (∃ e ∈ u.evals[3]?, e.node.construct? = some .if ∧ e.isUnstructured = true) ∧
        (u.firstChild? 1).bind u.guardAt? = some ⟨.do (some (.concurrent 2 true)), none⟩ ∧
        u.lastChild? 1 = some 7 ∧ u.lastChild? 3 = some 6 ∧
        ∀ s < u.evals.length, 6 < s → ∀ t ∈ u.targets s,
          ∀ c ∈ [1, 3], c ∉ t :: u.ancestors t := by decide +kernel
  rcases exists_unit hFound with ⟨tree, u, hOk, hMember, hFormed,
    ⟨loop, hAt, hDo, hFlag⟩, ⟨test, hAt', hIf, hFlag'⟩, hHead, hEnd, hEnd', hBehind⟩
  rw [EvalNode.construct?_eq_some_iff] at hDo hIf
  rcases ofProgram_complete hOk hMember with ⟨parent, head, hComplete⟩
  have hOrdered : u.Ordered := (complete_grows hComplete).ordered (ofHead_ordered parent head)
  have hLoop : ¬ u.EnteredLate 1 :=
    not_enteredLate hOrdered hEnd fun s hBelow hAfter t hTarget =>
      hBehind s hBelow (Nat.lt_of_succ_lt hAfter) t hTarget 1 (by simp)
  have hTest : ¬ u.EnteredLate 3 :=
    not_enteredLate hOrdered hEnd' fun s hBelow hAfter t hTarget =>
      hBehind s hBelow hAfter t hTarget 3 (by simp)
  rcases (unstructured_blocks rfl hOk hMember hFormed hAt hDo (.inl rfl)
    hFlag hLoop).2 rfl with ⟨first, d, control, name, hFirst, hD, hNode, hCount⟩
  rcases (unstructured_blocks rfl hOk hMember hFormed hAt' hIf (.inr rfl)
    hFlag' hTest).1 with ⟨x, y, hExit, hY, hBlock⟩
  -- the `do` of the loop has two dimensions and a mask
  rw [firstChild?, hAt, Option.bind_some, hFirst, Option.bind_some,
    guardAt?, hD, Option.bind_some, guard?_eq_some_iff, hNode] at hHead
  cases hHead
  refine ⟨tree, u, loop, test, x, first, hOk, hMember, hFormed,
    ⟨hAt, hDo, hFlag, hLoop, hFirst, ?_⟩, hAt', hIf, hFlag', hTest, hExit, ?_⟩
  · rw [extraBlocks?, hD, Option.map_some, hCount]
    rfl
  · rw [beginsBlock, hY, Option.any_some, hBlock]

/- A loop that a branch from behind it goes into. -/
def lateJump : List ProgramUnit :=
  [.subprogram (.mk
    { kind := .program
      name := none
      body :=
        [.construct .do
            [⟨⟨none, "do i = 1, n", ⟨.do (some (.bounds .integer)), none⟩⟩,
              [.action ⟨some 20, "x = 1", .assignment⟩]⟩] ⟨none, "end do", ⟨.endDo, none⟩⟩,
          .action ⟨none, "y = 1", .assignment⟩, .action ⟨none, "goto 20", .goto 20⟩] } [])]

/-
  The end of the loop is analyzed before the branch. The loop is
  marked in the end, but its exit begins no block, and no extra
  block is counted.
-/
theorem not_blocks_lateJump : ∃ tree u e x y first d, ofProgram {} lateJump = .ok tree ∧
      u ∈ tree.functionUnits ∧ u.source.isWellFormed = true ∧
      u.evals[0]? = some e ∧ e.node = .construct .do ∧ e.isUnstructured = true ∧
      e.exit = some x ∧ u.evals[x]? = some y ∧ y.isNewBlock = false ∧
      e.children.head? = some first ∧ u.evals[first]? = some d ∧ d.localBlocks = 0 := by
  have hFound : ∃ u ∈ firstUnit? {} lateJump, u.source.isWellFormed = true ∧
        ∃ e ∈ u.evals[0]?, e.node.construct? = some .do ∧ e.isUnstructured = true ∧
          (∃ x ∈ e.exit, ∃ y ∈ u.evals[x]?, y.isNewBlock = false) ∧
          ∃ first ∈ e.children.head?, ∃ d ∈ u.evals[first]?, d.localBlocks = 0 := by
    decide +kernel
  rcases exists_unit hFound with ⟨tree, u, hOk, hMember, hFormed, e, hEval, hKind, hFlag,
    ⟨x, hX, y, hAt, hBlock⟩, first, hHead, d, hAt', hCount⟩
  exact ⟨tree, u, e, x, y, first, d, hOk, hMember, hFormed, hEval,
    EvalNode.construct?_eq_some_iff.mp hKind, hFlag, hX, hAt, hBlock, hHead, hAt', hCount⟩

end FlowTree

end FortranIR
