import FortranIR.Proofs.Flow.Successors
import FortranIR.Proofs.Flow.Totality

/-
  This file proves where the last statement of an arm goes.

  It leaves the construct or directive that it is directly in,
  which need not be the construct of the arm. A construct that
  ends with code is left for its own last statement.

  Main declarations:
    * `FunctionUnit.complete_leaves`
    * `FlowTree.arm_exits`
-/

namespace FortranIR

variable {c n s : EvalId} {u : FunctionUnit} {options : FlowOptions} {e g : Evaluation}

----
-- Arms
----

namespace FunctionUnit

/- A statement is left for one place only. -/
theorem Escapes.unique {id x y : EvalId} (hEscapes : u.Escapes id x) (hOther : u.Escapes id y) :
    x = y := by
  induction hEscapes with
  | stop => cases hOther <;> grind
  | skip => cases hOther <;> grind

variable (hPlaced : u.Placed)
include hPlaced

/- What a statement is left for comes behind it. -/
theorem Placed.lt_of_escapes {id x : EvalId} (hEscapes : u.Escapes id x) : id < x := by
  induction hEscapes with
  | stop hNext => exact (hPlaced.next?_eq_some hNext).1
  | skip hNext hEval hNop hOuter hLast _ ih =>
    rcases hPlaced.nop_cases hEval hNop with ⟨d, kind, -, hSame, hIn, hKind, -⟩
    cases hOuter.symm.trans hSame
    have hInside := hPlaced.le_lastChild? hKind hLast (.direct hIn)
    have hBefore := (hPlaced.next?_eq_some hNext).1
    exact Nat.lt_trans hBefore (Nat.lt_of_le_of_lt hInside ih)

/-
  What ends an arm of a construct is directly in the construct, or
  is the last statement of the construct that it is in.
-/
theorem Placed.arm_last {o last : EvalId} (hNext : u.next? s = some n)
    (hGuard : u.evals[n]? = some g) (hNop : g.isNop = true) (hArm : g.outer = some c)
    (hOuter : u.outer? s = some o) (hKind : u.kindAt? o = some kind)
    (hLast : u.lastChild? o = some last) : o = c ∨ s = last := by
  have hOrdered := hPlaced.formed.ordered
  rcases hPlaced.next?_eq_some hNext with ⟨hBehind, -, hNone⟩
  rcases Nat.lt_or_eq_of_le (hPlaced.le_lastChild? hKind hLast (.direct hOuter)) with hLess | hSame
  · -- the arm would end in the middle of the inner construct
    rcases hPlaced.formed.construct hKind with ⟨-, last', -, ends, -, hLast', -, hEnds, -⟩
    cases hLast.symm.trans hLast'
    rcases Option.bind_eq_some_iff.mp hEnds with ⟨f, hF, hEnd⟩
    have hExecutable := Evaluation.isExecutable_of_isGuard (e := f)
      (by rw [Evaluation.isGuard, hEnd]; rfl)
    have hUpTo : n ≤ last :=
      Nat.le_of_not_lt fun hLater => Nat.not_le_of_lt hLess (hNone last f hF hExecutable hLater)
    have hInner : u.Contains o n := hPlaced.contains_between
      (.direct (hPlaced.formed.outer?_of_lastChild? hLast))
      (Nat.lt_trans (hOrdered s o hOuter) hBehind) hUpTo
    have hOf : u.outer? n = some c := by rw [outer?, hGuard, Option.bind_some, hArm]
    rcases hPlaced.contains_of_nop hNext hGuard hNop with ⟨c', -, hSame, -, hAround⟩
    cases hArm.symm.trans hSame
    rcases hInner.cases_outer hOf with hSame | hDeeper
    · exact .inl hSame
    · rcases hAround.cases_outer hOuter with hSame | hDeeper'
      · exact .inl hSame.symm
      · exact absurd (hDeeper.lt hOrdered) (Nat.lt_asymm (hDeeper'.lt hOrdered))
  · exact .inr hSame

/- The action of an `if` comes before another arm. -/
theorem Placed.not_isConditional (hNext : u.next? s = some n) (hGuard : u.evals[n]? = some g)
    (hArm : g.isIntermediate = true) (hEval : u.evals[s]? = some e) : e.isConditional = false := by
  refine Bool.eq_false_iff.mpr fun hIs => ?_
  have hPaired : Evaluation.Paired (u.evals.map Evaluation.written) := by
    rw [hPlaced.threaded.source, SubprogramHead.listing]
    refine (Node.nodesListing_paired _).append ?_
    split
    · trivial
    · exact .single rfl
  rcases (Evaluation.Paired.of_written hPaired).getElem? hEval hIs with ⟨f, hF, hAction⟩
  rcases hPlaced.next?_eq_some hNext with ⟨hBehind, -, hNone⟩
  have hUpTo : n ≤ s + 1 := Nat.le_of_not_lt fun hLater => Nat.not_succ_le_self s
    (hNone _ f hF (by simp [Evaluation.isExecutable, hAction]) hLater)
  cases Nat.le_antisymm hUpTo hBehind
  cases hGuard.symm.trans hF
  rcases Evaluation.isAction_iff.mp hAction with ⟨a, hNode⟩
  simp [Evaluation.isIntermediate, Evaluation.guard?, hNode] at hArm

end FunctionUnit

----
-- Analysis
----

namespace Analyze

open FunctionUnit

/- What leaves its arm goes to the exit of what it is in. -/
theorem leaveArm_control {a : Analysis} {parent : Option EvalId}
    (hEval : a.unit.evals[s]? = some e) (hControl : a.unit.control? s = none)
    (hNext : e.lexicalNext = some n) (hGuard : a.unit.evals[n]? = some g)
    (hArm : g.isIntermediate = true)
    (hRun : leaveArm parent s a = .ok () a') : a'.unit.control? s = parent.bind a.unit.exit? := by
  rw [control?, hEval, Option.bind_some] at hControl
  rcases look_bind_eq_ok hRun with ⟨_, hSame, hRest⟩
  cases hEval.symm.trans (eval_eq_ok_iff.mp hSame)
  simp only [hControl, hNext] at hRest
  rcases look_bind_eq_ok hRest with ⟨_, hSame, hRest⟩
  cases hGuard.symm.trans (eval_eq_ok_iff.mp hSame)
  rw [if_pos hArm] at hRest
  rcases look_bind_eq_ok hRest with ⟨o, hSome, hRest⟩
  rcases look_bind_eq_ok hRest with ⟨f, hOuter, hRest⟩
  rcases bind_eq_ok hRest with ⟨_, a₁, hSet, hBlock⟩
  rw [(beginBlock_marks n).control?_eq hBlock, orElse_eq_ok_iff.mp hSome, Option.bind_some, exit?,
    eval_eq_ok_iff.mp hOuter, Option.bind_some]
  cases hSet
  simp [control?, hEval]

/- What ends an arm leaves it behind its visit. -/
theorem arms_invariant (hOrdered : u.Ordered) (hEval : u.evals[s]? = some e)
    (hPlain : e.steers = false) (hClosed : e.isLeftOpen = false) (hNext : e.lexicalNext = some n)
    (hGuard : u.evals[n]? = some g) (hArm : g.isIntermediate = true) :
    Invariant u options fun opened place a => (place :: opened).Pairwise (· > ·) ∧
      Stage (fun v => v.control? s = none) (fun v => v.control? s = (u.outer? s).bind v.exit?)
        s opened place a.unit := by
  refine control_invariant hEval hClosed ?_ ?_ ?_
  · intro opened siblings left left' a a' hVisits hAt hNone hRun
    rcases hAt.grows.alike.symm.getElem? hEval with ⟨e', hEval', hLaid⟩
    have hSame := (Evaluation.eq_of_laid hLaid Evaluation.steers).trans hPlain
    rw [begin_control hEval' (fun hIs => absurd hIs (by simp [hSame]))
      (hVisits.waits.closed hEval hClosed).1 hRun, hNone]
  · intro opened siblings left left' place a a' hVisits hAt hNone hRun
    rcases finish_leaves (hVisits.waits.closed hEval hClosed).2 hRun with
      ⟨a₁, a₂, hBefore, hExits, hGrows, hLeave, hAfter⟩
    have hAlike := (hAt.grows.trans hGrows).alike.symm
    rcases hAlike.getElem? hEval with ⟨e', hEval', hLaid⟩
    rcases hAlike.getElem? hGuard with ⟨g', hGuard', hLaid'⟩
    have hLeft := leaveArm_control hEval' (hBefore.trans hNone)
      ((Evaluation.eq_of_laid hLaid Evaluation.lexicalNext).trans hNext) hGuard'
      ((Evaluation.eq_of_laid hLaid' Evaluation.isIntermediate).trans hArm) hLeave
    have hKept := ((finish_notes options opened.head? left s) a left' a' hRun).1.exits
    rw [hAfter, hLeft, outer?, hEval, Option.bind_some, hVisits.outer, funext hExits, funext hKept]
  · intro v w _ hControl hExits
    refine ⟨fun hNone => hControl.trans hNone, fun hLeft => ?_⟩
    rw [hControl, hLeft]
    cases hAt : u.outer? s with
    | none => rfl
    | some o => exact (hExits o (hOrdered s o hAt)).symm

end Analyze

/- What ends an arm of a complete unit leaves what it is in. -/
theorem FunctionUnit.complete_leaves {parent : UnitParent} {source : SubprogramHead}
    (hRun : (ofHead parent source).complete options = .ok u)
    (hEval : u.evals[s]? = some e) (hPlain : e.steers = false) (hClosed : e.isLeftOpen = false)
    (hNext : e.lexicalNext = some n) (hGuard : u.evals[n]? = some g)
    (hArm : g.isIntermediate = true) : e.controlNext = e.outer.bind u.exit? := by
  have hAlike := (complete_grows hRun).alike
  rcases hAlike.getElem? hEval with ⟨e₀, hEval₀, hLaid⟩
  rcases hAlike.getElem? hGuard with ⟨g₀, hGuard₀, hLaid'⟩
  rcases complete_stage hRun (Analyze.arms_invariant (ofHead_ordered parent source) hEval₀
      ((Evaluation.eq_of_laid hLaid Evaluation.steers).trans hPlain)
      ((Evaluation.eq_of_laid hLaid Evaluation.isLeftOpen).trans hClosed)
      ((Evaluation.eq_of_laid hLaid Evaluation.lexicalNext).trans hNext) hGuard₀
      ((Evaluation.eq_of_laid hLaid' Evaluation.isIntermediate).trans hArm)) hEval with
    ⟨analyzed, -, hAdds, hLeft⟩
  rw [← hAdds.controls s fun hNone => hNone, control?, hEval, Option.bind_some, outer?, hEval₀,
    Option.bind_some, Evaluation.eq_of_laid hLaid Evaluation.outer] at hLeft
  rw [hLeft, funext hAdds.exits]

----
-- Trees
----

namespace FlowTree

open FunctionUnit

/-
  What ends an arm and is no branch goes to the exit of what it
  is directly in. If that is a construct that ends with code, the
  statement follows itself. If it is another construct, this is
  the exit of the construct of the arm, and is outside of it.
-/
theorem arm_exits {tree : FlowTree} (hTree : ofProgram options units = .ok tree)
    (hUnit : u ∈ tree.functionUnits)
    (hFormed : u.source.isWellFormed = true) (hEval : u.evals[s]? = some e)
    (hPlain : e.steers = false) (hEnds : ∀ h ∈ e.guard?, h.kind.leavesOpen false = false)
    (hNext : e.lexicalNext = some n) (hGuard : u.evals[n]? = some g)
    (hArm : g.isIntermediate = true) (hOf : g.outer = some c) :
    e.controlNext = e.outer.bind u.exit? ∧ ∀ kind, e.outer.bind u.kindAt? = some kind →
      if kind.endsWithCode then e.controlNext = some s
      else ∃ x, u.exit? c = some x ∧ e.controlNext = some x ∧ ¬ u.Around c x := by
  rcases ofProgram_complete hTree hUnit with ⟨parent, head, hComplete⟩
  rw [complete_source hComplete] at hFormed
  have hPlaced := ofHead_placed parent (ofHead_wellFormed parent hFormed)
  have hGrows := complete_grows hComplete
  -- the same before the analysis
  rcases hGrows.alike.getElem? hEval with ⟨e₀, hEval₀, hAlike⟩
  rcases hGrows.alike.getElem? hGuard with ⟨g₀, hGuard₀, hLaid⟩
  have hOf₀ := (Evaluation.eq_of_laid hLaid Evaluation.outer).trans hOf
  have hArm₀ := (Evaluation.eq_of_laid hLaid Evaluation.isIntermediate).trans hArm
  have hNext₀ : (ofHead parent head).next? s = some n := by
    rw [← hGrows.alike.next?_eq, next?, hEval, Option.bind_some, hNext]
  have hClosed : e.isLeftOpen = false := by
    rw [Evaluation.isLeftOpen, ← Evaluation.eq_of_laid hAlike Evaluation.isConditional,
      hPlaced.not_isConditional hNext₀ hGuard₀ hArm₀ hEval₀, Bool.false_or, Option.any_eq_false]
    simpa using hEnds
  have hLeaves := complete_leaves hComplete hEval hPlain hClosed hNext hGuard hArm
  refine ⟨hLeaves, fun kind hBoth => ?_⟩
  rcases Option.bind_eq_some_iff.mp hBoth with ⟨o, hOuter, hKind⟩
  rw [hOuter, Option.bind_some] at hLeaves
  have hOuter₀ : (ofHead parent head).outer? s = some o := by
    rw [← hGrows.outer?_eq, outer?, hEval, Option.bind_some, hOuter]
  rw [hGrows.kindAt?_eq] at hKind
  have hNop : g₀.isNop = true := by
    rcases Option.any_eq_true _ _ |>.mp hArm₀ with ⟨guard, hIs, hContinues⟩
    simp [Evaluation.isNop, GuardKind.isNop, hIs, hContinues]
  rcases hPlaced.nop_cases hGuard₀ hNop with ⟨c', outer, -, hSame, -, hOuterKind, hPlainOuter, -⟩
  cases hOf₀.symm.trans hSame
  rcases complete_isExit hComplete hPlaced hKind with ⟨y, hY, last, hLast, hLeft⟩
  rcases complete_isExit hComplete hPlaced hOuterKind with ⟨x, hX, last', hLast', hLeft'⟩
  rw [hPlainOuter, if_neg Bool.false_ne_true] at hLeft'
  have hPlace := hPlaced.arm_last hNext₀ hGuard₀ hNop hOf₀ hOuter₀ hKind hLast
  rw [hY] at hLeaves
  split at hLeft
  · rename_i hCode
    rw [if_pos hCode, hLeaves, hLeft]
    rcases hPlace with rfl | hSame
    · cases hKind.symm.trans hOuterKind
      cases hCode.symm.trans hPlainOuter
    · rw [hSame]
  · rename_i hCode
    rw [if_neg hCode]
    refine ⟨x, hX, ?_, ?_⟩
    · rcases hPlace with rfl | rfl
      · rw [hLeaves, ← hY, hX]
      · rw [hLeaves, hLeft.unique (.skip hNext₀ hGuard₀ hNop hOf₀ hLast' hLeft')]
    · -- the exit comes behind the last statement of the construct
      have hBehind := hPlaced.lt_of_escapes hLeft'
      rintro (rfl | hInside)
      · exact Nat.lt_asymm hBehind (hPlaced.formed.ordered last' c
          (hPlaced.formed.outer?_of_lastChild? hLast'))
      · rw [hGrows.contains_iff] at hInside
        exact Nat.not_lt_of_le (hPlaced.le_lastChild? hOuterKind hLast' hInside) hBehind

/- A block and a condition that end the first two of three arms. -/
def endedArms : List ProgramUnit :=
  [.subprogram (.mk
    { kind := .program
      name := none
      body :=
        [.construct .if
          [⟨⟨none, "if (c) then", ⟨.ifThen, none⟩⟩, [.construct .block
              [⟨⟨none, "block", ⟨.block, none⟩⟩, []⟩] ⟨none, "end block", ⟨.endBlock, none⟩⟩]⟩,
            ⟨⟨none, "else if (d) then", ⟨.elseIf, none⟩⟩, [.construct .if
              [⟨⟨none, "if (e) then", ⟨.ifThen, none⟩⟩, []⟩] ⟨none, "end if", ⟨.endIf, none⟩⟩]⟩,
            ⟨⟨none, "else", ⟨.else, none⟩⟩, []⟩]
          ⟨none, "end if", ⟨.endIf, none⟩⟩] } [])]

/- The end of the inner condition leaves the outer one too. -/
theorem arm_exits_condition : ∃ tree u e x, ofProgram {} endedArms = .ok tree ∧
      u ∈ tree.functionUnits ∧ u.source.isWellFormed = true ∧ u.evals[8]? = some e ∧
      e.lexicalNext = some 9 ∧ u.exit? 0 = some x ∧ e.controlNext = some x ∧ ¬ u.Around 0 x := by
  have hFound : ∃ u ∈ firstUnit? {} endedArms, u.source.isWellFormed = true ∧
        (∃ e ∈ u.evals[8]?, e.steers = false ∧
          (∀ h ∈ e.guard?, h.kind.leavesOpen false = false) ∧ e.lexicalNext = some 9 ∧
          e.outer.bind u.kindAt? = some .if) ∧
        ∃ g ∈ u.evals[9]?, g.isIntermediate = true ∧ g.outer = some 0 := by decide +kernel
  rcases exists_unit hFound with ⟨tree, u, hOk, hMember, hFormed,
    ⟨e, hEval, hPlain, hEnds, hNext, hKind⟩, g, hGuard, hArm, hOf⟩
  rcases (arm_exits hOk hMember hFormed hEval hPlain hEnds hNext hGuard hArm hOf).2 .if hKind with
    ⟨x, hExit, hControl, hOutside⟩
  exact ⟨tree, u, e, x, hOk, hMember, hFormed, hEval, hNext, hExit, hControl, hOutside⟩

/- The end of the block follows itself. -/
theorem arm_follows_itself : ∃ tree u e g, ofProgram {} endedArms = .ok tree ∧
      u ∈ tree.functionUnits ∧ u.source.isWellFormed = true ∧ u.evals[4]? = some e ∧
      e.steers = false ∧ (∀ h ∈ e.guard?, h.kind.leavesOpen false = false) ∧
      e.lexicalNext = some 5 ∧ u.evals[5]? = some g ∧ g.isIntermediate = true ∧ g.outer = some 0 ∧
      u.exit? 0 = some 11 ∧ e.controlNext = some 4 := by
  have hFound : ∃ u ∈ firstUnit? {} endedArms, ∃ e ∈ u.evals[4]?, ∃ g ∈ u.evals[5]?,
        u.source.isWellFormed = true ∧ e.steers = false ∧
        (∀ h ∈ e.guard?, h.kind.leavesOpen false = false) ∧ e.lexicalNext = some 5 ∧
        g.isIntermediate = true ∧ g.outer = some 0 ∧ u.exit? 0 = some 11 ∧ e.controlNext = some 4 := by decide +kernel
  rcases exists_unit hFound with ⟨tree, u, hOk, hMember, e, hEval, g, hGuard, hFormed, hPlain,
    hEnds, hNext, hFacts⟩
  exact ⟨tree, u, e, g, hOk, hMember, hFormed, hEval, hPlain, hEnds, hNext, hGuard, hFacts⟩

end FlowTree

end FortranIR
