import FortranIR.Proofs.Flow.Effects

/-
  This file proves that the evaluations that need branches are
  closed under going to what they are in.

  An evaluation may be marked when the analysis has not yet left
  it, and a branch may mark evaluations that it has left long
  ago. The invariant says of each marked evaluation that what it
  is directly in is marked as well, unless the evaluation is one
  of those that are still open.

  Main declarations:
    * `FunctionUnit.Closed`
    * `FlowTree.needsBranches_outer`
-/

namespace FortranIR

open Outline Evaluation FunctionUnit

variable {e : Evaluation} {place : Nat} {u : FunctionUnit} {opened siblings : List EvalId}
variable {left left' : Open} {a a' : Analysis} {options : FlowOptions}

namespace Analyze

open FunctionUnit

/- What the beginning of a visited evaluation marks. -/
theorem Visits.spreads (hOrdered : u.Ordered) (hVisits : Visits u opened siblings left place e)
    (hAt : At u place a)
    (hRun : Analyze.begin options opened.head? siblings left place a = .ok left' a') :
    Spreads a.unit (beginLicence a.unit e siblings place) a.unit a'.unit := by
  rcases hAt.grows.getElem? hVisits.eval with ⟨e', hEval', hFixed⟩
  have hScopes : a.scopes = a.unit.scopesBefore place := by
    rw [hAt.scopes, hAt.grows.scopesBefore_eq]
  have hNode : e'.node = e.node := congrArg Prod.fst hFixed
  have hOpen : e'.isOpen = e.isOpen := by rw [Evaluation.isOpen, Evaluation.isOpen, hNode]
  have hCounts : Counts e' = Counts e := by
    unfold Counts
    rw [Evaluation.isAction, Evaluation.isAction, Evaluation.action?,
      Evaluation.action?, Evaluation.guard?, Evaluation.guard?, hNode]
  rw [beginLicence, ← hOpen, ← hCounts]
  exact begin_spreads (hAt.grows.ordered hOrdered) hScopes hEval' (hAt.exits _ .refl) hRun

end Analyze

----
-- Closure
----

namespace FunctionUnit

/-
  Whatever is marked is directly in something marked, unless it
  is one of the open evaluations.
-/
def Closed (u : FunctionUnit) (opened : List EvalId) : Prop :=
  ∀ k o, u.unstructured k = true → u.outer? k = some o → u.unstructured o = true ∨ k ∈ opened

/- An evaluation that may be marked while it is visited. -/
def isOpenAt (u : FunctionUnit) (id : EvalId) : Bool := (u.evals[id]?).any Evaluation.isOpen

variable {v : FunctionUnit}

/- Marks around a target are closed, and others are open. -/
theorem Closed.spreads
    (hClosed : v.Closed opened) (hGrows : u.Grows v) (hSpreads : Spreads u p v w)
    (hOpened : ∀ k ∈ opened, k ∈ opened')
    (hOwn : ∀ k o, p.own k → u.outer? k = some o → w.unstructured o = true ∨ k ∈ opened') :
    w.Closed opened' := by
  intro k o hFlag hOuter
  rw [hSpreads.grows.outer?_eq] at hOuter
  have hOuter' : u.outer? k = some o := hGrows.outer?_eq k ▸ hOuter
  rcases hSpreads.flags k hFlag with hBefore | hIs | ⟨t, -, hAround, hAll⟩
  · rcases hClosed k o hBefore hOuter with hMarked | hOpen
    · exact .inl (hSpreads.grows.flags o hMarked)
    · exact .inr (hOpened k hOpen)
  · exact hOwn k o hIs hOuter'
  · -- what is around `k` is around the target of the branch
    refine .inl (hAll o (.inr ?_))
    rcases hAround with rfl | hContains
    · exact .direct hOuter'
    · exact Contains.trans (.direct hOuter') hContains

end FunctionUnit

namespace Analyze

open FunctionUnit

/-
  The marks are closed but for the open evaluations, of which
  most construct statements are never marked by their visits.
-/
theorem closed_invariant (hOrdered : u.Ordered) (hGuards : ∀ (k : EvalId) (e : Evaluation),
      u.evals[k]? = some e → e.isGuard = true → e.children = [])
    (hStructured : options.structured = true) : Invariant u options fun opened _ a =>
      a.unit.Closed (opened.filter u.isOpenAt) where
  begin := by
    intro opened siblings left left' place e a a' hVisits hAt hClosed hRun
    have hSpreads := hVisits.spreads hOrdered hAt hRun
    refine hClosed.spreads (.refl _) hSpreads ?_ ?_
    · intro k hIn
      rw [List.mem_filter] at hIn ⊢
      exact ⟨.tail place hIn.1, hIn.2⟩
    · rintro k o ⟨rfl, hOpen⟩ -
      refine .inr (List.mem_filter.mpr ⟨.head _, ?_⟩)
      rwa [isOpenAt, hVisits.eval]
  finish := by
    intro opened siblings left left' id place e a a' hVisits _ hAt hClosed hRun
    have hSpreads : Spreads u { Licence.none with own := _ } a.unit a'.unit :=
      finish_spreads hStructured hAt.grows hRun
    -- a marked evaluation has marked what it is in
    have hUp : ∀ o, opened.head? = some o → a.unit.unstructured id = true →
          a'.unit.unstructured o = true := by
      intro o hHead hFlag
      rcases (hVisits.siblings o hHead).2 with ⟨c, hParent, -⟩
      rcases hAt.grows.getElem? hParent with ⟨c', hParent', -⟩
      rw [hHead] at hRun
      exact finish_marks hParent' hFlag hRun
    -- something is in the parent, so it is no construct statement
    have hParent : ∀ o, opened.head? = some o → u.isOpenAt o = true := by
      intro o hHead
      rcases hVisits.siblings o hHead with ⟨hIn, c, hEval, hChildren⟩
      rw [isOpenAt, hEval, Option.any_some, Evaluation.isOpen]
      split
      · rename_i g hNode
        have hGuard : c.isGuard = true := by
          rw [Evaluation.isGuard, Evaluation.guard?, hNode]
          rfl
        rw [← hChildren, hGuards o c hEval hGuard] at hIn
        cases hIn
      · rfl
    have hStill : a'.unit.Closed ((id :: opened).filter u.isOpenAt) := by
      refine hClosed.spreads hAt.grows hSpreads (fun k hIn => hIn) ?_
      rintro k o ⟨hFlag, hHead | ⟨hOpen, -⟩⟩ hOuter
      · refine .inr (List.mem_filter.mpr ⟨?_, hParent k hHead⟩)
        exact .tail id (List.mem_of_head? hHead)
      · -- an `if` and its action are in the same construct
        rcases hVisits.waits.conditional k hOpen with ⟨f, hEval, hSame, -⟩
        rw [outer?, hEval, Option.bind_some, hSame] at hOuter
        exact .inl (hUp o hOuter hFlag)
    intro k o hFlag hOuter
    rcases hStill k o hFlag hOuter with hMarked | hOpen
    · exact .inl hMarked
    · rw [List.mem_filter] at hOpen
      rcases List.mem_cons.mp hOpen.1 with rfl | hIn
      · have hBefore : a.unit.unstructured k = true := by
          rcases hSpreads.flags k hFlag with hFlag | ⟨hFlag, -⟩ | ⟨_, hNone, -⟩
          · exact hFlag
          · exact hFlag
          · exact hNone.elim
        rw [hSpreads.grows.outer?_eq, hAt.grows.outer?_eq, outer?,
          hVisits.eval, Option.bind_some, hVisits.outer] at hOuter
        exact .inl (hUp o hOuter hBefore)
      · exact .inr (List.mem_filter.mpr ⟨hIn, hOpen.2⟩)

end Analyze

----
-- Trees
----

namespace FunctionUnit

variable {source : SubprogramHead} {parent : UnitParent} {options : FlowOptions} {u : FunctionUnit}

/- Nothing is marked in a new unit. -/
theorem ofHead_unstructured (parent : UnitParent) (source : SubprogramHead) (k : EvalId) :
    (ofHead parent source).unstructured k = false := by
  unfold unstructured
  cases hEval : (ofHead parent source).evals[k]? with
  | none => rfl
  | some e => exact congrArg isUnstructured (ofHead_laid hEval).symm

/- A complete unit comes from the new one by marks. -/
theorem analyze_grows (hRun : (ofHead parent source).analyze options = .ok u) :
    (ofHead parent source).Grows u := by
  have hInv : Analyze.Invariant (ofHead parent source) options fun _ _ _ => True :=
    ⟨fun _ _ _ _ => trivial, fun _ _ _ _ _ => trivial⟩
  rcases hInv.analyze trivial hRun with ⟨a, rfl, hAt, -⟩
  exact hAt.grows

variable (hRun : (ofHead parent source).complete options = .ok u)

include hRun

theorem complete_grows :
    (ofHead parent source).Grows u := by
  rcases complete_adds hRun with ⟨analyzed, hAnalyze, hAdds⟩
  exact (analyze_grows hAnalyze).trans hAdds.grows

theorem complete_source :
    u.source = source := (complete_grows hRun).alike.source
/- The marks of a complete unit are closed. -/
theorem complete_closed (hStructured : options.structured = true) : u.Closed [] := by
  rcases complete_adds hRun with ⟨analyzed, hAnalyze, hAdds⟩
  have hStart : (ofHead parent source).Closed [] := by
    intro k o hFlag
    rw [ofHead_unstructured] at hFlag
    cases hFlag
  rcases (Analyze.closed_invariant (ofHead_ordered parent source)
    (fun _ _ => ofHead_guard_children) hStructured).analyze hStart
    hAnalyze with ⟨a, rfl, -, hClosed⟩
  intro k o hFlag hOuter
  rw [hAdds.grows.outer?_eq] at hOuter
  rcases hClosed k o (hAdds.grows_back.flags k hFlag) hOuter with hMarked | hNone
  · exact .inl (hAdds.grows.flags o hMarked)
  · exact .inr hNone

end FunctionUnit

namespace FlowTree

/-
  What is directly around an evaluation that needs branches needs
  branches too.
-/
theorem needsBranches_outer {options : FlowOptions} {units : List ProgramUnit} {tree : FlowTree}
    (hTree : ofProgram options units = .ok tree) {u : FunctionUnit} (hUnit : u ∈ tree.functionUnits)
    {id o : EvalId} {e : Evaluation} (hEval : u.evals[id]? = some e) (hOuter : e.outer = some o)
    (hNeeds : e.needsBranches options = true) :
    ∃ p, u.evals[o]? = some p ∧ p.needsBranches options = true := by
  rcases ofProgram_complete hTree hUnit with ⟨parent, head, hComplete⟩
  have hOrdered : u.Ordered := (complete_grows hComplete).ordered
      (ofHead_ordered parent head)
  have hAt : u.outer? id = some o := by rw [outer?, hEval, Option.bind_some, hOuter]
  have hBelow : o < u.evals.length := Nat.lt_trans (hOrdered id o hAt)
      (List.getElem?_eq_some_iff.mp hEval).1
  refine ⟨u.evals[o], List.getElem?_eq_getElem hBelow, ?_⟩
  cases hStructured : options.structured with
  | false => rw [needsBranches, hStructured, Bool.not_false, Bool.or_true]
  | true =>
    rw [needsBranches, hStructured, Bool.not_true, Bool.or_false] at hNeeds ⊢
    have hFlag : u.unstructured id = true := by
      rw [unstructured, hEval, Option.any_some, hNeeds]
    rcases complete_closed hComplete hStructured id o hFlag hAt with hMarked | hNone
    · rwa [unstructured, List.getElem?_eq_getElem hBelow, Option.any_some] at hMarked
    · cases hNone

/- A loop that is left by the action of an `if` in a directive. -/
def conditionalJump : List ProgramUnit :=
  [.subprogram (.mk
    { kind := .program
      name := none
      body :=
        [.construct .do
            [⟨⟨none, "do i = 1, n", ⟨.do (some (.bounds .integer)), none⟩⟩, [.directive "simd"
                [.action ⟨none, "if (c) goto 10", .if ⟨none, "goto 10", .goto 10⟩⟩]]⟩]
            ⟨none, "end do", ⟨.endDo, none⟩⟩, .action ⟨some 10, "continue", .continue⟩] } [])]

/- The `if` is marked behind its own end, and so is all around it. -/
theorem needsBranches_outer_conditionalJump : ∃ tree u e p q,
      ofProgram {} conditionalJump = .ok tree ∧ u ∈ tree.functionUnits ∧
      u.evals[3]? = some e ∧ e.outer = some 2 ∧ e.needsBranches {} = true ∧
      u.evals[2]? = some p ∧ p.outer = some 0 ∧ p.needsBranches {} = true ∧
      u.evals[0]? = some q ∧ q.needsBranches {} = true := by
  have hFound : ∃ u ∈ firstUnit? {} conditionalJump,
        (∃ e ∈ u.evals[3]?, e.outer = some 2 ∧ e.needsBranches {} = true) ∧
        ∃ p ∈ u.evals[2]?, p.outer = some 0 := by decide +kernel
  rcases exists_unit hFound with
    ⟨tree, u, hOk, hMember, ⟨e, hEval, hOuter, hIf⟩, p, hDirective, hAround⟩
  rcases needsBranches_outer hOk hMember hEval hOuter hIf with ⟨p', hDirective', hMarked⟩
  cases hDirective.symm.trans hDirective'
  rcases needsBranches_outer hOk hMember hDirective hAround hMarked with ⟨q, hLoop, hLast⟩
  exact ⟨tree, u, e, p, q, hOk, hMember, hEval, hOuter, hIf, hDirective,
    hAround, hMarked, hLoop, hLast⟩

end FlowTree

end FortranIR
