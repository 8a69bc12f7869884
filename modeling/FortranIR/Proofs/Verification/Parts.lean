import FortranIR.Proofs.Segments
import FortranIR.Proofs.Verification.Checks

/-
  This file states what is known of the parts of branches and
  loops once they have been found: their segments cover the
  operands, without a rest and without an overlap.

  Main declarations:
    * `Module.selectParts_answers`
    * `Module.loopParts_eq_ok`
-/

namespace FortranIR

variable {op : Operation} {kind : OpKind}

theorem OpKind.isSelect_iff : kind.isSelect = true ↔
      kind = .select ∨ kind = .selectCase ∨ kind = .selectRank ∨ kind = .selectType := by
  cases kind <;> decide

theorem OpKind.isLoop_iff :
    kind.isLoop = true ↔ kind = .doLoop ∨ kind = .iterateWhile := by cases kind <;> decide

namespace Module

variable {m : Module} {α : Type}

----
-- Complaints
----

theorem not_answers_complain : ¬ Answers (complain message) a := by
  intro hAnswers
  cases hAnswers

theorem answers_orComplain : Answers (orComplain f x) a ↔ x = .ok a := by
  cases x with
  | ok b => simp [orComplain, answers_pure]
  | error message => simp [orComplain, not_answers_complain]

/- A condition under which there is a complaint does not hold. -/
theorem answers_unless {cond : Prop} [Decidable cond] {β : Type} {next : β → Complaining α}
    {rest : Complaining α} {a : α} :
    Answers (if cond then complain message >>= next else rest) a ↔ ¬ cond ∧ Answers rest a := by
  by_cases hCond : cond
  · rw [if_pos hCond, answers_bind]
    refine iff_of_false ?_ fun hBoth => hBoth.1 hCond
    rintro ⟨b, hComplain, -⟩
    exact not_answers_complain hComplain
  · simp [hCond]

theorem answers_splitOrComplain :
    Answers (splitOrComplain f items sizes) s ↔ Segments.split items sizes = .ok (.ok s) := by
  unfold splitOrComplain
  simp only [answers_bind, answers_lift]
  constructor
  · rintro ⟨found, hSplit, hRest⟩
    cases found with
    | ok t =>
      cases answers_pure.mp hRest
      exact hSplit
    | error e => exact absurd hRest not_answers_complain
  · exact fun hSplit => ⟨_, hSplit, answers_pure.mpr rfl⟩

----
-- Multi-way branches
----

/-
  The parts of a multi-way branch: its operands are the selector
  and two lists that are covered by the sizes in its attributes.
-/
theorem answers_selectParts_iff : Answers op.selectParts parts ↔
    op.operands = parts.selector :: (parts.compare.items ++ parts.targets.items) ∧
      (op.attr? "cases").bind Attr.array? = some parts.cases ∧ parts.dests = op.successors ∧
      op.offsets "compare_operand_offsets" = .ok parts.compare.sizes ∧
      op.offsets "target_operand_offsets" = .ok parts.targets.sizes ∧
      parts.cases.length = op.successors.length ∧
      parts.compare.sizes.length = parts.cases.length ∧
      parts.targets.sizes.length = parts.cases.length ∧
      parts.compare.Covers ∧ parts.targets.Covers := by
  unfold Operation.selectParts
  cases hOperands : op.operands with
  | nil => simp [not_answers_complain]
  | cons selector rest =>
    cases hCases : (op.attr? "cases").bind Attr.array? with
    | none => simp [answers_bind, not_answers_complain]
    | some cases =>
      simp only [pure_bind, answers_unless, answers_bind, answers_orComplain, answers_lift,
        answers_pure, not_or, Decidable.not_not, answers_splitOrComplain,
        Segments.split_eq_ok_iff, checkedSum_eq_ok_iff]
      constructor
      · rintro ⟨hCount, compareSizes, hCompare, targetSizes, hTargets, ⟨hCompareCount, hTargetCount⟩,
          covered, -, _, compare, ⟨rfl, hCompared⟩, targets, ⟨rfl, hTargeted⟩, rfl⟩
        exact ⟨by simp, rfl, rfl, hCompare, hTargets, hCount, hCompareCount, hTargetCount,
          hCompared, hTargeted⟩
      · rcases parts with ⟨_, _, ⟨xs, ks⟩, ⟨ys, ls⟩, _⟩
        rintro ⟨hRest, hSame, rfl, hCompare, hTargets, hCount, hCompareCount, hTargetCount,
          hCompared, hTargeted⟩
        cases hRest
        cases hSame
        have hLength : ks.sum = xs.length := hCompared.2
        refine ⟨hCount, ks, hCompare, ls, hTargets, ⟨hCompareCount, hTargetCount⟩, ks.sum,
          ⟨hCompared.1, rfl⟩, ?_, _, ⟨?_, hCompared⟩, _, ⟨?_, hTargeted⟩, rfl⟩
        · rw [List.length_append, hLength]
          exact Nat.not_lt.mpr (Nat.le_add_right _ _)
        all_goals simp [hLength]

/-
  The operands of a multi-way branch are its selector and its
  segments. There is one segment of each sort for each successor.
-/
theorem selectParts_answers (hAnswers : Answers op.selectParts parts) :
    op.operands = parts.selector :: (parts.compare.toLists.flatten ++
          parts.targets.toLists.flatten) ∧ parts.dests = op.successors ∧
      parts.cases.length = op.successors.length ∧
      parts.compare.toLists.length = op.successors.length ∧
      parts.targets.toLists.length = op.successors.length := by
  rcases answers_selectParts_iff.mp hAnswers with ⟨hOperands, -, hDests, -, -, hCount, hCompares,
    hTargets, hCovers, hCovers'⟩
  rw [Segments.flatten_toLists hCovers.2, Segments.flatten_toLists hCovers'.2,
    Segments.length_toLists, Segments.length_toLists]
  exact ⟨hOperands, hDests, hCount, hCompares.trans hCount, hTargets.trans hCount⟩

theorem trySelectParts_eq_ok_iff (hOp : m.op o = .ok op) :
    m.trySelectParts o = .ok (.ok parts) ↔
      op.kind.isSelect = true ∧ Answers op.selectParts parts := by
  unfold trySelectParts
  rw [hOp]
  change (if !op.kind.isSelect then _ else op.selectParts.run) = _ ↔ _
  cases op.kind.isSelect with
  | true => simp [Answers]
  | false => simp [throw, throwThe, MonadExceptOf.throw, bind, Except.bind]

/- The segments of a branch are what its accessors give. -/
theorem successorOperands_select (hOp : m.op o = .ok op)
    (hParts : m.trySelectParts o = .ok (.ok parts))
    (hSegment : parts.targets.toLists[i]? = some args) : m.successorOperands o i = .ok args := by
  rcases (trySelectParts_eq_ok_iff hOp).mp hParts with ⟨hKind, -⟩
  have hFound : m.selectParts o = .ok parts := by
    unfold selectParts
    rw [hParts]
    rfl
  unfold successorOperands
  rw [hOp, ok_bind]
  split
  · rename_i hBr
    rw [hBr] at hKind
    cases hKind
  · rename_i hCondBr
    rw [hCondBr] at hKind
    cases hKind
  · rw [if_pos hKind, hFound]
    exact Segments.segment_eq_ok_iff.mpr hSegment

theorem compareOperands_select (hParts : m.trySelectParts o = .ok (.ok parts))
    (hSegment : parts.compare.toLists[i]? = some vs) : m.compareOperands o i = .ok vs := by
  unfold compareOperands selectParts
  rw [hParts]
  exact Segments.segment_eq_ok_iff.mpr hSegment

----
-- Branches on a condition
----

/- The arguments of a successor are a segment after the condition. -/
theorem successorOperands_condBr_eq_ok (hOp : m.op o = .ok op) (hKind : op.kind = .condBr)
    (hArgs : m.successorOperands o i = .ok args) :
    ∃ cond rest sizes, op.operands = cond :: rest ∧ sizes =
        (op.offsets "target_operand_offsets").toOption.getD [] ∧ sizes.sum = rest.length ∧
      (Segments.toLists ⟨rest, sizes⟩)[i]? = some args := by
  unfold successorOperands at hArgs
  rw [hOp, ok_bind, hKind] at hArgs
  cases hOperands : op.operands with
  | nil =>
    simp only [hOperands] at hArgs
    cases hArgs
  | cons cond rest =>
    simp only [hOperands] at hArgs
    rcases bind_eq_ok_iff.mp hArgs with ⟨found, hSplit, hRest⟩
    cases found with
    | error e => cases hRest
    | ok targets =>
      rcases Segments.split_eq_ok_iff.mp hSplit with ⟨rfl, -, hSum⟩
      exact ⟨cond, rest, _, rfl, rfl, hSum, Segments.segment_eq_ok_iff.mp hRest⟩

/-
  If the two sizes of a branch add up to what follows the
  condition, and an argument list can be taken, there are two
  segments.
-/
theorem length_offsets_of_branchSizes (hSizes : branchSizes op = .ok covered)
    (hCovered : 0 ≤ covered)
    (hOffsets : (op.offsets "target_operand_offsets").toOption.getD [] ≠ []) :
    ((op.offsets "target_operand_offsets").toOption.getD []).length = 2 := by
  unfold branchSizes at hSizes
  unfold Operation.offsets at hOffsets ⊢
  split at hSizes
  · rename_i a b hInts
    simp only [hInts] at hOffsets ⊢
    split
    · rfl
    · rename_i hNegative
      rw [if_neg hNegative] at hOffsets
      exact absurd rfl hOffsets
  · cases hSizes
    cases hCovered

----
-- Loops
----

/- The results of a loop that hold the values it carried. -/
def carriedResults (op : Operation) (parts : LoopParts) : List ValueId :=
  op.results.drop (parts.leading - 1)

/- The operands of a loop, and the arguments of its body. -/
theorem loopParts_eq_ok (hOp : m.op o = .ok op)
    (hParts : m.loopParts o = .ok parts) : op.operands = parts.lower :: parts.upper :: parts.step ::
        (parts.iterateIn.toList ++ parts.inits) ∧
      (parts.iterateIn.isSome ↔ op.kind = .iterateWhile) ∧
      m.loopBody op = .ok (parts.body, parts.args) := by
  unfold loopParts at hParts
  rw [hOp, ok_bind] at hParts
  split at hParts
  · rename_i lower upper step inits hKind hOperands
    rcases bind_eq_ok_iff.mp hParts with ⟨body, hBody, hDone⟩
    cases hDone
    exact ⟨hOperands, by simp [hKind], hBody⟩
  · rename_i lower upper step ok inits hKind hOperands
    rcases bind_eq_ok_iff.mp hParts with ⟨body, hBody, hDone⟩
    cases hDone
    exact ⟨hOperands, by simp [hKind], hBody⟩
  · cases hParts
  · cases hParts
  · cases hParts

end Module

end FortranIR
