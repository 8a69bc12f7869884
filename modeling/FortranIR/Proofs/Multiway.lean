import FortranIR.Proofs.Construction
import FortranIR.Proofs.Verification.Parts

/-
  This file states that a multi-way branch is divided into the
  cases that it was made of.

  Main declarations:
    * `Build.select_trySelectParts`
    * `Build.select_segments`
-/

namespace FortranIR

open Segments

/- Sizes that are written as an attribute are read back. -/
theorem Operation.offsets_sizesAttr {op : Operation}
    (hAttr : op.attr? name = some (Build.sizesAttr s)) (hFits : s.sizes.sum < 2 ^ 63) :
    op.offsets name = .ok s.sizes := by
  have hEach : ∀ n ∈ s.sizes, (Build.sizeWord n).toInt = n := by
    intro n hIn
    rcases List.append_of_mem hIn with ⟨before, after, hSplit⟩
    rw [hSplit, List.sum_append, List.sum_cons] at hFits
    exact Int64.toInt_ofNat_of_lt (by omega)
  unfold Operation.offsets
  simp only [hAttr, Option.bind_some, Build.sizesAttr, Attr.ints?, List.map_map]
  rw [if_pos]
  · refine congrArg _ ((List.map_congr_left fun n hIn => ?_).trans (List.map_id _))
    rw [Function.comp_apply, hEach n hIn, Int.toNat_natCast, id]
  · rw [List.all_map, List.all_eq_true]
    intro n hIn
    simp [Int64.le_iff_toInt_le, hEach n hIn]

namespace Build

variable {cases : List Case}

/- The parts that a multi-way branch is made of. -/
def partsOf (selector : ValueId) (cases : List Case) : SelectParts where
  selector := selector
  cases := cases.map Case.tag
  compare := .ofLists (cases.map Case.operands)
  targets := .ofLists (cases.map Case.args)
  dests := cases.map Case.dest

/- A multi-way branch is divided into what it was made of. -/
theorem select_trySelectParts
    (hFits : (cases.flatMap Case.operands).length + (cases.flatMap Case.args).length < 2 ^ 63)
    (hRun : select records kind selector cases b = .ok o b') : ∃ op, b'.module.op o = .ok op ∧
      b'.module.trySelectParts o = .ok (.ok (partsOf selector cases)) := by
  unfold select at hRun
  split at hRun
  · cases hRun
  rename_i hKind
  split at hRun
  · cases hRun
  rcases create_op hRun with ⟨_, op, -, -, hOp, rfl, hOperands, hAttrs, hSuccessors⟩
  have hCompareSum : (partsOf selector cases).compare.sizes.sum =
      (cases.flatMap Case.operands).length := List.length_flatten.symm
  have hTargetSum : (partsOf selector cases).targets.sizes.sum =
      (cases.flatMap Case.args).length := List.length_flatten.symm
  have hCompare : op.offsets "compare_operand_offsets" =
      .ok (partsOf selector cases).compare.sizes :=
    Operation.offsets_sizesAttr (by rw [Operation.attr?, hAttrs]; cbv) (by omega)
  have hTargets : op.offsets "target_operand_offsets" =
      .ok (partsOf selector cases).targets.sizes :=
    Operation.offsets_sizesAttr (by rw [Operation.attr?, hAttrs]; cbv) (by omega)
  have hCases : (op.attr? "cases").bind Attr.array? = some (cases.map Case.tag) := by
    rw [Operation.attr?, hAttrs]
    cbv
  have hAnswers : Answers op.selectParts (partsOf selector cases) := by
    refine Module.answers_selectParts_iff.mpr ⟨hOperands, hCases, hSuccessors.symm, hCompare,
      hTargets, ?_, ?_, ?_, ⟨by omega, hCompareSum⟩, by omega, hTargetSum⟩
    · simp [partsOf, hSuccessors]
    · simp [partsOf, ofLists]
    · simp [partsOf, ofLists]
  exact ⟨op, hOp, (Module.trySelectParts_eq_ok_iff hOp).mpr ⟨by simpa using hKind, hAnswers⟩⟩

/-
  A multi-way branch that is accepted has the selector, tags and
  successors that are given, and for each case its operands to
  compare with and its arguments. A list is divided by sizes if
  and only if they add up to its length, into segments of these
  sizes that join to the list.
-/
theorem select_segments
    (hFits : (cases.flatMap Case.operands).length + (cases.flatMap Case.args).length < 2 ^ 63)
    (hRun : select records kind selector cases b = .ok o b') :
    b'.module.trySelectParts o = .ok (.ok (partsOf selector cases)) ∧
      (partsOf selector cases).compare.toLists = cases.map Case.operands ∧
      (partsOf selector cases).targets.toLists = cases.map Case.args ∧
      (∀ i c, cases[i]? = some c → b'.module.successorOperands o i = .ok c.args ∧
        b'.module.compareOperands o i = .ok c.operands) ∧
      ∀ {α : Type} (items : List α) (sizes : List Nat), sizes.sum < 2 ^ 64 →
        ((∃ s, Segments.split items sizes = .ok (.ok s)) ↔ sizes.sum = items.length) ∧
        ∀ s, Segments.split items sizes = .ok (.ok s) →
          s.toLists.map List.length = sizes ∧ s.toLists.flatten = items := by
  rcases select_trySelectParts hFits hRun with ⟨op, hOp, hParts⟩
  refine ⟨hParts, toLists_ofLists _, toLists_ofLists _, fun i c hCase => ?_,
    fun items sizes hWord => ⟨?_, fun s hSplit => ?_⟩⟩
  · refine ⟨Module.successorOperands_select hOp hParts ?_, Module.compareOperands_select hParts ?_⟩
    · rw [partsOf, toLists_ofLists, List.getElem?_map, hCase, Option.map_some]
    · rw [partsOf, toLists_ofLists, List.getElem?_map, hCase, Option.map_some]
  · simp only [split_eq_ok_iff, exists_eq_left, Segments.Covers, hWord, true_and]
  · rcases split_eq_ok_iff.mp hSplit with ⟨rfl, hCovers⟩
    exact ⟨map_length_toLists hCovers.2, flatten_toLists hCovers.2⟩

/-
  A case with two bounds and no arguments, and one without
  bounds that has an argument.
-/
theorem select_segments_interval : ∃ b o b', select {} .selectCase ⟨0⟩
      [⟨.case .interval, [⟨1⟩, ⟨0⟩], ⟨0⟩, []⟩, ⟨.unit, [], ⟨1⟩, [⟨1⟩]⟩] b = .ok o b' ∧
    b'.module.compareOperands o 0 = .ok [⟨1⟩, ⟨0⟩] ∧ b'.module.successorOperands o 0 = .ok [] ∧
    b'.module.compareOperands o 1 = .ok [] ∧ b'.module.successorOperands o 1 = .ok [⟨1⟩] := by
  have hRun : ∃ m ∈ (Module.emptyAfter {}).after [.newOp .func [] [] {} 1 [],
      .newBlock ⟨0⟩ [.index, .index], .newBlock ⟨0⟩ [.index]], Succeeds
        (select {} .selectCase ⟨0⟩ [⟨.case .interval, [⟨1⟩, ⟨0⟩], ⟨0⟩, []⟩,
          ⟨.unit, [], ⟨1⟩, [⟨1⟩]⟩]) ⟨m, [⟨0⟩]⟩ fun _ _ => True := by decide +kernel
  rcases hRun with ⟨m, -, hRun⟩
  rcases hRun.eq_ok with ⟨o, b', hSelect, -⟩
  rcases select_segments (by decide) hSelect with ⟨-, -, -, hCases, -⟩
  exact ⟨_, o, b', hSelect, (hCases 0 _ rfl).2, (hCases 0 _ rfl).1, (hCases 1 _ rfl).2,
    (hCases 1 _ rfl).1⟩

end Build

end FortranIR
