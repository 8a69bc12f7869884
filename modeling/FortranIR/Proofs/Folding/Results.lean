import FortranIR.Fold
import FortranIR.Proofs.Folding.Invariants

/-
  This file states what folding finds for an operation: a value
  of the type of the result, or a constant that fits it.

  Main declarations:
    * `Finds`
    * `Module.fits_of_fold`
-/

namespace FortranIR

variable {α : Type} {value : Attr} {op : Operation} {a b : α}
variable {kind : OpKind}

/- A search finds something, without a fault. -/
def Finds {α : Type} (x : Fold α) (a : α) : Prop := x.run = .ok (some a)

namespace Fold

variable {β : Type}

theorem finds_pure : Finds (pure a) b ↔ a = b := by
  constructor
  · intro hFinds
    cases hFinds
    rfl
  · rintro rfl
    rfl

theorem not_finds_failure : ¬ Finds failure a := by
  intro hFinds
  cases hFinds

theorem finds_bind {b : β} : Finds (x >>= f) b ↔ ∃ a, Finds x a ∧ Finds (f a) b := by
  rcases x with fault | (_ | a)
  · constructor
    · intro hFinds
      cases hFinds
    · rintro ⟨a, hFirst, -⟩
      cases hFirst
  · constructor
    · intro hFinds
      cases hFinds
    · rintro ⟨a, hFirst, -⟩
      cases hFirst
  · constructor
    · exact fun hRest => ⟨a, rfl, hRest⟩
    · rintro ⟨a', hFirst, hRest⟩
      cases hFirst
      exact hRest

theorem finds_lift {x : Except Fault α} : Finds (liftM x) a ↔ x = .ok a := by
  cases x with
  | error fault =>
    constructor
    · intro hFinds
      cases hFinds
    · intro hFound
      cases hFound
  | ok b =>
    constructor
    · intro hFinds
      cases hFinds
      rfl
    · intro hFound
      cases hFound
      rfl

theorem finds_given : Finds (given o) a ↔ o = some a := by
  cases o with
  | none => simp [given, not_finds_failure]
  | some b => simp [given, finds_pure]

end Fold

open Fold

theorem Attr.int?_eq_some_iff : value.int? = some x ↔ value = .int x := by
  cases value <;> simp [Attr.int?]

theorem Operation.result_eq_ok_iff : op.result = .ok v ↔ op.results = [v] := by
  unfold result
  split
  · rename_i w hResults
    rw [hResults, Except.ok.injEq, List.cons.injEq]
    exact ⟨fun hSame => ⟨hSame, rfl⟩, fun hSame => hSame.1⟩
  · rename_i hOther
    exact ⟨nofun, fun hResults => absurd hResults (hOther v)⟩

namespace Module

variable {m : Module}

----
-- Operations that define values
----

theorem finds_definedBy : Finds (m.definedBy v) op ↔ ∃ info d i,
        m.values[v.index]? = some info ∧ info.defined = .result d i ∧ m.op d = .ok op := by
  unfold definedBy
  simp only [finds_bind, finds_lift, finds_given]
  constructor
  · rintro ⟨d, hFound, _, ⟨⟩, hOp⟩
    rcases bind_eq_ok_iff.mp hFound with ⟨info, hInfo, hRest⟩
    split at hRest
    · rename_i d' i hDefined
      cases hRest
      exact ⟨info, d, i, value_eq_ok_iff.mp hInfo, hDefined, hOp⟩
    · cases hRest
  · rintro ⟨info, d, i, hInfo, hDefined, hOp⟩
    refine ⟨d, ?_, d, rfl, hOp⟩
    exact bind_eq_ok_iff.mpr ⟨info, value_eq_ok_iff.mpr hInfo, by rw [hDefined]; rfl⟩

theorem finds_constantOf : Finds (m.constantOf v) value ↔ ∃ info d i constant,
      m.values[v.index]? = some info ∧ info.defined = .result d i ∧ m.op d = .ok constant ∧
      constant.kind = .constant ∧ constant.attr? "value" = some value := by
  unfold constantOf
  rw [finds_bind]
  constructor
  · rintro ⟨constant, hDefined, hRest⟩
    rcases finds_definedBy.mp hDefined with ⟨info, d, i, hInfo, hResult, hOp⟩
    split at hRest
    · rename_i hKind
      exact ⟨info, d, i, constant, hInfo, hResult, hOp, hKind, finds_given.mp hRest⟩
    · exact absurd hRest not_finds_failure
  · rintro ⟨info, d, i, constant, hInfo, hResult, hOp, hKind, hValue⟩
    refine ⟨constant, finds_definedBy.mpr ⟨info, d, i, hInfo, hResult, hOp⟩, ?_⟩
    rw [if_pos hKind]
    exact finds_given.mpr hValue

theorem finds_constantPair :
    Finds (m.constantPair get? op) (a, b) ↔ ∃ l r value other, op.operands = [l, r] ∧
      Finds (m.constantOf l) value ∧ get? value = some a ∧ Finds (m.constantOf r) other ∧
      get? other = some b := by
  unfold constantPair
  split
  · rename_i l r hOperands
    simp only [finds_bind, finds_given, finds_pure, Prod.mk.injEq, hOperands, List.cons.injEq]
    constructor
    · rintro ⟨value, hValue, _, hLeft, other, hOther, _, hRight, rfl, rfl⟩
      exact ⟨l, r, value, other, ⟨rfl, rfl, trivial⟩, hValue, hLeft, hOther, hRight⟩
    · rintro ⟨_, _, value, other, ⟨rfl, rfl, -⟩, hValue, hLeft, hOther, hRight⟩
      exact ⟨value, hValue, a, hLeft, other, hOther, b, hRight, rfl, rfl⟩
  · rename_i hOther
    exact ⟨fun hFinds => absurd hFinds not_finds_failure,
      fun ⟨l, r, _, _, hOperands, _⟩ => absurd hOperands (hOther l r)⟩

----
-- Values
----

/-
  A conversion folds to its operand if that has the type of the
  result, or to the operand of a conversion to a boolean.
-/
theorem finds_foldConvert (hFinds : Finds (m.foldConvert op) folded) : ∃ v w r t,
      folded = .value v ∧ op.operands.head? = some w ∧ op.results = [r] ∧ m.typeOf r = .ok t ∧
      m.typeOf v = .ok t ∧
      (v = w ∨ m.typeOf w = .ok .i1 ∧ ∃ inner, Finds (m.definedBy w) inner ∧ inner.kind = .convert ∧
          inner.operands[0]? = some v) := by
  rcases finds_bind.mp hFinds with ⟨w, hFirst, hRest⟩
  rcases finds_bind.mp hRest with ⟨r, hResult, hRest⟩
  rcases finds_bind.mp hRest with ⟨t, hTarget, hRest⟩
  rcases finds_bind.mp hRest with ⟨type, hSource, hRest⟩
  have hHead := finds_given.mp hFirst
  have hResults := Operation.result_eq_ok_iff.mp (finds_lift.mp hResult)
  have hType := finds_lift.mp hTarget
  have hOperand := finds_lift.mp hSource
  by_cases hSame : type = t
  · rw [if_pos hSame] at hRest
    cases finds_pure.mp hRest
    exact ⟨w, w, r, t, rfl, hHead, hResults, hType, hSame ▸ hOperand, .inl rfl⟩
  · rw [if_neg hSame] at hRest
    rcases finds_bind.mp hRest with ⟨inner, hInner, hRest⟩
    by_cases hTrip : inner.kind = .convert ∧ type = .i1
    · rw [if_pos hTrip] at hRest
      rcases finds_bind.mp hRest with ⟨v, hSource', hRest⟩
      rcases finds_bind.mp hRest with ⟨type', hType', hRest⟩
      by_cases hBack : type' = t
      · rw [if_pos hBack] at hRest
        cases finds_pure.mp hRest
        exact ⟨v, w, r, t, rfl, hHead, hResults, hType, hBack ▸ finds_lift.mp hType', .inr
            ⟨hTrip.2 ▸ hOperand, inner, hInner, hTrip.1,
              orElse_eq_ok_iff.mp (finds_lift.mp hSource')⟩⟩
      · rw [if_neg hBack] at hRest
        exact absurd hRest not_finds_failure
    · rw [if_neg hTrip] at hRest
      exact absurd hRest not_finds_failure

theorem finds_foldBoxAddr (hFinds : Finds (m.foldBoxAddr op) folded) : ∃ v w inner,
      folded = .value v ∧ op.operands.head? = some w ∧ Finds (m.definedBy w) inner ∧
      inner.kind = .embox ∧ inner.operands[0]? = some v := by
  rcases finds_bind.mp hFinds with ⟨w, hFirst, hRest⟩
  rcases finds_bind.mp hRest with ⟨inner, hInner, hRest⟩
  by_cases hKind : inner.kind = .embox
  · rw [if_pos hKind] at hRest
    rcases finds_bind.mp hRest with ⟨v, hAddress, hDone⟩
    cases finds_pure.mp hDone
    exact ⟨v, w, inner, rfl, finds_given.mp hFirst, hInner, hKind,
      orElse_eq_ok_iff.mp (finds_lift.mp hAddress)⟩
  · rw [if_neg hKind] at hRest
    exact absurd hRest not_finds_failure

----
-- Constants
----

theorem finds_foldFloat (hFinds : Finds (m.foldFloat op) folded) : ∃ l r x y,
      folded = .constant (.float x) ∧ op.operands = [l, r] ∧ Finds (m.constantOf l) (.float y) := by
  rcases finds_bind.mp hFinds with ⟨⟨a, b⟩, hPair, hDone⟩
  rcases finds_constantPair.mp hPair with ⟨l, r, value, -, hOperands, hValue, hFloat, -⟩
  have hAttr : value = .float a := by
    cases value with
    | float x =>
      cases hFloat
      rfl
    | _ => cases hFloat
  exact ⟨l, r, _, a, (finds_pure.mp hDone).symm, hOperands, hAttr ▸ hValue⟩

theorem finds_foldInt : Finds (m.foldInt op) folded ↔ ∃ l r x y v t width word,
      folded = .constant (.int word) ∧ op.operands = [l, r] ∧ Finds (m.constantOf l) (.int x) ∧
      Finds (m.constantOf r) (.int y) ∧ op.results = [v] ∧ m.typeOf v = .ok t ∧
      wordWidth? t = some width ∧ truncateWord (intArith op.kind x y) width = .ok word := by
  unfold foldInt
  simp only [finds_bind, finds_lift, finds_given, finds_pure, Operation.result_eq_ok_iff,
    Prod.exists, finds_constantPair, Attr.int?_eq_some_iff]
  constructor
  · rintro ⟨x, y, ⟨l, r, _, _, hOperands, hLeft, rfl, hRight, rfl⟩, v, hResults, t, hType, width,
      hWidth, word, hWord, rfl⟩
    exact ⟨l, r, x, y, v, t, width, word, rfl, hOperands, hLeft, hRight, hResults, hType, hWidth,
      hWord⟩
  · rintro ⟨l, r, x, y, v, t, width, word, rfl, hOperands, hLeft, hRight, hResults, hType, hWidth,
      hWord⟩
    exact ⟨x, y, ⟨l, r, _, _, hOperands, hLeft, rfl, hRight, rfl⟩, v, hResults, t, hType, width,
      hWidth, word, hWord, rfl⟩

theorem finds_foldCmpF (hFinds : Finds (m.foldCmpF op) folded) :
    ∃ b, folded = .constant (truthAttr b) := by
  rcases finds_bind.mp hFinds with ⟨⟨l, r⟩, -, hRest⟩
  rcases finds_bind.mp hRest with ⟨p, -, hDone⟩
  exact ⟨_, (finds_pure.mp hDone).symm⟩

theorem finds_foldCmpI : Finds (m.foldCmpI op) folded ↔ ∃ l r x y p t width,
      folded = .constant (truthAttr (p.eval x y width)) ∧ op.operands = [l, r] ∧
      Finds (m.constantOf l) (.int x) ∧ Finds (m.constantOf r) (.int y) ∧
      ((op.attr? "predicate").bind Attr.int?).bind IntPredicate.ofIndex? = some p ∧
      m.typeOf l = .ok t ∧ wordWidth? t = some width := by
  unfold foldCmpI predicateOf
  simp only [finds_bind, finds_lift, finds_given, finds_pure, Prod.exists, finds_constantPair,
    Attr.int?_eq_some_iff, entry, orElse_eq_ok_iff]
  constructor
  · rintro ⟨x, y, ⟨l, r, _, _, hOperands, hLeft, rfl, hRight, rfl⟩, p, hPredicate, v, hFirst, t,
      hType, width, hWidth, rfl⟩
    rw [hOperands] at hFirst
    cases hFirst
    exact ⟨l, r, x, y, p, t, width, rfl, hOperands, hLeft, hRight, hPredicate, hType, hWidth⟩
  · rintro ⟨l, r, x, y, p, t, width, rfl, hOperands, hLeft, hRight, hPredicate, hType, hWidth⟩
    exact ⟨x, y, ⟨l, r, _, _, hOperands, hLeft, rfl, hRight, rfl⟩, p, hPredicate, l,
      by rw [hOperands]; rfl, t, hType, width, hWidth, rfl⟩

----
-- Operations that fold
----

theorem answers_resultType : Answers (m.resultType op) t ↔
      ∃ v, op.results = [v] ∧ m.typeOf v = .ok t := by
  unfold resultType
  simp only [answers_bind, answers_lift, answers_checkedType, Operation.result_eq_ok_iff]

theorem verifyKind_float (hKind : kind.isFloatBinary = true) :
    verifyKind records m o kind = verifyBinary records m o := by
  cases kind with
  | addF => rfl
  | subF => rfl
  | mulF => rfl
  | divF => rfl
  | _ => cases hKind

/- What gives a value uses a defined one, and sees it. -/
theorem Gives.operand (hVerified : m.Verified records) (hScoped : m.Scoped)
    (hGives : m.Gives kind v r) :
    (∃ info : ValueInfo, m.values[v.index]? = some info ∧ info.defined ≠ .placeholder) ∧
      ∀ u, m.Visible u r → m.Visible u v := by
  rcases hGives with ⟨info, o, i, op, hInfo, hDefined, hLive, hOp, -, hHead⟩
  have hOperand := List.mem_of_head? hHead
  rcases verifyOp_answers.mp (hVerified.ops o hLive) with ⟨found, hFound, hOperands, -⟩
  cases hOp.symm.trans (op_eq_ok_iff.mp hFound)
  refine ⟨verifyOperands_answers.mp hOperands v hOperand, fun u hResult => ?_⟩
  exact hResult.trans hInfo hDefined (hScoped o op hLive hOp v hOperand)

section

variable (hOp : m.op o = .ok op)

include hOp

/- What folds, by the kind of the operation. -/
theorem fold?_eq_some (hFold : m.fold? o = .ok (some folded)) :
    op.kind.isFloatBinary = true ∧ Finds (m.foldFloat op) folded ∨
      op.kind.isIntBinary = true ∧ Finds (m.foldInt op) folded ∨
      op.kind = .cmpF ∧ Finds (m.foldCmpF op) folded ∨
      op.kind = .cmpI ∧ Finds (m.foldCmpI op) folded ∨
      op.kind = .convert ∧ Finds (m.foldConvert op) folded ∨
      op.kind = .boxAddr ∧ Finds (m.foldBoxAddr op) folded := by
  rcases bind_eq_ok_iff.mp hFold with ⟨found, hFound, hRest⟩
  cases hOp.symm.trans hFound
  cases hKind : op.kind
  all_goals rw [hKind] at hRest
  case addF | subF | mulF | divF => exact .inl ⟨rfl, hRest⟩
  case addI | subI | mulI => exact .inr (.inl ⟨rfl, hRest⟩)
  case cmpF => exact .inr (.inr (.inl ⟨rfl, hRest⟩))
  case cmpI => exact .inr (.inr (.inr (.inl ⟨rfl, hRest⟩)))
  case convert => exact .inr (.inr (.inr (.inr (.inl ⟨rfl, hRest⟩))))
  case boxAddr => exact .inr (.inr (.inr (.inr (.inr ⟨rfl, hRest⟩))))
  all_goals cases hRest

/- Only conversions and addresses fold to values. -/
theorem fold?_eq_value (hFold : m.fold? o = .ok (some (.value v))) :
    op.kind = .convert ∧ Finds (m.foldConvert op) (.value v) ∨
      op.kind = .boxAddr ∧ Finds (m.foldBoxAddr op) (.value v) := by
  rcases fold?_eq_some hOp hFold with ⟨-, hFinds⟩ | ⟨-, hFinds⟩ | ⟨-, hFinds⟩ | ⟨-, hFinds⟩ | hValue
  · rcases finds_foldFloat hFinds with ⟨l, r, x, y, hFolded, -⟩
    cases hFolded
  · rcases finds_foldInt.mp hFinds with ⟨_, _, _, _, _, _, _, _, hFolded, -⟩
    cases hFolded
  · rcases finds_foldCmpF hFinds with ⟨b, hFolded⟩
    cases hFolded
  · rcases finds_foldCmpI.mp hFinds with ⟨_, _, _, _, _, _, _, hFolded, -⟩
    cases hFolded
  · exact hValue

theorem verifyBoxAddr_answers (hAnswers : Answers (verifyBoxAddr records m o) ()) :
    ∃ v t, op.results = [v] ∧ m.typeOf v = .ok t := by
  rcases answers_bind.mp hAnswers with ⟨_, -, hRest⟩
  rw [checkedOp_eq hOp, pure_bind] at hRest
  rcases answers_bind.mp hRest with ⟨_, -, hRest⟩
  rcases answers_bind.mp hRest with ⟨_, -, hRest⟩
  rcases answers_bind.mp hRest with ⟨t, hType, -⟩
  rcases answers_resultType.mp hType with ⟨v, hResults, hFound⟩
  exact ⟨v, t, hResults, hFound⟩

/- The result of arithmetic has the type of the first operand. -/
theorem verifyBinary_answers (hAnswers : Answers (verifyBinary records m o) ()) :
    ∃ l v t, op.operands[0]? = some l ∧ op.results = [v] ∧ m.typeOf l = .ok t ∧
      m.typeOf v = .ok t := by
  rcases answers_bind.mp hAnswers with ⟨_, -, hRest⟩
  rw [checkedOp_eq hOp, pure_bind] at hRest
  rcases answers_bind.mp hRest with ⟨lhs, hLeft, hRest⟩
  rcases answers_bind.mp hRest with ⟨rhs, -, hRest⟩
  rcases answers_bind.mp hRest with ⟨t, hType, hRest⟩
  rcases answers_bind.mp hRest with ⟨_, hSame, -⟩
  rw [answers_ensure, Bool.and_eq_true, beq_iff_eq, beq_iff_eq] at hSame
  rcases answers_bind.mp hLeft with ⟨l, hFirst, hOperand⟩
  rcases answers_resultType.mp hType with ⟨v, hResults, hFound⟩
  exact ⟨l, v, t, orElse_eq_ok_iff.mp (answers_lift.mp hFirst),
    hResults, hSame.2 ▸ answers_checkedType.mp hOperand, hFound⟩

/- The result of a comparison is a boolean. -/
theorem verifyCmp_answers (hAnswers : Answers (verifyCmp records m o) ()) :
    ∃ v, op.results = [v] ∧ m.typeOf v = .ok .i1 := by
  rcases answers_bind.mp hAnswers with ⟨_, -, hRest⟩
  rw [checkedOp_eq hOp, pure_bind] at hRest
  rcases answers_bind.mp hRest with ⟨lhs, -, hRest⟩
  rcases answers_bind.mp hRest with ⟨rhs, -, hRest⟩
  rcases answers_bind.mp hRest with ⟨_, -, hRest⟩
  rcases answers_bind.mp hRest with ⟨t, hType, hRest⟩
  rcases answers_bind.mp hRest with ⟨_, hSame, -⟩
  rw [answers_ensure, beq_iff_eq] at hSame
  rcases answers_resultType.mp hType with ⟨v, hResults, hFound⟩
  exact ⟨v, hResults, hSame ▸ hFound⟩

theorem verifyConstant_answers (hAnswers : Answers (verifyConstant records m o) ()) :
    ∃ v t value, op.results = [v] ∧ m.typeOf v = .ok t ∧ op.attr? "value" = some value ∧
      constantFits value t = true := by
  rcases answers_bind.mp hAnswers with ⟨_, -, hRest⟩
  rw [checkedOp_eq hOp, pure_bind] at hRest
  rcases answers_bind.mp hRest with ⟨t, hType, hRest⟩
  rcases answers_resultType.mp hType with ⟨v, hResults, hFound⟩
  split at hRest
  · exact absurd hRest not_answers_reject
  · rename_i value hValue
    exact ⟨v, t, value, hResults, hFound, hValue, answers_ensure.mp hRest⟩

variable (hLive : m.Live o)

include hLive

/- The result of an operation of the module is given by it. -/
theorem gives_of_live (hDefinitions : m.DefinitionsKept)
    (hHead : op.operands.head? = some v) (hResults : op.results = [r])
    (hType : m.typeOf r = .ok t) : m.Gives op.kind v r := by
  have hEntry := op_eq_ok_iff.mp hOp
  rcases typeOf_eq_ok_iff.mp hType with ⟨info, hInfo, -⟩
  rcases hDefinitions.result_source hEntry (by simp [hResults]) hInfo with ⟨i, hDefined⟩
  exact ⟨info, o, i, op, hInfo, hDefined, hLive, hEntry, rfl, hHead⟩

variable (hScoped : m.Scoped)

include hScoped

/- The operation that defines an operand is part of the module. -/
theorem gives_of_definedBy {inner : Operation} (hOperand : w ∈ op.operands)
    (hInner : Finds (m.definedBy w) inner) (hFirst : inner.operands[0]? = some v) :
    m.Gives inner.kind v w := by
  rcases finds_definedBy.mp hInner with ⟨info, d, i, hInfo, hDefined, hFound⟩
  have hSeen := hScoped o op hLive (op_eq_ok_iff.mp hOp) w hOperand info hInfo
  rw [hDefined] at hSeen
  rw [← List.head?_eq_getElem?] at hFirst
  exact ⟨info, d, i, inner, hInfo, hDefined, hSeen.1, op_eq_ok_iff.mp hFound, rfl, hFirst⟩

variable (hVerified : m.Verified records)

include hVerified

/- A constant that is used has a value that fits its type. -/
theorem fits_of_constantOf (hOwners : m.OwnersKept) (hOperand : v ∈ op.operands)
    (hFinds : Finds (m.constantOf v) value) :
    ∃ t, m.typeOf v = .ok t ∧ constantFits value t = true := by
  rcases finds_constantOf.mp hFinds with ⟨info, d, i, constant, hInfo, hDefined, hFound, hKind, hValue⟩
  have hSeen := hScoped o op hLive (op_eq_ok_iff.mp hOp) v hOperand info hInfo
  rw [hDefined] at hSeen
  rcases verifyOp_answers.mp (hVerified.ops d hSeen.1) with ⟨same, hSame, -, -, hAnswers⟩
  cases hFound.symm.trans hSame
  rw [hKind] at hAnswers
  rcases verifyConstant_answers hFound hAnswers with ⟨w, t, other, hResults, hType, hOther, hFits⟩
  cases hValue.symm.trans hOther
  -- the constant has one result, which is the value
  rcases hOwners.results _ info hInfo d i hDefined with ⟨listed, hListed, hAt⟩
  cases (op_eq_ok_iff.mp hFound).symm.trans hListed
  have hIn := List.mem_of_getElem? hAt
  rw [hResults, List.mem_singleton] at hIn
  have hSelf : v = w := hIn
  exact ⟨t, hSelf ▸ hType, hFits⟩

/-
  The value that an operation folds to: it has the type of the
  result, it is defined, and it is seen from wherever the result
  is.
-/
theorem value_of_fold (hDefinitions : m.DefinitionsKept) (hFaithful : m.Faithful)
    (hFold : m.fold? o = .ok (some (.value v))) : (op.kind = .convert ∨ op.kind = .boxAddr) ∧
      ∃ r, op.results = [r] ∧ m.SameType r v ∧ m.Yields r v ∧
        (∃ info : ValueInfo, m.values[v.index]? = some info ∧ info.defined ≠ .placeholder) ∧
        ∀ u, m.Visible u r → m.Visible u v := by
  rcases fold?_eq_value hOp hFold with ⟨hKind, hFinds⟩ | ⟨hKind, hFinds⟩
  · refine ⟨.inl hKind, ?_⟩
    rcases finds_foldConvert hFinds with ⟨_, w, r, t, ⟨⟩, hHead, hResults, hTarget, hSource, hCases⟩
    have hOuter := gives_of_live hOp hLive hDefinitions hHead hResults hTarget
    rw [hKind] at hOuter
    rcases hOuter.operand hVerified hScoped with ⟨hDefined, hSees⟩
    refine ⟨r, hResults, ⟨t, hTarget, hSource⟩, ?_⟩
    rcases hCases with rfl | ⟨hBoolean, inner, hInner, hSame, hFirst⟩
    · exact ⟨.same hOuter ⟨t, hSource, hTarget⟩ (.refl v), hDefined, hSees⟩
    · have hGives := gives_of_definedBy hOp hLive hScoped (List.mem_of_head? hHead) hInner hFirst
      rw [hSame] at hGives
      rcases hGives.operand hVerified hScoped with ⟨hInnerDefined, hInnerSees⟩
      exact ⟨.trip hOuter (.refl w) hGives hBoolean ⟨t, hSource, hTarget⟩ (.refl v), hInnerDefined,
        fun u hVisible => hInnerSees u (hSees u hVisible)⟩
  · refine ⟨.inr hKind, ?_⟩
    rcases finds_foldBoxAddr hFinds with ⟨_, w, inner, ⟨⟩, hHead, hInner, hSame, hFirst⟩
    rcases verifyOp_answers.mp (hVerified.ops o hLive) with ⟨found, hFound, -, -, hAnswers⟩
    cases hOp.symm.trans hFound
    rw [hKind] at hAnswers
    rcases verifyBoxAddr_answers hOp hAnswers with ⟨r, t, hResults, hTarget⟩
    have hOuter := gives_of_live hOp hLive hDefinitions hHead hResults hTarget
    rw [hKind] at hOuter
    have hGives := gives_of_definedBy hOp hLive hScoped (List.mem_of_head? hHead) hInner hFirst
    rw [hSame] at hGives
    rcases hFaithful w r w v hOuter (.refl w) hGives with ⟨type, hSource, hResult⟩
    rcases hOuter.operand hVerified hScoped with ⟨-, hSees⟩
    rcases hGives.operand hVerified hScoped with ⟨hDefined, hInnerSees⟩
    exact ⟨r, hResults, ⟨type, hResult, hSource⟩,
      .address hOuter (.refl w) hGives (.refl v), hDefined,
      fun u hVisible => hInnerSees u (hSees u hVisible)⟩

/- The constant that an operation folds to fits its result. -/
theorem fits_of_fold (hOwners : m.OwnersKept) (hFold : m.fold? o = .ok (some (.constant value))) :
    op.kind.isArithmetic = true ∧ ∃ v t, op.results = [v] ∧ m.typeOf v = .ok t ∧
        constantFits value t = true := by
  rcases verifyOp_answers.mp (hVerified.ops o hLive) with ⟨found, hFound, -, -, hAnswers⟩
  cases hOp.symm.trans hFound
  rcases fold?_eq_some hOp hFold with ⟨hKind, hFinds⟩ | ⟨hKind, hFinds⟩ | ⟨hKind, hFinds⟩ |
      ⟨hKind, hFinds⟩ | ⟨-, hFinds⟩ | ⟨-, hFinds⟩
  · rcases finds_foldFloat hFinds with ⟨l, r, x, y, ⟨⟩, hOperands, hConstant⟩
    rw [verifyKind_float hKind] at hAnswers
    rcases verifyBinary_answers hOp hAnswers with ⟨first, v, t, hFirst, hResults, hLeft, hResult⟩
    rw [hOperands, List.getElem?_cons_zero, Option.some.injEq] at hFirst
    subst hFirst
    rcases fits_of_constantOf hOp hLive hScoped hVerified hOwners
        (by simp [hOperands]) hConstant with ⟨type, hType, hFits⟩
    cases hLeft.symm.trans hType
    refine ⟨by simp [OpKind.isArithmetic, hKind], v, t, hResults, hResult, ?_⟩
    cases t with
    | real k => rfl
    | _ => cases hFits
  · rcases finds_foldInt.mp hFinds with
      ⟨_, _, _, _, v, t, width, word, ⟨⟩, -, -, -, hResults, hType, hWidth, -⟩
    refine ⟨by simp [OpKind.isArithmetic, hKind], v, t, hResults, hType, ?_⟩
    cases t with
    | integer w => rfl
    | index => rfl
    | _ => cases hWidth
  · rcases finds_foldCmpF hFinds with ⟨b, ⟨⟩⟩
    rw [hKind] at hAnswers ⊢
    rcases verifyCmp_answers hOp hAnswers with ⟨v, hResults, hType⟩
    exact ⟨rfl, v, .i1, hResults, hType, rfl⟩
  · rcases finds_foldCmpI.mp hFinds with ⟨_, _, _, _, p, _, width, ⟨⟩, -⟩
    rw [hKind] at hAnswers ⊢
    rcases verifyCmp_answers hOp hAnswers with ⟨v, hResults, hType⟩
    exact ⟨rfl, v, .i1, hResults, hType, rfl⟩
  · rcases finds_foldConvert hFinds with ⟨v, -, -, -, hFolded, -⟩
    cases hFolded
  · rcases finds_foldBoxAddr hFinds with ⟨v, -, -, hFolded, -⟩
    cases hFolded

end

end Module

end FortranIR
