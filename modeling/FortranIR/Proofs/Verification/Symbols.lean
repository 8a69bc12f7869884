import FortranIR.Proofs.Verification.Kinds

/-
  This file relates the symbols of a module before and after a
  reduction. An operation keeps its symbol, unless it becomes a
  constant or is lost; calls and addresses do not ask for more
  than that.

  Main declarations:
    * `Module.symbolOf?`, `Module.symbolNames`
    * `Module.Reduces.verifyAddressOf_left`
-/

namespace FortranIR

open Operation

variable {op : Operation}

namespace Module

variable {m m' : Module}

----
-- Symbols
----

/- The symbol that an operation of a module defines. -/
def symbolOf? (m : Module) (o : OpId) : Option String := m.ops[o.index]?.bind Operation.symName?

/- The symbols of some operations. -/
def symbolNames (m : Module) (os : List OpId) : List String := os.filterMap m.symbolOf?

theorem symbolOf?_of_op (hOp : m.op o = .ok op) : m.symbolOf? o = op.symName? := by
  unfold symbolOf?
  rw [op_eq_ok_iff.mp hOp, Option.bind_some]

/- Symbols pass if the operations exist and the names differ. -/
theorem verifySymbols_answers :
    Answers (m.verifySymbols seen os) () ↔ (∀ o ∈ os, ∃ op, m.op o = .ok op) ∧
        (m.symbolNames os).Nodup ∧ ∀ name ∈ m.symbolNames os, name ∉ seen := by
  induction os generalizing seen with
  | nil => simp [verifySymbols, answers_pure, symbolNames]
  | cons o os ih =>
    unfold verifySymbols
    simp only [answers_bind, answers_checkedOp, List.forall_mem_cons]
    constructor
    · rintro ⟨op, hOp, hRest⟩
      have hName := symbolOf?_of_op hOp
      cases hSym : op.symName? with
      | none =>
        rw [hSym] at hRest hName
        rcases ih.mp hRest with ⟨hExist, hNodup, hFresh⟩
        rw [symbolNames, List.filterMap_cons_none hName]
        exact ⟨⟨⟨op, hOp⟩, hExist⟩, hNodup, hFresh⟩
      | some name =>
        rw [hSym] at hName
        simp only [hSym, answers_bind, answers_ensure] at hRest
        rcases hRest with ⟨-, hNew, hRest⟩
        rcases ih.mp hRest with ⟨hExist, hNodup, hFresh⟩
        rw [symbolNames, List.filterMap_cons_some hName]
        refine ⟨⟨⟨op, hOp⟩, hExist⟩, ?_, ?_⟩
        · refine List.nodup_cons.mpr ⟨fun hIn => ?_, hNodup⟩
          exact hFresh name hIn (.head _)
        · refine List.forall_mem_cons.mpr ⟨by simpa using hNew, fun other hIn hSeen => ?_⟩
          exact hFresh other hIn (.tail _ hSeen)
    · rintro ⟨⟨⟨op, hOp⟩, hExist⟩, hNodup, hFresh⟩
      refine ⟨op, hOp, ?_⟩
      have hName := symbolOf?_of_op hOp
      cases hSym : op.symName? with
      | none =>
        rw [hSym] at hName
        rw [symbolNames, List.filterMap_cons_none hName] at hNodup hFresh
        exact ih.mpr ⟨hExist, hNodup, hFresh⟩
      | some name =>
        rw [hSym] at hName
        rw [symbolNames, List.filterMap_cons_some hName] at hNodup hFresh
        rcases List.nodup_cons.mp hNodup with ⟨hOnce, hRest⟩
        rcases List.forall_mem_cons.mp hFresh with ⟨hNew, hOthers⟩
        simp only [answers_bind, answers_ensure]
        refine ⟨(), by simpa using hNew, ih.mpr ⟨hExist, hRest, fun other hIn hSeen => ?_⟩⟩
        rcases List.mem_cons.mp hSeen with rfl | hBefore
        · exact hOnce hIn
        · exact hOthers other hIn hBefore

theorem findSymbol_eq (hExist : ∀ o ∈ os, ∃ op, m.op o = .ok op) : m.findSymbol name os =
      .ok (os.find? fun o => m.symbolOf? o = some name) := by
  induction os with
  | nil => rfl
  | cons o os ih =>
    rcases List.forall_mem_cons.mp hExist with ⟨⟨op, hOp⟩, hOthers⟩
    unfold findSymbol
    rw [hOp, List.find?_cons, symbolOf?_of_op hOp]
    change (if op.symName? = some name then .ok (some o) else m.findSymbol name os) = _
    by_cases hSame : op.symName? = some name
    · simp [hSame]
    · simp [hSame, ih hOthers]

/- A name stands for one operation. -/
theorem eq_of_symbolNames_nodup (hNodup : (m.symbolNames os).Nodup) (hO : o ∈ os)
    (hP : p ∈ os) (hNameO : m.symbolOf? o = some name) (hNameP : m.symbolOf? p = some name) :
    o = p := by
  induction os with
  | nil => cases hO
  | cons q os ih =>
    have hLater : ∀ r ∈ os, m.symbolOf? r = some name → m.symbolOf? q ≠ some name := by
      intro r hR hNameR hNameQ
      rw [symbolNames, List.filterMap_cons_some hNameQ] at hNodup
      exact (List.nodup_cons.mp hNodup).1 (List.mem_filterMap.mpr ⟨r, hR, hNameR⟩)
    have hRest : (m.symbolNames os).Nodup :=
      hNodup.sublist ((List.sublist_cons_self q os).filterMap _)
    rcases List.mem_cons.mp hO with rfl | hInO
    · rcases List.mem_cons.mp hP with rfl | hInP
      · rfl
      · exact absurd hNameO (hLater p hInP hNameP)
    · rcases List.mem_cons.mp hP with rfl | hInP
      · exact absurd hNameP (hLater o hInO hNameO)
      · exact ih hRest hInO hInP

----
-- Verified modules
----

/- All operations of a module pass, and their symbols differ. -/
structure Verified (records : RecordTable) (m : Module) : Prop where
  names : (m.symbolNames m.top).Nodup
  ops : ∀ o, m.Live o → Answers (verifyOp records m o) ()

theorem verified_of_verify (hVerify : Answers (verify records m) ()) : m.Verified records := by
  rcases verify_answers.mp hVerify with ⟨hSymbols, walked, hWalk, hOps⟩
  refine ⟨(verifySymbols_answers.mp hSymbols).2.1, fun o hLive => ?_⟩
  exact hOps o ((mem_walk_iff_live hWalk).mpr hLive)

namespace Verified

theorem op_of_live (hVerified : m.Verified records) (hLive : m.Live o) : ∃ op, m.op o = .ok op := by
  rcases verifyOp_answers.mp (hVerified.ops o hLive) with ⟨op, hOp, -⟩
  exact ⟨op, hOp⟩

/- A module that can be walked over passes its verification. -/
theorem verify (hVerified : m.Verified records) (hWalk : m.walk = .ok walked) :
    Answers (Module.verify records m) () := by
  refine verify_answers.mpr ⟨?_, walked, hWalk, fun o hMember => ?_⟩
  · refine verifySymbols_answers.mpr ⟨fun o hTop => hVerified.op_of_live (.top hTop),
        hVerified.names, nofun⟩
  · exact hVerified.ops o ((mem_walk_iff_live hWalk).mp hMember)

end Verified

theorem verifyOperands_answers : Answers (m.verifyOperands o vs) () ↔
      ∀ v ∈ vs, ∃ info : ValueInfo, m.values[v.index]? = some info ∧
        info.defined ≠ .placeholder := by
  induction vs with
  | nil => simp [verifyOperands, answers_pure]
  | cons v vs ih =>
    unfold verifyOperands
    simp only [answers_bind, answers_lift, answers_ensure, ih,
      List.forall_mem_cons, value_eq_ok_iff, bne_iff_ne]
    constructor
    · rintro ⟨info, hInfo, -, hDefined, hRest⟩
      exact ⟨⟨info, hInfo, hDefined⟩, hRest⟩
    · rintro ⟨⟨info, hInfo, hDefined⟩, hRest⟩
      exact ⟨info, hInfo, (), hDefined, hRest⟩

/- Placement, from what is known of the place of an operation. -/
theorem answers_verifyPlacement (hOp : m.op o = .ok op)
    (hNone : m.parentBlock? o = none → op.kind.isSymbol = true)
    (hSome : ∀ b, m.parentBlock? o = some b → op.kind.isSymbol = false ∧
        (op.kind.isTerminator = true → m.terminator? b = .ok (some o))) :
    Answers (m.verifyPlacement o) () := by
  refine answers_bind.mpr ⟨op, answers_checkedOp.mpr hOp, ?_⟩
  cases hPlace : m.parentBlock? o with
  | none => exact answers_ensure.mpr (hNone hPlace)
  | some b =>
    rcases hSome b hPlace with ⟨hSymbol, hLast⟩
    refine answers_bind.mpr ⟨(), answers_ensure.mpr (by simp [hSymbol]), ?_⟩
    by_cases hKind : op.kind.isTerminator = true
    · simp only [hKind, if_true]
      exact answers_bind.mpr ⟨some o, answers_lift.mpr (hLast hKind), answers_ensure.mpr (by simp)⟩
    · simp only [hKind]
      exact answers_pure.mpr rfl

namespace Reduces

----
-- Operations that keep their shape
----

section

variable (hReduces : m.Reduces σ gone m')
include hReduces

theorem operand_left (hVerified : m.Verified records) (hLive : m.Live o) (hOp : m.op o = .ok op)
    (hOp' : m'.op o = .ok op') (hOperand : v ∈ op.operands) :
    m'.typeOf (σ v) = m.typeOf v ∧ ∃ info' : ValueInfo, m'.values[(σ v).index]? = some info' ∧
        info'.defined ≠ .placeholder := by
  rcases verifyOp_answers.mp (hVerified.ops o hLive) with ⟨found, hFound, hOperands, -⟩
  cases hOp.symm.trans hFound
  rcases verifyOperands_answers.mp hOperands v hOperand with ⟨info, hInfo, hDefined⟩
  rcases hReduces.operandsLeft o op op' hLive (op_eq_ok_iff.mp hOp)
      (op_eq_ok_iff.mp hOp') v hOperand info hInfo hDefined with ⟨info', hInfo', hType, hDefined'⟩
  refine ⟨?_, info', hInfo', hDefined'⟩
  rw [typeOf_eq_ok_iff.mpr ⟨info, hInfo, rfl⟩]
  exact typeOf_eq_ok_iff.mpr ⟨info', hInfo', hType⟩

theorem sameShape (hVerified : m.Verified records) (hLive : m.Live o) (hOp : m.op o = .ok op)
    (hOp' : m'.op o = .ok (op.redirect σ)) : SameShape σ m m' o op where
  before := hOp
  after := hOp'
  operands _ hOperand := (hReduces.operand_left hVerified hLive hOp hOp' hOperand).1
  results _ hResult := hReduces.results_eq (op_eq_ok_iff.mp hOp') hResult

----
-- Symbols that are left
----

theorem symbolOf?_left (hOp' : m'.op o = .ok op') (hName : m'.symbolOf? o = some name) :
    m.symbolOf? o = some name ∧ ∃ op, m.op o = .ok op ∧ op' = op.redirect σ := by
  rcases hReduces.ops o op' (op_eq_ok_iff.mp hOp') with ⟨op, hOp, rfl | ⟨-, -, value, rfl⟩⟩
  · have hFound : m.op o = .ok op := op_eq_ok_iff.mpr hOp
    rw [symbolOf?_of_op hOp'] at hName
    rw [symbolOf?_of_op hFound]
    exact ⟨hName, op, hFound, rfl⟩
  · -- a constant has no symbol
    rw [symbolOf?_of_op hOp'] at hName
    cases hName

theorem symbolNames_left (hLeft : ∀ o ∈ os, ∃ op, m'.op o = .ok op) :
    (m'.symbolNames os).Sublist (m.symbolNames os) := by
  induction os with
  | nil => exact List.Sublist.slnil
  | cons o os ih =>
    rcases List.forall_mem_cons.mp hLeft with ⟨⟨op', hOp'⟩, hRest⟩
    unfold symbolNames at ih ⊢
    cases hName : m'.symbolOf? o with
    | none =>
      rw [List.filterMap_cons_none hName]
      exact (ih hRest).trans ((List.sublist_cons_self o os).filterMap _)
    | some name =>
      rw [List.filterMap_cons_some hName, List.filterMap_cons_some
        (hReduces.symbolOf?_left hOp' hName).1]
      exact (ih hRest).cons_cons name

/- A symbol is the same operation, or is not defined any more. -/
theorem lookupSymbol_left (hVerified : m.Verified records)
    (hComplete : m'.Complete)
    (hFound : m.lookupSymbol name = .ok found) :
    m'.lookupSymbol name = .ok none ∨ m'.lookupSymbol name = .ok found ∧
        ∀ f, found = some f → ∃ func, SameShape σ m m' f func := by
  unfold lookupSymbol at hFound ⊢
  rw [findSymbol_eq fun o hIn => hVerified.op_of_live (.top hIn), Except.ok.injEq] at hFound
  rw [findSymbol_eq hComplete, hReduces.top]
  cases hNew : m.top.find? fun o => m'.symbolOf? o = some name with
  | none => exact .inl rfl
  | some f =>
    have hIn : f ∈ m.top := List.mem_of_find?_eq_some hNew
    have hName : m'.symbolOf? f = some name := by simpa using List.find?_some hNew
    rcases hComplete f (hReduces.top ▸ hIn) with ⟨func', hFunc'⟩
    rcases hReduces.symbolOf?_left hFunc' hName with ⟨hBefore, func, hFunc, rfl⟩
    have hSame : found = some f := by
      cases found with
      | none =>
        rw [List.find?_eq_none] at hFound
        exact absurd (by simpa using hBefore) (hFound f hIn)
      | some g =>
        have hNameG : m.symbolOf? g = some name := by simpa using List.find?_some hFound
        rw [eq_of_symbolNames_nodup hVerified.names
          (List.mem_of_find?_eq_some hFound) hIn hNameG hBefore]
    subst hSame
    refine .inr ⟨rfl, ?_⟩
    rintro g ⟨⟩
    exact ⟨func, hReduces.sameShape hVerified (.top hIn) hFunc hFunc'⟩

end

section

variable (hReduces : m.Reduces σ gone m') (hVerified : m.Verified records)
variable (hComplete : m'.Complete) (hShape : SameShape σ m m' o op)
include hReduces hVerified hComplete hShape

theorem verifyCall_left (hAnswers : Answers (m.verifyCall o) ()) :
    Answers (m'.verifyCall o) () := by
  refine hShape.look (fun hAnswers => ?_) hAnswers
  rw [redirect_attr?]
  cases hCallee : (op.attr? "callee").bind Attr.symbol? with
  | none =>
    rw [hCallee] at hAnswers
    exact absurd hAnswers not_answers_reject
  | some callee =>
    rw [hCallee] at hAnswers
    rcases answers_bind.mp hAnswers with ⟨found, hFound, hRest⟩
    rcases hReduces.lookupSymbol_left hVerified hComplete
        (answers_lift.mp hFound) with hNone | ⟨hSame, hFunc⟩
    · exact answers_bind.mpr ⟨none, answers_lift.mpr hNone, answers_pure.mpr rfl⟩
    · refine answers_bind.mpr ⟨found, answers_lift.mpr hSame, ?_⟩
      cases found with
      | none => exact hRest
      | some f =>
        rcases hFunc f rfl with ⟨func, hFunc⟩
        have hArgs := hShape.operandTypes_eq fun v hIn => hIn
        refine hFunc.look (fun hRest => ?_) hRest
        simp only [redirect_kind, hFunc.typeAttr_eq, redirect_operands, hArgs,
          redirect_results, hShape.resultTypes_eq, hShape.ensure_eq]
        exact hRest

theorem verifyAddressOf_left (hAnswers : Answers (verifyAddressOf records m o) ()) :
    Answers (verifyAddressOf records m' o) () := by
  unfold verifyAddressOf at hAnswers ⊢
  rw [hShape.verifyCounts_eq]
  refine answers_bind_imp (fun _ _ => hShape.look fun hRest => ?_) hAnswers
  rw [redirect_attr?, hShape.resultType_eq]
  cases hSymbol : (op.attr? "symbol").bind Attr.symbol? with
  | none =>
    rw [hSymbol] at hRest
    exact absurd hRest not_answers_reject
  | some symbol =>
    rw [hSymbol] at hRest
    simp only [hShape.ensure_eq]
    refine answers_bind_imp (fun t _ hRest => ?_) hRest
    refine answers_bind_imp (fun _ _ hRest => ?_) hRest
    rcases answers_bind.mp hRest with ⟨found, hFound, hRest⟩
    rcases hReduces.lookupSymbol_left hVerified hComplete
        (answers_lift.mp hFound) with hNone | ⟨hSame, hGlobal⟩
    · exact answers_bind.mpr ⟨none, answers_lift.mpr hNone, answers_pure.mpr rfl⟩
    · refine answers_bind.mpr ⟨found, answers_lift.mpr hSame, ?_⟩
      cases found with
      | none => exact hRest
      | some g =>
        rcases hGlobal g rfl with ⟨global, hGlobal⟩
        simp only [hGlobal.typeAttr_eq]
        exact hRest

end

end Reduces

end Module

end FortranIR
